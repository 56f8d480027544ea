import Stencil.Proofs.Expr.Cost
import Stencil.Proofs.Expr.Hereditary
import Stencil.Proofs.Expr.Kind

/-!
What a substitution by symbols does to the number of operations in an expression. It does not
matter whether the expression is canonical: to put a node together can only lose operations.
-/

namespace Stencil

theorem le_foldl_max (xs : List Nat) (a : Nat) :
    a ≤ xs.foldl max a ∧ ∀ x ∈ xs, x ≤ xs.foldl max a := by
  induction xs generalizing a with
  | nil => simp
  | cons x xs ih =>
    obtain ⟨hstart, hall⟩ := ih (max a x)
    refine ⟨(le_max_left a x).trans hstart, List.forall_mem_cons.2 ⟨?_, hall⟩⟩
    exact (le_max_right a x).trans hstart

theorem foldl_max_mem (xs : List Nat) (a : Nat) : xs.foldl max a = a ∨ xs.foldl max a ∈ xs := by
  induction xs generalizing a with
  | nil => exact .inl rfl
  | cons x xs ih =>
    rw [List.foldl_cons]
    rcases ih (max a x) with h | h
    · rcases max_choice a x with hm | hm
      · exact .inl (h.trans hm)
      · exact .inr (by rw [h, hm]; exact List.mem_cons_self)
    · exact .inr (List.mem_cons_of_mem x h)

namespace Expr

variable {α : Type}

theorem height_eq (e : Expr α) : e.height = (e.args.map height).foldl max 0 + 1 := by
  unfold height
  rw [fold_eq]

theorem height_arg_lt {a e : Expr α} (h : a ∈ e.args) : a.height < e.height := by
  rw [height_eq e]
  exact Nat.lt_succ_of_le ((le_foldl_max _ 0).2 _ (List.mem_map_of_mem h))

theorem height_subterm_le {k e : Expr α} (h : k ∈ e.subterms) : k.height ≤ e.height := by
  induction e using inductArgs with
  | node e ih =>
    rcases mem_subterms.1 h with rfl | ⟨a, ha, hk⟩
    · exact le_rfl
    · exact (ih a ha hk).trans (height_arg_lt ha).le

theorem height_inner_lt {k e : Expr α} (h : k ∈ e.inner) : k.height < e.height := by
  obtain ⟨a, ha, hk⟩ := mem_inner.1 h
  exact (height_subterm_le hk).trans_lt (height_arg_lt ha)

def load (e : Expr α) : Nat := e.subterms.countP isOperation

def innerLoad (e : Expr α) : Nat := e.inner.countP isOperation

theorem innerLoad_eq (e : Expr α) : e.innerLoad = (e.args.map load).sum := by
  rw [innerLoad, inner, List.countP_flatMap]
  rfl

theorem load_eq (e : Expr α) : e.load = (if e.isOperation then 1 else 0) + (e.args.map load).sum := by
  rw [← innerLoad_eq, load, subterms_eq_inner, List.countP_cons, innerLoad]
  omega

theorem innerLoad_le (e : Expr α) : e.innerLoad ≤ e.load := by
  rw [load_eq, innerLoad_eq]
  omega

theorem load_of_leaf {e : Expr α} (h : e.isLeaf = true) : e.load = 0 := by
  rw [load, subterms_of_leaf h, List.countP_singleton, isOperation, h]
  rfl

theorem load_of_isNumber {e : Expr α} (h : e.isNumber = true) : e.load = 0 :=
  load_of_leaf (isLeaf_of_isNumber h)

theorem sum_map_flatMap {β γ : Type} (m : γ → Nat) (f : β → List γ) (xs : List β) :
    ((xs.flatMap f).map m).sum = (xs.map fun x => ((f x).map m).sum).sum := by
  rw [List.flatMap_def, List.map_flatten, List.sum_flatten, List.map_map, List.map_map]
  rfl

theorem sum_load_terms_le {f : Expr α → List (Expr α)} {xs ts : List (Expr α)}
    (hf : ∀ x : Expr α, ((f x).map load).sum ≤ x.load)
    (h : ts = nonLiterals (xs.flatMap f) ∨ ∃ c, ts = nonLiterals (xs.flatMap f) ++ [num c]) :
    (ts.map load).sum ≤ (xs.map load).sum := by
  have hnon : ((nonLiterals (xs.flatMap f)).map load).sum ≤ (xs.map load).sum := by
    refine (List.Sublist.sum_le_sum (List.filter_sublist.map load) fun _ _ => Nat.zero_le _).trans ?_
    rw [sum_map_flatMap]
    exact List.sum_le_sum fun x _ => hf x
  rcases h with rfl | ⟨c, rfl⟩
  · exact hnon
  · rw [List.map_append, List.sum_append, List.map_singleton, load_of_isNumber rfl]
    exact hnon

theorem sum_load_addends (x : Expr α) : ((addends x).map load).sum ≤ x.load := by
  cases x with
  | add es => exact innerLoad_eq (add es) ▸ innerLoad_le (add es)
  | _ => simp [addends]

theorem sum_load_factors (x : Expr α) : ((factors x).map load).sum ≤ x.load := by
  cases x with
  | mul es => exact innerLoad_eq (mul es) ▸ innerLoad_le (mul es)
  | _ => simp [factors]

section Rebuild

variable [Arithmetic α] {xs : List (Expr α)}

theorem innerLoad_sum_le (xs : List (Expr α)) : (sum xs).innerLoad ≤ (xs.map load).sum := by
  have hterms : ((sumTerms xs).map load).sum ≤ (xs.map load).sum := by
    refine sum_load_terms_le sum_load_addends ?_
    simp only [sumTerms]
    split
    · exact .inl rfl
    · exact .inr ⟨_, rfl⟩
  rcases sum_cases xs with ⟨hs, -⟩ | hs | ⟨-, hs⟩
  · rw [hs]
    exact Nat.zero_le _
  · rw [hs, List.map_singleton, List.sum_singleton] at hterms
    exact (innerLoad_le _).trans hterms
  · rw [hs, innerLoad_eq, args, ((sort_perm _).map load).sum_eq]
    exact hterms

theorem innerLoad_product_le (xs : List (Expr α)) :
    (product xs).innerLoad ≤ (xs.map load).sum := by
  have hterms : ((productTerms xs).map load).sum ≤ (xs.map load).sum := by
    refine sum_load_terms_le sum_load_factors ?_
    simp only [productTerms]
    split
    · exact .inl rfl
    · exact .inr ⟨_, rfl⟩
  rcases product_cases xs with ⟨-, hs⟩ | ⟨-, hs | ⟨-, hs⟩⟩
  · rw [hs]
    exact Nat.zero_le _
  · rw [hs, List.map_singleton, List.sum_singleton] at hterms
    exact (innerLoad_le _).trans hterms
  · rw [hs, innerLoad_eq, args, ((sort_perm _).map load).sum_eq]
    exact hterms

theorem innerLoad_power_le (b x : Expr α) : (power b x).innerLoad ≤ b.load + x.load := by
  have hpow : (pow b x).innerLoad = b.load + x.load := by
    simp [innerLoad_eq, args]
  unfold power
  split
  · split
    · exact (innerLoad_le b).trans (Nat.le_add_right _ _)
    · split
      · exact Nat.zero_le _
      · split
        · exact Nat.zero_le _
        · exact hpow.le
  · exact hpow.le

theorem innerLoad_rebuild_le (e : Expr α) (f : Expr α → Expr α) :
    (rebuild e (e.args.map f)).innerLoad ≤ (e.args.map fun a => (f a).load).sum := by
  have hsum : (e.args.map fun a => (f a).load).sum = ((e.args.map f).map load).sum := by
    rw [List.map_map]
    rfl
  rw [hsum]
  cases e with
  | num | sym | access => exact Nat.zero_le _
  | add => exact innerLoad_sum_le _
  | mul => exact innerLoad_product_le _
  | pow b x => exact (innerLoad_power_le (f b) (f x)).trans (by simp [args])
  | call => exact (innerLoad_eq _).le

theorem load_rebuild_le {e : Expr α} (f : Expr α → Expr α) (hop : e.isOperation = true) :
    (rebuild e (e.args.map f)).load ≤
      (if e.isOperation then 1 else 0) + (e.args.map fun a => (f a).load).sum := by
  have hle := innerLoad_rebuild_le e f
  rw [load_eq (rebuild e _), ← innerLoad_eq, if_pos hop]
  split <;> omega

omit [Arithmetic α] in
theorem tight_of_leaf {e : Expr α} (h : e.isLeaf = true) : Tight e := by
  intro n hn
  rw [subterms_of_leaf h, List.mem_singleton] at hn
  cases e <;> simp_all [isLeaf, TightNode]

theorem tight_sum (h : ∀ x ∈ xs, Tight x) : Tight (sum xs) := by
  have hterms : ∀ t ∈ sumTerms xs, Tight t := by
    intro t ht
    rcases mem_sumTerms ht with hn | hf
    · exact tight_of_leaf (isLeaf_of_isNumber hn)
    · obtain ⟨x, hx, ht⟩ := List.mem_flatMap.1 hf
      cases x with
      | add es => exact (h _ hx).args ht
      | _ => exact List.mem_singleton.1 ht ▸ h _ hx
  rcases sum_cases xs with ⟨hs, -⟩ | hs | ⟨htwo, hs⟩
  · exact hs ▸ tight_of_leaf rfl
  · exact hterms _ (hs ▸ List.mem_singleton_self _)
  · rw [hs]
    refine tight_of_args (fun hlen => ?_) fun t ht => hterms t ((sort_perm _).mem_iff.1 ht)
    rw [(sort_perm _).length_eq] at hlen
    omega

theorem tight_product (h : ∀ x ∈ xs, Tight x) : Tight (product xs) := by
  have hterms : ∀ t ∈ productTerms xs, Tight t ∧ t.isProduct = false := by
    intro t ht
    rcases mem_productTerms ht with hn | hf
    · exact ⟨tight_of_leaf (isLeaf_of_isNumber hn), by cases t <;> simp_all [isNumber, isProduct]⟩
    · obtain ⟨x, hx, ht⟩ := List.mem_flatMap.1 hf
      cases x with
      | mul es => exact ⟨(h _ hx).args ht, (h _ hx).node.2.1 t ht⟩
      | _ => exact List.mem_singleton.1 ht ▸ ⟨h _ hx, rfl⟩
  rcases product_cases xs with ⟨-, hs⟩ | ⟨hz, hs | ⟨htwo, hs⟩⟩
  · exact hs ▸ tight_of_leaf rfl
  · exact (hterms _ (hs ▸ List.mem_singleton_self _)).1
  · have hperm := sort_perm (productTerms xs)
    have hlits := (literals_productTerms hz htwo).1
    rw [hs]
    refine tight_of_args ⟨fun hlen => ?_, fun t ht => (hterms t (hperm.mem_iff.1 ht)).2, ?_⟩
      fun t ht => (hterms t (hperm.mem_iff.1 ht)).1
    · rw [hperm.length_eq] at hlen
      omega
    · rw [literals, (hperm.filterMap number?).length_eq]
      exact hlits

theorem tight_power {b x : Expr α} (hb : Tight b) (hx : Tight x) : Tight (power b x) := by
  have hpow : Tight (pow b x) := tight_of_args trivial (by simp [args, hb, hx])
  unfold power
  split
  · split
    · exact hb
    · split
      · exact tight_of_leaf rfl
      · split
        · exact tight_of_leaf rfl
        · exact hpow
  · exact hpow

theorem tight_rebuild {e : Expr α} (hlen : xs.length = e.args.length) (h : ∀ x ∈ xs, Tight x) :
    Tight (rebuild e xs) := by
  cases e with
  | num | sym | access => exact tight_of_leaf rfl
  | add => exact tight_sum h
  | mul => exact tight_product h
  | pow =>
    obtain ⟨b, x, rfl⟩ := List.length_eq_two.1 hlen
    exact tight_power (h b (by simp)) (h x (by simp))
  | call => exact tight_of_args trivial h

end Rebuild

section Replace

variable [Arithmetic α] {s : Substitution α} {e : Expr α}

theorem tight_replace (hs : ∀ k v, s.get? k = some v → v.isLeaf = true) (e : Expr α) :
    Tight (replace s e) := by
  induction e using inductArgs with
  | node e ih =>
    rw [replace_eq]
    split
    · rename_i v hget
      exact tight_of_leaf (hs e v hget)
    · split
      · rename_i hargs
        have hnil := List.isEmpty_iff.1 hargs
        refine tight_of_args ?_ (by simp [hnil])
        cases e <;> simp_all [TightNode, args, literals]
      · refine tight_rebuild (List.length_map _) fun x hx => ?_
        obtain ⟨a, ha, rfl⟩ := List.mem_map.1 hx
        exact ih a ha

theorem replace_add_hits_le {P : Expr α → Prop} (before after own hit : Expr α → Nat)
    (hP : ∀ e, P e → ∀ a ∈ e.args, P a)
    (hbefore : ∀ e, before e = own e + (e.args.map before).sum)
    (hhit : ∀ e v, P e → s.get? e = some v →
      after v + ((e.subterms.filter fun k => (s.get? k).isSome).map hit).sum ≤ before e)
    (hleaf : ∀ e, P e → e.args = [] → after e ≤ own e)
    (hnode : ∀ e, P e → e.isLeaf = false → after (rebuild e (e.args.map (replace s))) ≤
      own e + (e.args.map fun a => after (replace s a)).sum)
    (he : P e) :
    after (replace s e) + ((e.subterms.filter fun k => (s.get? k).isSome).map hit).sum ≤
      before e := by
  induction e using inductArgs with
  | node e ih =>
    cases hget : s.get? e with
    | some v =>
      -- All that is hit inside of what is replaced goes away with it.
      have hle := hhit e v he hget
      rwa [replace_eq, hget]
    | none =>
      have hargs : (e.args.map fun a => after (replace s a)).sum +
          ((e.inner.filter fun k => (s.get? k).isSome).map hit).sum ≤ (e.args.map before).sum := by
        rw [inner, List.filter_flatMap, sum_map_flatMap, ← List.sum_map_add]
        exact List.sum_le_sum fun a ha => ih a ha (hP e he a ha)
      rw [subterms_eq_inner, replace_eq, List.filter_cons_of_neg (by simp [hget]), hbefore e]
      by_cases hempty : e.args.isEmpty = true
      · have hle := hleaf e he (List.isEmpty_iff.1 hempty)
        simp only [hget, hempty, if_true]
        omega
      · have hle := hnode e he (isLeaf_of_args hempty)
        simp only [hget, hempty]
        rw [if_neg Bool.false_ne_true]
        omega

theorem two_mul_load_replace_le {most : Nat} (hs : ∀ k v, s.get? k = some v →
      v.isLeaf = true ∧ k.isOperation = true ∧ cost true k = most) (hpos : 0 < most)
    (he : Tight e) :
    2 * (replace s e).load + ((e.subterms.filter fun k => (s.get? k).isSome).map load).sum ≤
      2 * e.load := by
  refine replace_add_hits_le (fun e => 2 * e.load) (fun e => 2 * e.load)
    (fun e => 2 * if e.isOperation then 1 else 0) load (fun _ h _ ha => h.args ha) (fun e => ?_)
    (fun e v he hget => ?_) (fun e _ hargs => ?_) (fun e _ hleaf => ?_) he
  · rw [load_eq, List.sum_map_mul_left, Nat.mul_add]
  · have hcost := (hs e v hget).2.2
    have hsub := (he.inner_filter (hcost ▸ hpos) fun k _ hk => by
      obtain ⟨w, hw⟩ := Option.isSome_iff_exists.1 hk
      exact (hs k w hw).2.2.trans hcost.symm).1
    have hinner : ((e.inner.filter fun k => (s.get? k).isSome).map load).sum ≤ e.load :=
      (List.Sublist.sum_le_sum (hsub.map load) fun _ _ => Nat.zero_le _).trans
        (innerLoad_eq e ▸ innerLoad_le e)
    rw [subterms_eq_inner, List.filter_cons_of_pos (by simp [hget]), List.map_cons, List.sum_cons,
      load_of_leaf (hs e v hget).1]
    omega
  · rw [load_eq, hargs]
    rfl
  · have hop : e.isOperation = true := by simp [isOperation, hleaf]
    have hle := load_rebuild_le (replace s) hop
    rw [List.sum_map_mul_left, ← Nat.mul_add]
    exact Nat.mul_le_mul_left 2 hle

theorem two_mul_innerLoad_replace_le {most : Nat} (hs : ∀ k v, s.get? k = some v →
      v.isLeaf = true ∧ k.isOperation = true ∧ cost true k = most) (hpos : 0 < most)
    (he : ∀ a ∈ e.args, Tight a) :
    2 * (replace s e).innerLoad + ((e.inner.filter fun k => (s.get? k).isSome).map load).sum ≤
      2 * e.innerLoad := by
  have hargs : 2 * (e.args.map fun a => (replace s a).load).sum +
      ((e.inner.filter fun k => (s.get? k).isSome).map load).sum ≤ 2 * e.innerLoad := by
    rw [inner, List.filter_flatMap, sum_map_flatMap, innerLoad_eq, ← List.sum_map_mul_left,
      ← List.sum_map_mul_left, ← List.sum_map_add]
    exact List.sum_le_sum fun a ha => two_mul_load_replace_le hs hpos (he a ha)
  have hroot : (replace s e).innerLoad ≤ (e.args.map fun a => (replace s a).load).sum := by
    rw [replace_eq]
    split
    · rename_i v hget
      have hleaf := load_of_leaf (hs e v hget).1
      have hle := innerLoad_le v
      omega
    · split
      · rename_i hargs
        rw [innerLoad_eq, List.isEmpty_iff.1 hargs]
        rfl
      · exact innerLoad_rebuild_le e (replace s)
  omega

end Replace

section Congr

variable [Arithmetic α] {a b : Expr α}

theorem load_congr (h : (a == b) = true) : a.load = b.load := by
  have hsum : ∀ {as bs : List (Expr α)},
      List.Forall₂ (fun a b => (a == b) = true ∧ a.load = b.load) as bs →
        (as.map load).sum = (bs.map load).sum := by
    intro as bs h
    induction h with
    | nil => rfl
    | cons hab _ ih => rw [List.map_cons, List.map_cons, List.sum_cons, List.sum_cons, hab.2, ih]
  refine beqInduct (P := fun a b => a.load = b.load) (fun u v _ => ?_) (fun _ => rfl)
    (fun _ => rfl) (fun as bs h => ?_) (fun as bs h => ?_) (fun b x c y hb hx => ?_)
    (fun f as bs h => ?_) h
  · rw [load_of_leaf rfl, load_of_leaf rfl]
  · rw [load_eq, load_eq]
    exact congrArg _ (hsum h)
  · rw [load_eq, load_eq]
    exact congrArg _ (hsum h)
  · rw [load_eq, load_eq]
    simp [args, isOperation, isLeaf, hb.2, hx.2]
  · rw [load_eq, load_eq]
    exact congrArg _ (hsum h)

theorem isMinusOne_congr [LawfulArithmetic α] (h : (a == b) = true) :
    a.isMinusOne = b.isMinusOne := by
  have hr := rank_eq_of_beq h
  cases a <;> cases b <;> simp_all [rank, isMinusOne, number?]
  exact Arithmetic.isMinusOne_congr h

theorem integer?_congr [LawfulArithmetic α] (h : (a == b) = true) : a.integer? = b.integer? := by
  have hr := rank_eq_of_beq h
  cases a <;> cases b <;> simp_all [rank, integer?, number?]
  exact LawfulArithmetic.integer_congr _ _ h

theorem cost_congr [LawfulArithmetic α] {weighted : Bool} (h : (a == b) = true) :
    cost weighted a = cost weighted b := by
  have hall : ∀ {as bs : List (Expr α)},
      List.Forall₂ (fun a b => (a == b) = true ∧ cost weighted a = cost weighted b) as bs →
        as.length = bs.length ∧ costAll weighted as = costAll weighted bs ∧
          as.countP (fun a => !a.isMinusOne) = bs.countP fun a => !a.isMinusOne := by
    intro as bs h
    induction h with
    | nil => exact ⟨rfl, rfl, rfl⟩
    | cons hab _ ih =>
      refine ⟨congrArg (· + 1) ih.1, by rw [costAll, costAll, hab.2, ih.2.1], ?_⟩
      rw [List.countP_cons, List.countP_cons, ih.2.2, isMinusOne_congr hab.1]
  refine beqInduct (P := fun a b => cost weighted a = cost weighted b) (fun _ _ _ => rfl)
    (fun _ => rfl) (fun _ => rfl) (fun as bs h => ?_) (fun as bs h => ?_) (fun b x c y hb hx => ?_)
    (fun f as bs h => ?_) h
  · rw [cost, cost, (hall h).1, (hall h).2.1]
  · rw [cost, cost, (hall h).2.1, (hall h).2.2]
  · rw [cost, cost, hb.2, hx.2, powerCost, powerCost, integer?_congr hx.1]
  · rw [cost, cost, (hall h).2.1]

end Congr

end Expr

end Stencil
