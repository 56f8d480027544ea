import Stencil.Proofs.Expr.Kind

/-!
Nodes that are put together again. When the operands fit, the canonical constructors fold no
literals and drop no operands: all that they do is to take nested operators apart and to sort.
-/

namespace Stencil.Expr

variable {α : Type}

def operands (e x : Expr α) : List (Expr α) :=
  match e with
  | add _ => x.addends
  | mul _ => x.factors
  | _ => [x]

def flatten (e : Expr α) (xs : List (Expr α)) : List (Expr α) :=
  match e with
  | add _ => xs.flatMap addends
  | mul _ => xs.flatMap factors
  | _ => xs

theorem flatten_eq_flatMap (e : Expr α) (xs : List (Expr α)) :
    flatten e xs = xs.flatMap (operands e) := by
  cases e <;> first | rfl | exact (List.flatMap_singleton' xs).symm

theorem mem_flatten {e a : Expr α} {xs : List (Expr α)} :
    a ∈ flatten e xs ↔ ∃ x ∈ xs, a ∈ operands e x := by
  rw [flatten_eq_flatMap, List.mem_flatMap]

theorem flatten_append (e : Expr α) (xs ys : List (Expr α)) :
    flatten e (xs ++ ys) = flatten e xs ++ flatten e ys := by
  rw [flatten_eq_flatMap, flatten_eq_flatMap, flatten_eq_flatMap, List.flatMap_append]

def Reorders {β : Type} (e : Expr α) (as bs : List β) : Prop :=
  match e with
  | add _ | mul _ => as.Perm bs
  | _ => as = bs

theorem Reorders.perm {β : Type} {e : Expr α} {as bs : List β} (h : Reorders e as bs) :
    as.Perm bs := by
  cases e <;> first | exact h | exact List.Perm.of_eq h

theorem Reorders.of_eq {β : Type} {e : Expr α} {as bs : List β} (h : as = bs) :
    Reorders e as bs := by
  cases e <;> first | exact h | exact List.Perm.of_eq h

theorem Reorders.of_perm {β : Type} {e : Expr α} {as bs : List β}
    (hac : e.isSum = true ∨ e.isProduct = true) (h : as.Perm bs) : Reorders e as bs := by
  cases e <;> first | exact h | simp [isSum, isProduct] at hac

theorem Reorders.symm {β : Type} {e : Expr α} {as bs : List β} (h : Reorders e as bs) :
    Reorders e bs as := by
  cases e <;> first | exact Eq.symm h | exact List.Perm.symm h

theorem Reorders.trans {β : Type} {e : Expr α} {as bs cs : List β} (h : Reorders e as bs)
    (h' : Reorders e bs cs) : Reorders e as cs := by
  cases e <;> first | exact Eq.trans h h' | exact List.Perm.trans h h'

theorem Reorders.map {β γ : Type} {e : Expr α} {as bs : List β} (f : β → γ)
    (h : Reorders e as bs) : Reorders e (as.map f) (bs.map f) := by
  cases e <;> first | exact congrArg (List.map f) h | exact List.Perm.map f h

theorem Reorders.flatten {e : Expr α} {as bs : List (Expr α)} (h : Reorders e as bs) :
    Reorders e (e.flatten as) (e.flatten bs) := by
  cases e <;> first | exact h | exact List.Perm.flatMap_right _ h

theorem operands_eq (e x : Expr α) : operands e x =
    if e.isSum && x.isSum || e.isProduct && x.isProduct then x.args else [x] := by
  cases e <;> cases x <;> rfl

theorem operands_cases (e x : Expr α) : operands e x = [x] ∨
    operands e x = x.args ∧ operands x = operands e ∧ (x.isSum = true ∨ x.isProduct = true) := by
  rw [operands_eq]
  split
  · rename_i hif
    refine .inr ⟨rfl, ?_, ?_⟩
    · cases e <;> cases x <;> simp_all [isSum, isProduct] <;> rfl
    · cases e <;> cases x <;> simp_all [isSum, isProduct]
  · exact .inl rfl

theorem mem_operands_subterms {e x a : Expr α} (h : a ∈ operands e x) : a ∈ x.subterms := by
  rcases operands_cases e x with hx | ⟨hx, -⟩
  · rw [hx, List.mem_singleton] at h
    exact h ▸ mem_subterms_self x
  · exact mem_subterms.2 (.inr ⟨a, hx ▸ h, mem_subterms_self a⟩)

theorem exists_mem_operands {e x i : Expr α} (h : i ∈ x.inputs) :
    ∃ a ∈ operands e x, i ∈ a.inputs := by
  rcases operands_cases e x with hx | ⟨hx, -, hac⟩
  · exact ⟨x, by simp [hx], h⟩
  · have hinput : x.isInput = false := by
      cases x <;> simp_all [isSum, isProduct, isInput, isSymbol, isAccess]
    exact hx ▸ (mem_inputs_iff hinput).1 h

theorem length_literals (es : List (Expr α)) : (literals es).length = es.countP isNumber := by
  induction es with
  | nil => rfl
  | cons e es ih =>
    unfold literals at ih ⊢
    rw [List.filterMap_cons, List.countP_cons]
    cases e <;> simp [number?, isNumber, ih]

section Arithmetic

variable [Arithmetic α]

def Fits (e : Expr α) (xs : List (Expr α)) : Prop :=
  match e with
  | add _ => Normal isSum Neutral (xs.flatMap addends)
  | mul _ => Normal isProduct Trivial (xs.flatMap factors)
  | pow _ _ => ∃ b x, xs = [b, x] ∧ ∀ v, x = num v → ¬ Trivial v ∧ b.isNumber = false
  | call _ _ => True
  | _ => xs = []

omit [Arithmetic α] in
theorem Normal.right {same : Expr α → Bool} {dropped : α → Prop} {as bs : List (Expr α)}
    (h : Normal same dropped (as ++ bs)) (htwo : 2 ≤ bs.length) : Normal same dropped bs where
  flat b hb := h.flat b (List.mem_append_right as hb)
  literal := by
    have hl := h.literal
    rw [length_literals, List.countP_append] at hl
    rw [length_literals]
    omega
  proper v hv := h.proper v (mem_literals.2 (List.mem_append_right as (mem_literals.1 hv)))
  two := htwo

theorem Fits.right {e : Expr α} {as bs : List (Expr α)} (h : Fits e (as ++ bs))
    (hac : e.isSum = true ∨ e.isProduct = true) (htwo : 2 ≤ (flatten e bs).length) :
    Fits e bs := by
  cases e with
  | add es =>
    have hsum : Normal isSum Neutral (flatten (add es) as ++ flatten (add es) bs) := by
      rw [← flatten_append]
      exact h
    exact hsum.right htwo
  | mul es =>
    have hproduct : Normal isProduct Trivial (flatten (mul es) as ++ flatten (mul es) bs) := by
      rw [← flatten_append]
      exact h
    exact hproduct.right htwo
  | _ => simp [isSum, isProduct] at hac

theorem Canonical.fits {e : Expr α} (h : Canonical e) : Fits e e.args := by
  cases h with
  | num | sym | access => rfl
  | add _ hn =>
    show Normal isSum Neutral _
    rwa [Expr.args, flatMap_addends hn.flat]
  | mul _ hn =>
    show Normal isProduct Trivial _
    rwa [Expr.args, flatMap_factors hn.flat]
  | @pow b x _ _ hv => exact ⟨b, x, rfl, hv⟩
  | call => trivial

theorem Canonical.two_le_args {e : Expr α} (h : Canonical e)
    (hac : e.isSum = true ∨ e.isProduct = true) : 2 ≤ e.args.length := by
  cases h with
  | add _ hn => exact hn.two
  | mul _ hn => exact hn.two
  | _ => simp [isSum, isProduct] at hac

theorem Canonical.pairwise_args {e : Expr α} (h : Canonical e)
    (hac : e.isSum = true ∨ e.isProduct = true) : e.args.Pairwise fun a b => a.le b = true := by
  cases h with
  | add _ _ hs | mul _ _ hs => exact hs
  | _ => simp [isSum, isProduct] at hac

theorem rebuild_of_no_args {e : Expr α} (h : Canonical e) (hargs : e.args = []) :
    rebuild e [] = e := by
  cases e with
  | add es =>
    have htwo := h.two_le_args (.inl rfl)
    rw [hargs] at htwo
    exact absurd htwo (Nat.not_succ_le_zero 1)
  | mul es =>
    have htwo := h.two_le_args (.inr rfl)
    rw [hargs] at htwo
    exact absurd htwo (Nat.not_succ_le_zero 1)
  | call f es => exact congrArg (call f) (Eq.symm hargs)
  | _ => rfl

def arrange (e : Expr α) (args : List (Expr α)) : Expr α :=
  match e with
  | add _ => add (sort args)
  | mul _ => mul (sort args)
  | e => rebuildRaw e args

structure Akin (e e' : Expr α) : Prop where
  flatten : flatten e' = flatten e
  fits : Fits e' = Fits e
  rebuild : ∀ xs, Fits e xs → rebuild e' xs = rebuild e xs
  reorders : ∀ {β : Type} {as bs : List β}, Reorders e' as bs = Reorders e as bs

section LawfulArithmetic

variable [LawfulArithmetic α]

theorem sumTerms_of_normal {args : List (Expr α)}
    (h : Normal isSum Neutral (args.flatMap addends)) :
    sumTerms args = nonLiterals (args.flatMap addends) ++ (literals (args.flatMap addends)).map num := by
  have hl := h.literal
  have hp := h.proper
  simp only [sumTerms]
  rcases hlit : literals (args.flatMap addends) with _ | ⟨v, _ | ⟨w, vs⟩⟩
  · have hz : Arithmetic.isZero (Arithmetic.sum ([] : List α)) = true :=
      LawfulArithmetic.isZero_zero
    rw [if_pos hz, List.map_nil, List.append_nil]
  · rw [hlit] at hp
    have hz : Arithmetic.isZero v = false := Bool.eq_false_iff.2 (hp v List.mem_cons_self)
    rw [Arithmetic.sum_singleton hz, hz]
    rfl
  · simp [hlit] at hl

theorem perm_sumTerms {args : List (Expr α)}
    (h : Normal isSum Neutral (args.flatMap addends)) :
    (sumTerms args).Perm (args.flatMap addends) :=
  sumTerms_of_normal h ▸ perm_literals _

theorem sum_of_normal {args : List (Expr α)}
    (h : Normal isSum Neutral (args.flatMap addends)) :
    sum args = add (sort (sumTerms args)) := by
  have htwo := h.two
  rw [← (perm_sumTerms h).length_eq] at htwo
  rcases sum_cases args with ⟨-, hs⟩ | hs | ⟨-, hs⟩
  · simp [hs] at htwo
  · simp [hs] at htwo
  · exact hs

theorem productTerms_of_normal {args : List (Expr α)}
    (h : Normal isProduct Trivial (args.flatMap factors)) :
    Arithmetic.isZero (Arithmetic.product (literals (args.flatMap factors))) = false ∧
      productTerms args =
        nonLiterals (args.flatMap factors) ++ (literals (args.flatMap factors)).map num := by
  have hperm := perm_literals (args.flatMap factors)
  have hl := h.literal
  have hp := h.proper
  have htwo := h.two
  simp only [productTerms]
  rcases hlit : literals (args.flatMap factors) with _ | ⟨v, _ | ⟨w, vs⟩⟩
  · rw [hlit] at hperm
    have hz : Arithmetic.isZero (Arithmetic.product ([] : List α)) = false :=
      LawfulArithmetic.isZero_one
    have ho : Arithmetic.isOne (Arithmetic.product ([] : List α)) = true :=
      LawfulArithmetic.isOne_one
    have hne : (nonLiterals (args.flatMap factors)).isEmpty = false := by
      have hlen := hperm.length_eq
      rw [List.map_nil, List.append_nil] at hlen
      rw [List.isEmpty_eq_false_iff, ← List.length_pos_iff]
      omega
    refine ⟨hz, ?_⟩
    simp [ho, hne]
  · rw [hlit] at hp
    have hv := hp v List.mem_cons_self
    simp only [Trivial, not_or, Bool.not_eq_true] at hv
    rw [Arithmetic.product_singleton, hv.2]
    exact ⟨hv.1, rfl⟩
  · simp [hlit] at hl

theorem perm_productTerms {args : List (Expr α)}
    (h : Normal isProduct Trivial (args.flatMap factors)) :
    (productTerms args).Perm (args.flatMap factors) :=
  (productTerms_of_normal h).2 ▸ perm_literals _

theorem product_of_normal {args : List (Expr α)}
    (h : Normal isProduct Trivial (args.flatMap factors)) :
    product args = mul (sort (productTerms args)) := by
  have hz := (productTerms_of_normal h).1
  have htwo := h.two
  rw [← (perm_productTerms h).length_eq] at htwo
  rcases product_cases args with ⟨hz', -⟩ | ⟨-, hs | ⟨-, hs⟩⟩
  · rw [hz] at hz'
    exact absurd hz' Bool.false_ne_true
  · simp [hs] at htwo
  · exact hs

omit [LawfulArithmetic α] in
theorem power_of_proper {b x : Expr α} (h : ∀ v, x = num v → ¬ Trivial v ∧ b.isNumber = false) :
    power b x = pow b x := by
  unfold power
  split
  · rename_i v
    obtain ⟨ht, hb⟩ := h v rfl
    simp only [Trivial, not_or] at ht
    rw [if_neg ht.2, if_neg ht.1]
    split
    · simp [isNumber] at hb
    · rfl
  · rfl

variable {e : Expr α} {xs : List (Expr α)}

theorem exists_arrange (h : Fits e xs) :
    ∃ as, Reorders e as (flatten e xs) ∧ rebuild e xs = arrange e as := by
  cases e with
  | add => exact ⟨_, perm_sumTerms h, sum_of_normal h⟩
  | mul => exact ⟨_, perm_productTerms h, product_of_normal h⟩
  | pow =>
    obtain ⟨b, x, rfl, hv⟩ := h
    exact ⟨_, rfl, power_of_proper hv⟩
  | _ => exact ⟨_, rfl, rfl⟩

theorem reorders_args (h : Fits e xs) : Reorders e (rebuild e xs).args (flatten e xs) := by
  obtain ⟨as, has, heq⟩ := exists_arrange h
  rw [heq]
  cases e with
  | add => exact (sort_perm as).trans has
  | mul => exact (sort_perm as).trans has
  | pow =>
    obtain ⟨b, x, rfl, -⟩ := h
    obtain rfl : as = [b, x] := has
    rfl
  | call => exact has
  | _ => exact (show xs = [] from h).symm

theorem akin_rebuild (h : Fits e xs) : Akin e (rebuild e xs) := by
  obtain ⟨as, has, heq⟩ := exists_arrange h
  rw [heq]
  cases e with
  | pow =>
    obtain ⟨b, x, rfl, -⟩ := h
    obtain rfl : as = [b, x] := has
    refine ⟨rfl, rfl, ?_, rfl⟩
    rintro _ ⟨c, y, rfl, -⟩
    rfl
  | _ => exact ⟨rfl, rfl, fun _ _ => rfl, rfl⟩

theorem operands_rebuild (h : Fits e xs) (hac : e.isSum = true ∨ e.isProduct = true) :
    operands e (rebuild e xs) = (rebuild e xs).args := by
  obtain ⟨as, -, heq⟩ := exists_arrange h
  rw [heq]
  cases e <;> first | rfl | simp [isSum, isProduct] at hac

theorem rank_rebuild (h : Fits e xs) : (rebuild e xs).rank = e.rank := by
  obtain ⟨as, has, heq⟩ := exists_arrange h
  rw [heq]
  cases e with
  | pow =>
    obtain ⟨b, x, rfl, -⟩ := h
    obtain rfl : as = [b, x] := has
    rfl
  | _ => rfl

omit [LawfulArithmetic α] [Arithmetic α] in
theorem isSymbol_of_rank {e' : Expr α} (h : e'.rank = e.rank) : e'.isSymbol = e.isSymbol := by
  cases e <;> cases e' <;> simp_all [rank, isSymbol]

omit [LawfulArithmetic α] [Arithmetic α] in
theorem isLeaf_of_rank {e' : Expr α} (h : e'.rank = e.rank) : e'.isLeaf = e.isLeaf := by
  cases e <;> cases e' <;> simp_all [rank, isLeaf]

omit [LawfulArithmetic α] [Arithmetic α] in
theorem isInput_of_rank {e' : Expr α} (h : e'.rank = e.rank) : e'.isInput = e.isInput := by
  cases e <;> cases e' <;> simp_all [rank, isInput, isSymbol, isAccess]

theorem mem_inputs_rebuild_of_fits (h : Fits e xs) {i x : Expr α} (hx : x ∈ xs)
    (hi : i ∈ x.inputs) : i ∈ (rebuild e xs).inputs := by
  obtain ⟨a, ha, hia⟩ := exists_mem_operands (e := e) hi
  have hflat := mem_flatten.2 ⟨x, hx, ha⟩
  exact mem_inputs_args ⟨a, (reorders_args h).perm.mem_iff.2 hflat, hia⟩

theorem exists_of_mem_inputs_rebuild (h : Fits e xs) (he : e.isInput = false) {i : Expr α}
    (hi : i ∈ (rebuild e xs).inputs) : ∃ x ∈ xs, i ∈ x.inputs := by
  obtain ⟨a, ha, hia⟩ := (mem_inputs_iff (isInput_of_rank (rank_rebuild h) ▸ he)).1 hi
  obtain ⟨x, hx, hax⟩ := mem_flatten.1 ((reorders_args h).perm.mem_iff.1 ha)
  exact ⟨x, hx, mem_inputs_trans (mem_operands_subterms hax) hia⟩

section Kinds

theorem isSum_of_kind {a b : Expr α} (h : a.kind = b.kind) : a.isSum = b.isSum := by
  have hr := rank_of_kind h
  cases a <;> cases b <;> simp_all [rank, isSum]

theorem isProduct_of_kind {a b : Expr α} (h : a.kind = b.kind) : a.isProduct = b.isProduct := by
  have hr := rank_of_kind h
  cases a <;> cases b <;> simp_all [rank, isProduct]

theorem isNumber_of_kind {a b : Expr α} (h : a.kind = b.kind) : a.isNumber = b.isNumber := by
  have hr := rank_of_kind h
  cases a <;> cases b <;> simp_all [rank, isNumber]

theorem exists_num_of_kind {a : Expr α} {v : α} (h : a.kind = (num v).kind) :
    ∃ u, a = num u ∧ Arithmetic.same u v = true := by
  have hn := isNumber_of_kind h
  cases a with
  | num u => exact ⟨u, rfl, kind_num.1 h⟩
  | _ => simp [isNumber] at hn

theorem operands_of_kind {a b : Expr α} (h : a.kind = b.kind) :
    (operands e a).map kind = (operands e b).map kind := by
  rw [operands_eq, operands_eq, isSum_of_kind h, isProduct_of_kind h]
  split
  · exact args_of_kind h
  · rw [List.map_singleton, List.map_singleton, h]

def Kind.operands (e : Expr α) : Kind α → List (Kind α) :=
  Quotient.lift (fun x => (Expr.operands e x).map kind) fun _ _ h => operands_of_kind (kind_eq.2 h)

theorem map_kind_flatten_eq (as : List (Expr α)) :
    (flatten e as).map kind = (as.map kind).flatMap (Kind.operands e) := by
  rw [flatten_eq_flatMap, List.map_flatMap, List.flatMap_map]
  rfl

theorem map_kind_flatten {as bs : List (Expr α)} (h : as.map kind = bs.map kind) :
    (flatten e as).map kind = (flatten e bs).map kind := by
  rw [map_kind_flatten_eq, h, map_kind_flatten_eq]

theorem perm_kind_flatten {as bs : List (Expr α)} (h : (as.map kind).Perm (bs.map kind)) :
    ((flatten e as).map kind).Perm ((flatten e bs).map kind) := by
  rw [map_kind_flatten_eq, map_kind_flatten_eq]
  exact h.flatMap_right _

theorem countP_of_kinds {p : Expr α → Bool} (hp : ∀ a b : Expr α, a.kind = b.kind → p a = p b)
    {as bs : List (Expr α)} (h : (as.map kind).Perm (bs.map kind)) : as.countP p = bs.countP p := by
  let q : Kind α → Bool := Quotient.lift p fun a b hab => hp a b (Quotient.sound hab)
  have hq : ∀ cs : List (Expr α), cs.countP p = (cs.map kind).countP q := fun cs => by
    rw [List.countP_map]
    rfl
  rw [hq, hq, h.countP_eq]

theorem Normal.of_kinds {same : Expr α → Bool} {dropped : α → Prop}
    (hs : ∀ a b : Expr α, a.kind = b.kind → same a = same b)
    (hd : ∀ u v : α, Arithmetic.same u v = true → dropped v → dropped u)
    {as bs : List (Expr α)} (h : Normal same dropped as) (hk : (as.map kind).Perm (bs.map kind)) :
    Normal same dropped bs := by
  have hmem : ∀ b ∈ bs, ∃ a ∈ as, a.kind = b.kind := fun b hb =>
    List.mem_map.1 (hk.mem_iff.2 (List.mem_map_of_mem hb))
  refine ⟨fun b hb => ?_, ?_, fun v hv hdrop => ?_, ?_⟩
  · obtain ⟨a, ha, hab⟩ := hmem b hb
    exact hs a b hab ▸ h.flat a ha
  · rw [length_literals, ← countP_of_kinds (fun _ _ => isNumber_of_kind) hk, ← length_literals]
    exact h.literal
  · obtain ⟨a, ha, hab⟩ := hmem (num v) (mem_literals.1 hv)
    obtain ⟨u, rfl, hsame⟩ := exists_num_of_kind hab
    exact h.proper u (mem_literals.2 ha) (hd u v hsame hdrop)
  · have hlen := hk.length_eq
    rw [List.length_map, List.length_map] at hlen
    exact hlen ▸ h.two

theorem Trivial.of_same {u v : α} (h : Arithmetic.same u v = true) (hv : Trivial v) :
    Trivial u := by
  rwa [Trivial, Arithmetic.isZero_congr h, Arithmetic.isOne_congr h]

theorem Neutral.of_same {u v : α} (h : Arithmetic.same u v = true) (hv : Neutral v) :
    Neutral u := by
  rwa [Neutral, Arithmetic.isZero_congr h]

theorem Fits.of_kinds {as bs : List (Expr α)} (h : Fits e as)
    (hk : Reorders e ((flatten e as).map kind) ((flatten e bs).map kind)) : Fits e bs := by
  cases e with
  | add => exact Normal.of_kinds (fun _ _ => isSum_of_kind) (fun _ _ => Neutral.of_same) h hk
  | mul => exact Normal.of_kinds (fun _ _ => isProduct_of_kind) (fun _ _ => Trivial.of_same) h hk
  | pow =>
    obtain ⟨b, x, rfl, hv⟩ := h
    obtain ⟨b', x', rfl⟩ : ∃ b' x', bs = [b', x'] := by
      have hlen := congrArg List.length (show List.map kind [b, x] = bs.map kind from hk)
      exact List.length_eq_two.1 (by simpa using hlen.symm)
    have hpair : [b.kind, x.kind] = [b'.kind, x'.kind] := hk
    simp only [List.cons.injEq, and_true] at hpair
    refine ⟨b', x', rfl, fun v hx' => ?_⟩
    subst hx'
    obtain ⟨u, rfl, hsame⟩ := exists_num_of_kind hpair.2
    obtain ⟨ht, hb⟩ := hv u rfl
    exact ⟨fun htv => ht (htv.of_same hsame), isNumber_of_kind hpair.1 ▸ hb⟩
  | call => trivial
  | _ =>
    obtain rfl : as = [] := h
    exact List.map_eq_nil_iff.1 (Eq.symm hk)

theorem kind_arrange {as bs : List (Expr α)} (h : Reorders e (as.map kind) (bs.map kind)) :
    (arrange e as).kind = (arrange e bs).kind := by
  cases e with
  | add => exact kind_add.2 (map_kind_sort h)
  | mul => exact kind_mul.2 (map_kind_sort h)
  | pow =>
    rcases map_kind_eq.1 h with _ | ⟨hb, _ | ⟨hx, _ | _⟩⟩
    · rfl
    · rfl
    · exact kind_pow.2 ⟨kind_eq.2 hb, kind_eq.2 hx⟩
    · rfl
  | call => exact kind_call.2 ⟨rfl, h⟩
  | _ => rfl

theorem kind_rebuild {as bs : List (Expr α)} (h : Fits e as)
    (hk : Reorders e ((flatten e as).map kind) ((flatten e bs).map kind)) :
    (rebuild e as).kind = (rebuild e bs).kind := by
  obtain ⟨as', ha, heq⟩ := exists_arrange h
  obtain ⟨bs', hb, heq'⟩ := exists_arrange (h.of_kinds hk)
  rw [heq, heq']
  exact kind_arrange ((ha.map kind).trans (hk.trans (hb.map kind).symm))

theorem kind_rebuild_of_kind {e' : Expr α} {as bs : List (Expr α)} (he : e.kind = e'.kind)
    (h : Fits e as) (hlen : as.length = e.args.length) (hk : as.map kind = bs.map kind) :
    (rebuild e as).kind = (rebuild e' bs).kind := by
  refine (kind_rebuild h (.of_eq (map_kind_flatten hk))).trans ?_
  replace hlen : bs.length = e.args.length := by
    have hlens := congrArg List.length hk
    rw [List.length_map, List.length_map] at hlens
    omega
  clear h hk
  refine beqInduct (P := fun e e' => bs.length = e.args.length →
    (rebuild e bs).kind = (rebuild e' bs).kind) (fun u v h _ => kind_num.2 h) (fun _ _ => rfl)
    (fun _ _ => rfl) (fun _ _ _ _ => rfl) (fun _ _ _ _ => rfl) (fun b x c y _ _ hlen => ?_)
    (fun _ _ _ _ _ => rfl) (kind_eq.1 he) hlen
  obtain ⟨b', x', rfl⟩ := List.length_eq_two.1 hlen
  rfl

theorem kind_rebuild_self (hc : Canonical e) : (rebuild e e.args).kind = e.kind := by
  have hargs := reorders_args hc.fits
  obtain ⟨as, has, heq⟩ := exists_arrange hc.fits
  have hflat : flatten e e.args = e.args := by
    cases hc with
    | add _ hn => exact flatMap_addends hn.flat
    | mul _ hn => exact flatMap_factors hn.flat
    | _ => rfl
  have hself : arrange e e.args = e := by
    cases hc with
    | add _ _ hsorted => exact congrArg add (sort_of_pairwise hsorted)
    | mul _ _ hsorted => exact congrArg mul (sort_of_pairwise hsorted)
    | _ => rfl
  rw [heq, kind_arrange (has.map kind), hflat, hself]

end Kinds

end LawfulArithmetic

end Arithmetic

end Stencil.Expr
