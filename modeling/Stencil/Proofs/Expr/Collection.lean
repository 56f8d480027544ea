import Mathlib.Algebra.BigOperators.Ring.List
import Stencil.Expr.Collection
import Stencil.Pass.Scalar
import Stencil.Proofs.Expr.Hereditary
import Stencil.Proofs.Table

namespace Stencil.Expr

variable {α : Type} [AlgebraicField α] [Arithmetic α] [Exact α]

theorem denote_coefficient (ρ : Expr α → α) (e : Expr α) :
    e.coefficient.1 * (e.coefficient.2.map (denote ρ)).prod = denote ρ e := by
  cases e with
  | num v => simp [coefficient]
  | mul args => 
    rw [coefficient, Arithmetic.product_eq, mul_comm, prod_literals, denote_mul]
  | _ => simp [coefficient, Arithmetic.one_eq]

omit [AlgebraicField α] [Exact α] in
theorem sharedCoefficients_eq (terms : List (Expr α)) :
    sharedCoefficients terms =
      (Table.group coefficientClass? terms).entries.filter fun p => 2 ≤ p.2.length := by
  simp only [sharedCoefficients, Table.group]
  congr 3
  funext t e
  cases e.coefficientClass? <;> rfl

theorem denote_signedPart (ρ : Expr α → α) {e c : Expr α} (h : e.coefficientClass? = some c) :
    denote ρ c * denote ρ e.signedPart = denote ρ e := by
  have hc : c = num (Arithmetic.abs e.coefficient.1) := by
    simp only [coefficientClass?] at h
    split at h
    · simp at h
    · simpa using h.symm
  have hsign := Exact.sign_mul_abs e.coefficient.1
  rw [hc, denote_num, signedPart, denote_product, List.map_cons, List.prod_cons, int, denote_num,
    Exact.ofInt_eq, ← denote_coefficient ρ e]
  conv_rhs => rw [← hsign]
  rw [← mul_assoc]
  congr 1
  rw [mul_comm]
  split <;> simp

theorem mem_sharedCoefficients {terms : List (Expr α)} {c : Expr α} {es : List (Expr α)}
    (h : (c, es) ∈ sharedCoefficients terms) :
    es = terms.filter fun e => e.coefficientClass? == some c := by
  rw [sharedCoefficients_eq, List.mem_filter] at h
  rw [← Table.get?_group,
    Table.get?_eq_some_of_mem (Table.nodup_keys_group _ _) h.1, Option.getD_some]

theorem collectCoefficients_perm (terms : List (Expr α)) :
    ((terms.filter fun e =>
      match e.coefficientClass? with
      | some c => !(sharedCoefficients terms).any (·.1 == c)
      | none => true) ++ (sharedCoefficients terms).flatMap (·.2)).Perm terms := by
  have hn : ((sharedCoefficients terms).map (·.1)).Nodup := by
    rw [sharedCoefficients_eq]
    exact (List.Nodup.sublist (List.filter_sublist.map _) (Table.nodup_keys_group _ _))
  have hshared : (sharedCoefficients terms).flatMap (·.2) =
      ((sharedCoefficients terms).map (·.1)).flatMap fun c =>
        terms.filter fun e => e.coefficientClass? == some c := by
    rw [List.flatMap_map]
    exact List.flatMap_congr fun p hp => mem_sharedCoefficients hp
  rw [hshared]
  refine ((flatMap_classes_perm _ hn terms).append_left _).trans ?_
  refine List.perm_append_comm.trans ?_
  have hsplit := List.filter_append_perm
    (fun e => ((sharedCoefficients terms).map (·.1)).any fun c => e.coefficientClass? == some c)
    terms
  refine .trans (.of_eq ?_) hsplit
  congr 1
  refine List.filter_congr fun e _ => ?_
  cases hc : e.coefficientClass? with
  | none => simp
  | some c =>
    simp only [List.any_map, Function.comp_def, Option.some_beq_some]
    exact congrArg (!List.any _ ·) (funext fun p => BEq.comm)

theorem sum_collectCoefficients (ρ : Expr α → α) (terms : List (Expr α)) :
    ((collectCoefficients terms).map (denote ρ)).sum = (terms.map (denote ρ)).sum := by
  have hperm := ((collectCoefficients_perm terms).map (denote ρ)).sum_eq
  have hgroup : ∀ p ∈ sharedCoefficients terms,
      denote ρ (product [p.1, sum (p.2.map signedPart)]) = (p.2.map (denote ρ)).sum := by
    rintro ⟨c, es⟩ hp
    have hes := mem_sharedCoefficients hp
    rw [denote_product, List.map_cons, List.map_singleton, List.prod_cons, List.prod_singleton,
      denote_sum, ← List.sum_map_mul_left, List.map_map]
    refine congrArg _ (List.map_congr_left fun e he => ?_)
    rw [hes, List.mem_filter, beq_iff_eq] at he
    exact denote_signedPart ρ he.2
  rw [← hperm, collectCoefficients]
  simp only [List.map_append, List.sum_append, List.map_map, List.map_flatMap]
  congr 1
  rw [List.flatMap_def, List.sum_flatten, List.map_map]
  exact congrArg _ (List.map_congr_left hgroup)

omit [AlgebraicField α] [Exact α] [Arithmetic α] in
theorem mem_properFactors {f e : Expr α} (h : f ∈ e.properFactors) :
    ∃ args, e = mul args ∧ f ∈ args := by
  cases e with
  | mul args => exact ⟨args, rfl, (mem_nonLiterals.1 h).1⟩
  | _ => exact absurd h List.not_mem_nil

theorem mem_of_offers {f e : Expr α} (h : offers f e = true) :
    ∃ args, e = mul args ∧ f ∈ args :=
  mem_properFactors (List.contains_iff_mem.1 (Bool.and_eq_true_iff.1 h).2)

theorem denote_without (ρ : Expr α → α) {f e : Expr α} (h : offers f e = true) :
    denote ρ f * denote ρ (without f e) = denote ρ e := by
  obtain ⟨args, rfl, hf⟩ := mem_of_offers h
  rw [without, denote_product, denote_mul, ← List.prod_cons, ← List.map_cons]
  exact ((List.perm_cons_erase hf).map _).prod_eq.symm

theorem sum_collectFactor (ρ : Expr α → α) (terms : List (Expr α)) :
    ((collectFactor terms).map (denote ρ)).sum = (terms.map (denote ρ)).sum := by
  unfold collectFactor
  split
  · rfl
  · rename_i f _
    have hsplit := ((List.filter_append_perm (offers f) terms).map (denote ρ)).sum_eq
    have hinner : (((terms.filter (offers f)).map (without f)).map (denote ρ)).sum =
        ((terms.filter (offers f)).map fun e => denote ρ (without f e)).sum := by
      rw [List.map_map]
      rfl
    rw [← hsplit, List.map_append, List.sum_append, List.map_append, List.sum_append, add_comm,
      List.map_singleton, List.sum_singleton, denote_product, List.map_cons, List.map_singleton,
      List.prod_cons, List.prod_singleton, denote_sum, hinner, ← List.sum_map_mul_left]
    congr 1
    refine congrArg _ (List.map_congr_left fun e he => ?_)
    exact denote_without ρ (List.mem_filter.1 he).2

omit [AlgebraicField α] [Exact α] in
theorem collect_eq (e : Expr α) :
    e.collect = if e.args.isEmpty then e
      else match rebuild e (e.args.map collect) with
        | add terms => sum (collectFactor (collectCoefficients terms))
        | e => e := by
  rw [collect, fold_eq]
  exact if_congr (by rw [List.isEmpty_map]) rfl rfl

@[simp]
theorem denote_collect (ρ : Expr α → α) (e : Expr α) : denote ρ e.collect = denote ρ e := by
  induction e using inductArgs with
  | node e ih =>
    rw [collect_eq]
    by_cases hargs : e.args.isEmpty = true
    · rw [if_pos hargs]
    · have hleaf := isLeaf_of_args hargs
      have hval : denote ρ (rebuild e (e.args.map collect)) = denote ρ e := by
        rw [denote_rebuild ρ hleaf (List.length_map _),
          denote_of_not_isInput (isInput_of_isLeaf hleaf), List.map_map]
        exact congrArg _ (List.map_congr_left ih)
      rw [if_neg hargs]
      split
      · rename_i terms hadd
        rw [denote_sum, sum_collectFactor, sum_collectCoefficients, ← denote_add, ← hadd, hval]
      · exact hval

theorem denote_collectWhileCheaper (ρ : Expr α → α) (n : Nat) (e : Expr α) :
    denote ρ (ScalarPass.collectWhileCheaper n e) = denote ρ e := by
  induction n generalizing e with
  | zero => rfl
  | succ n ih =>
    rw [ScalarPass.collectWhileCheaper]
    split
    · rw [ih, denote_collect]
    · rfl

theorem denote_collected (ρ : Expr α → α) (config : Config) (e : Expr α) :
    denote ρ (ScalarPass.collected config e) = denote ρ e := by
  simp only [ScalarPass.collected]
  split
  · rw [denote_collectWhileCheaper, denote_collect]
  · rw [denote_collect]

section Regroupable

omit [AlgebraicField α] [Exact α]

theorem mem_of_mem_eraseDups {f : Expr α} {n : Nat} {es : List (Expr α)} (hlen : es.length ≤ n)
    (h : f ∈ es.eraseDups) : f ∈ es := by
  induction n generalizing es with
  | zero =>
    obtain rfl := List.eq_nil_of_length_eq_zero (Nat.le_zero.1 hlen)
    exact h
  | succ n ih =>
    cases es with
    | nil => exact h
    | cons e es =>
      rw [List.eraseDups_cons] at h
      rcases List.mem_cons.1 h with rfl | h
      · exact List.mem_cons_self
      · have hshort := (List.length_filter_le (fun b => !b == e) es).trans
          (Nat.le_of_succ_le_succ hlen)
        exact List.mem_cons_of_mem _ (List.mem_of_mem_filter (ih hshort h))

theorem exists_args_of_commonFactor {terms : List (Expr α)} {f : Expr α}
    (h : commonFactor? terms = some f) : ∃ args, mul args ∈ terms ∧ f ∈ args := by
  obtain ⟨x, hbest, rfl⟩ := Option.map_eq_some_iff.1 h
  have hmem : x ∈ (factorCounts terms).entries.filter fun p => 2 ≤ p.2 := by
    refine List.foldlRecOn (motive := fun best : Option (Expr α × Nat) => ∀ y, best = some y →
      y ∈ (factorCounts terms).entries.filter fun p => 2 ≤ p.2) _ _ ?_ ?_ _ hbest
    · exact fun y hy => absurd hy.symm (Option.some_ne_none y)
    · intro best ih p hp y hy
      split at hy
      · exact Option.some.inj hy ▸ hp
      · split at hy
        · exact Option.some.inj hy ▸ hp
        · exact ih y hy
  have hkey := List.mem_map_of_mem (f := Prod.fst) (List.mem_of_mem_filter hmem)
  obtain ⟨e, he, hf⟩ := List.mem_flatMap.1 (Table.mem_of_mem_keys_counts hkey)
  split at hf
  · obtain ⟨args, rfl, harg⟩ := mem_properFactors (mem_of_mem_eraseDups le_rfl hf)
    exact ⟨args, he, harg⟩
  · exact absurd hf List.not_mem_nil

theorem exists_args_of_offers {f e : Expr α} (h : offers f e = true) : ∃ args, e = mul args := by
  cases e with
  | mul args => exact ⟨args, rfl⟩
  | _ => simp [offers, properFactors] at h

/-- Properties that sums and products share with their operands, and that a node keeps when its
operands keep them. The operands of a call need not have them. -/
structure Regroupable (P : Expr α → Prop) : Prop where
  num : ∀ v, P (num v)
  terms : ∀ {es}, P (add es) → ∀ e ∈ es, P e
  factors : ∀ {es}, P (mul es) → ∀ e ∈ es, P e
  sum : ∀ {es}, (∀ e ∈ es, P e) → P (sum es)
  product : ∀ {es}, (∀ e ∈ es, P e) → P (product es)
  rebuild : ∀ {e} {f : Expr α → Expr α}, P e → (∀ a ∈ e.args, P a → P (f a)) →
    P (rebuild e (e.args.map f))

variable {P : Expr α → Prop}

theorem Hereditary.regroupable (hP : Hereditary P) : Regroupable P where
  num := hP.num
  terms := hP.args
  factors := hP.args
  sum := hP.sum
  product := hP.product
  rebuild {e f} he h := by
    refine hP.rebuild he (List.length_map _) fun a ha => ?_
    obtain ⟨b, hb, rfl⟩ := List.mem_map.1 ha
    exact h b hb (hP.args he b hb)

variable (hP : Regroupable P)

include hP

theorem Regroupable.coefficient {e : Expr α} (he : P e) : ∀ a ∈ e.coefficient.2, P a := by
  cases e with
  | mul args => exact fun a ha => hP.factors he a (mem_nonLiterals.1 ha).1
  | _ => simp_all [Expr.coefficient]

theorem Regroupable.signedPart {e : Expr α} (he : P e) : P e.signedPart := by
  refine hP.product fun a ha => ?_
  rcases List.mem_cons.1 ha with rfl | ha
  · exact hP.num _
  · exact hP.coefficient he a ha

theorem Regroupable.coefficientClass {e c : Expr α} (h : e.coefficientClass? = some c) : P c := by
  simp only [coefficientClass?] at h
  split at h
  · exact absurd h.symm (Option.some_ne_none c)
  · exact Option.some.inj h ▸ hP.num _

theorem Regroupable.collectCoefficients {terms : List (Expr α)} (h : ∀ e ∈ terms, P e) :
    ∀ e ∈ Expr.collectCoefficients terms, P e := by
  intro e he
  rcases List.mem_append.1 he with he | he
  · exact h e (List.mem_filter.1 he).1
  · obtain ⟨x, hx, rfl⟩ := List.mem_map.1 he
    rw [sharedCoefficients_eq] at hx
    have hentry := List.mem_of_mem_filter hx
    obtain ⟨d, -, hc⟩ := Table.mem_keys_group (List.mem_map_of_mem hentry)
    have hmem := Table.subset_of_mem_values_group (List.mem_map_of_mem hentry)
    refine hP.product fun a ha => ?_
    simp only [List.mem_cons, List.not_mem_nil, or_false] at ha
    rcases ha with rfl | rfl
    · exact hP.coefficientClass hc
    · refine hP.sum fun b hb => ?_
      obtain ⟨d, hd, rfl⟩ := List.mem_map.1 hb
      exact hP.signedPart (h d (hmem hd))

theorem Regroupable.collectFactor {terms : List (Expr α)} (h : ∀ e ∈ terms, P e) :
    ∀ e ∈ Expr.collectFactor terms, P e := by
  unfold Expr.collectFactor
  split
  · exact h
  · rename_i f hf
    intro e he
    rcases List.mem_append.1 he with he | he
    · exact h e (List.mem_filter.1 he).1
    · obtain rfl := List.mem_singleton.1 he
      obtain ⟨args, hterm, hf⟩ := exists_args_of_commonFactor hf
      refine hP.product fun a ha => ?_
      simp only [List.mem_cons, List.not_mem_nil, or_false] at ha
      rcases ha with rfl | rfl
      · exact hP.factors (h _ hterm) a hf
      · refine hP.sum fun b hb => ?_
        obtain ⟨d, hd, rfl⟩ := List.mem_map.1 hb
        obtain ⟨hdt, hdo⟩ := List.mem_filter.1 hd
        obtain ⟨es, rfl⟩ := exists_args_of_offers hdo
        exact hP.product fun c hc => hP.factors (h _ hdt) c (List.mem_of_mem_erase hc)

theorem Regroupable.collect {e : Expr α} (he : P e) : P e.collect := by
  induction e using inductArgs with
  | node e ih =>
    rw [collect_eq]
    split
    · exact he
    · have hbuild : P (Expr.rebuild e (e.args.map Expr.collect)) := hP.rebuild he ih
      split
      · rename_i terms hadd
        rw [hadd] at hbuild
        exact hP.sum (hP.collectFactor (hP.collectCoefficients (hP.terms hbuild)))
      · exact hbuild

theorem Regroupable.collectWhileCheaper (n : Nat) {e : Expr α} (he : P e) :
    P (ScalarPass.collectWhileCheaper n e) := by
  induction n generalizing e with
  | zero => exact he
  | succ n ih =>
    rw [ScalarPass.collectWhileCheaper]
    split
    · exact ih (hP.collect he)
    · exact he

theorem Regroupable.collected (config : Config) {e : Expr α} (he : P e) :
    P (ScalarPass.collected config e) := by
  simp only [ScalarPass.collected]
  split
  · exact hP.collectWhileCheaper _ (hP.collect he)
  · exact hP.collect he

end Regroupable

end Stencil.Expr
