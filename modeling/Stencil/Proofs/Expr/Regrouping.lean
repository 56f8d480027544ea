import Stencil.Proofs.Expr.Hereditary
import Stencil.Proofs.Expr.Shape

namespace Stencil.Expr

variable {α : Type}

inductive Operator where
  | plus
  | times

namespace Operator

def node : Operator → List (Expr α) → Expr α
  | plus => add
  | times => mul

def operands : Operator → Expr α → List (Expr α)
  | plus => addends
  | times => factors

def isNode : Operator → Expr α → Bool
  | plus => isSum
  | times => isProduct

variable (o : Operator) {as : List (Expr α)} {e : Expr α}

theorem operands_node (as : List (Expr α)) : o.operands (o.node as) = as := by
  cases o <;> rfl

theorem operands_of_not_node (h : o.isNode e = false) : o.operands e = [e] := by
  cases o <;> cases e <;> first | rfl | simp [isNode, isSum, isProduct] at h

theorem exists_of_isNode (h : o.isNode e = true) : ∃ as, e = o.node as := by
  cases o <;> cases e <;> first | exact ⟨_, rfl⟩ | simp [isNode, isSum, isProduct] at h

theorem isNode_of_isNumber (h : e.isNumber = true) : o.isNode e = false := by
  cases o <;> cases e <;> first | rfl | simp [isNumber] at h

theorem operands_num (v : α) : o.operands (num v) = [num v] :=
  o.operands_of_not_node (o.isNode_of_isNumber rfl)

theorem flatMap_operands (h : ∀ a ∈ as, o.isNode a = false) : as.flatMap o.operands = as := by
  cases o
  · exact flatMap_addends h
  · exact flatMap_factors h

variable [Arithmetic α]

def build : Operator → List (Expr α) → Expr α
  | plus => sum
  | times => product

def combine : Operator → α → α → α
  | plus => Arithmetic.add
  | times => Arithmetic.mul

def unit : Operator → α
  | plus => Arithmetic.zero
  | times => Arithmetic.one

def total (o : Operator) (vs : List α) : α := vs.foldl o.combine o.unit

def terms : Operator → List (Expr α) → List (Expr α)
  | plus => sumTerms
  | times => productTerms

/-- Whether a product is zero because its literals are. -/
def Vanishes (o : Operator) (as : List (Expr α)) : Prop :=
  o = times ∧ Arithmetic.isZero (o.total (literals (as.flatMap o.operands))) = true

theorem canonical_operands (h : Canonical e) :
    ∀ a ∈ o.operands e, Canonical a ∧ o.isNode a = false := by
  cases o
  · exact canonical_addends h
  · exact canonical_factors h

theorem operands_of_canonical (h : Canonical (o.node as)) : as.flatMap o.operands = as :=
  o.flatMap_operands fun a ha =>
    (o.canonical_operands h a ((o.operands_node as).symm ▸ ha)).2

theorem mem_terms (h : e ∈ o.terms as) : e.isNumber = true ∨ e ∈ as.flatMap o.operands := by
  cases o
  · exact mem_sumTerms h
  · exact mem_productTerms h

theorem build_cases (as : List (Expr α)) :
    o.Vanishes as ∧ o.build as = zero ∨ ¬ o.Vanishes as ∧
      (o.terms as = [] ∧ o.build as = num o.unit ∨ o.terms as = [o.build as] ∨
        2 ≤ (o.terms as).length ∧ o.build as = o.node (sort (o.terms as))) := by
  cases o with
  | plus =>
    refine .inr ⟨fun h => Operator.noConfusion h.1, ?_⟩
    rcases sum_cases as with ⟨hs, hnil⟩ | hone | hs
    · exact .inl ⟨hnil, hs⟩
    · exact .inr (.inl hone)
    · exact .inr (.inr hs)
  | times =>
    rcases product_cases as with ⟨hz, hs⟩ | ⟨hz, hs⟩
    · exact .inl ⟨⟨rfl, hz⟩, hs⟩
    · exact .inr ⟨fun h => Bool.false_ne_true (hz.symm.trans h.2), .inr hs⟩

theorem build_of_forall {P : Expr α → Prop} (hnum : ∀ v, P (num v))
    (hnode : ∀ es, P (o.node es) ↔ ∀ a ∈ es, P a) (h : ∀ a ∈ as, P a) : P (o.build as) := by
  have hterms : ∀ t ∈ o.terms as, P t := by
    intro t ht
    rcases o.mem_terms ht with hn | hf
    · obtain ⟨v, rfl⟩ : ∃ v, t = num v := by cases t <;> simp_all [isNumber]
      exact hnum v
    · obtain ⟨a, ha, hta⟩ := List.mem_flatMap.1 hf
      by_cases hop : o.isNode a = true
      · obtain ⟨es, rfl⟩ := o.exists_of_isNode hop
        rw [o.operands_node] at hta
        exact (hnode es).1 (h _ ha) t hta
      · rw [o.operands_of_not_node (Bool.eq_false_iff.2 hop), List.mem_singleton] at hta
        exact hta ▸ h a ha
  rcases o.build_cases as with ⟨-, hs⟩ | ⟨-, ⟨-, hs⟩ | hone | ⟨-, hs⟩⟩
  · exact hs ▸ hnum _
  · exact hs ▸ hnum _
  · exact hterms _ (hone ▸ List.mem_singleton_self _)
  · rw [hs, hnode]
    exact fun t ht => hterms t ((sort_perm _).mem_iff.1 ht)

theorem isNode_build (h : ∀ a ∈ as, Canonical a) (hs : o.terms as = [o.build as]) :
    o.isNode (o.build as) = false := by
  rcases o.mem_terms (hs ▸ List.mem_singleton_self _) with hn | hf
  · exact o.isNode_of_isNumber hn
  · obtain ⟨a, ha, hmem⟩ := List.mem_flatMap.1 hf
    exact (o.canonical_operands (h a ha) _ hmem).2

theorem rebuild_node (as es : List (Expr α)) : rebuild (o.node as) es = o.build es := by
  cases o <;> rfl

variable [AlgebraicField α] [Exact α]

theorem combine_unit (v : α) : o.combine o.unit v = v := by
  cases o
  · rw [combine, unit, Exact.add_eq, Arithmetic.zero_eq, zero_add]
  · rw [combine, unit, Exact.mul_eq, Arithmetic.one_eq, one_mul]

theorem total_cons (v : α) (vs : List α) : o.total (v :: vs) = o.combine v (o.total vs) := by
  cases o
  · show Arithmetic.sum (v :: vs) = Arithmetic.add v (Arithmetic.sum vs)
    rw [Arithmetic.sum_eq, Arithmetic.sum_eq, Exact.add_eq, List.sum_cons]
  · show Arithmetic.product (v :: vs) = Arithmetic.mul v (Arithmetic.product vs)
    rw [Arithmetic.product_eq, Arithmetic.product_eq, Exact.mul_eq, List.prod_cons]

theorem total_append (us vs : List α) :
    o.total (us ++ vs) = o.combine (o.total us) (o.total vs) := by
  cases o
  · show Arithmetic.sum (us ++ vs) = Arithmetic.add (Arithmetic.sum us) (Arithmetic.sum vs)
    simp only [Arithmetic.sum_eq, Exact.add_eq, List.sum_append]
  · show Arithmetic.product (us ++ vs) =
      Arithmetic.mul (Arithmetic.product us) (Arithmetic.product vs)
    simp only [Arithmetic.product_eq, Exact.mul_eq, List.prod_append]

theorem total_perm {us vs : List α} (h : us.Perm vs) : o.total us = o.total vs := by
  cases o
  · exact (Arithmetic.sum_eq us).trans (h.sum_eq.trans (Arithmetic.sum_eq vs).symm)
  · exact (Arithmetic.product_eq us).trans (h.prod_eq.trans (Arithmetic.product_eq vs).symm)

theorem terms_cases (as : List (Expr α)) :
    o.total (literals (as.flatMap o.operands)) = o.unit ∧
        o.terms as = nonLiterals (as.flatMap o.operands) ∨
      (o.total (literals (as.flatMap o.operands)) = o.unit →
          nonLiterals (as.flatMap o.operands) = []) ∧
        o.terms as = nonLiterals (as.flatMap o.operands) ++
          [num (o.total (literals (as.flatMap o.operands)))] := by
  cases o with
  | plus =>
    have hzero : ∀ c : α, Arithmetic.isZero c = true ↔ c = Arithmetic.zero := fun c => by
      rw [Arithmetic.isZero_iff, Arithmetic.zero_eq]
    by_cases hc : Arithmetic.sum (literals (as.flatMap addends)) = Arithmetic.zero
    · exact .inl ⟨hc, if_pos ((hzero _).2 hc)⟩
    · exact .inr ⟨fun h => absurd h hc, if_neg (mt (hzero _).1 hc)⟩
  | times =>
    have hone : ∀ c : α, Arithmetic.isOne c = true ↔ c = Arithmetic.one := fun c => by
      rw [Arithmetic.isOne_iff, Arithmetic.one_eq]
    by_cases hc : Arithmetic.product (literals (as.flatMap factors)) = Arithmetic.one ∧
        nonLiterals (as.flatMap factors) ≠ []
    · exact .inl ⟨hc.1, if_pos (by simp [(hone _).2 hc.1, hc.2])⟩
    · refine .inr ⟨fun h => not_not.1 fun hne => hc ⟨h, hne⟩, if_neg ?_⟩
      rw [Bool.and_eq_true, hone, Bool.not_eq_true', List.isEmpty_eq_false_iff]
      exact hc

end Operator

theorem closed_of_node [Arithmetic α] {P : Expr α → Prop} (hnum : ∀ v, P (num v))
    (hnode : ∀ (o : Operator) es, P (o.node es) ↔ ∀ a ∈ es, P a) : Closed P where
  num := hnum
  sum := Operator.build_of_forall .plus hnum (hnode .plus)
  product := Operator.build_of_forall .times hnum (hnode .times)

variable [Arithmetic α] [AlgebraicField α] [Exact α] (o : Operator)

structure Balanced (as bs : List (Expr α)) : Prop where
  rest : (nonLiterals as).Perm (nonLiterals bs)
  total : o.total (literals as) = o.total (literals bs)

variable {o} {as bs cs ds : List (Expr α)}

omit [AlgebraicField α] [Exact α] in
theorem Balanced.trans (h : Balanced o as bs) (h' : Balanced o bs cs) : Balanced o as cs :=
  ⟨h.rest.trans h'.rest, h.total.trans h'.total⟩

theorem Balanced.of_perm (h : as.Perm bs) : Balanced o as bs :=
  ⟨h.filter _, o.total_perm (h.filterMap number?)⟩

omit [Arithmetic α] [AlgebraicField α] [Exact α] in
theorem literals_append (as bs : List (Expr α)) :
    literals (as ++ bs) = literals as ++ literals bs := List.filterMap_append

omit [Arithmetic α] [AlgebraicField α] [Exact α] in
theorem nonLiterals_append (as bs : List (Expr α)) :
    nonLiterals (as ++ bs) = nonLiterals as ++ nonLiterals bs := List.filter_append ..

theorem Balanced.append (h : Balanced o as bs) (h' : Balanced o cs ds) :
    Balanced o (as ++ cs) (bs ++ ds) := by
  constructor
  · rw [nonLiterals_append, nonLiterals_append]
    exact h.rest.append h'.rest
  · rw [literals_append, literals_append, o.total_append, o.total_append, h.total, h'.total]

theorem balanced_unit (as : List (Expr α)) : Balanced o (num o.unit :: as) as := by
  refine ⟨.refl _, ?_⟩
  show o.total (o.unit :: literals as) = _
  rw [o.total_cons, o.combine_unit]

theorem balanced_fold (u v : α) (as : List (Expr α)) :
    Balanced o (num u :: num v :: as) (num (o.combine u v) :: as) := by
  refine ⟨.refl _, ?_⟩
  show o.total ([u, v] ++ literals as) = o.total ([o.combine u v] ++ literals as)
  rw [o.total_append, o.total_append]
  congr 1
  show o.combine (o.combine o.unit u) v = o.combine o.unit (o.combine u v)
  rw [o.combine_unit, o.combine_unit]

theorem balanced_terms (as : List (Expr α)) :
    Balanced o (o.terms as) (as.flatMap o.operands) := by
  rcases o.terms_cases as with ⟨htotal, hterms⟩ | ⟨-, hterms⟩
  · rw [hterms]
    refine ⟨.of_eq (by simp [nonLiterals]), ?_⟩
    rw [literals_nonLiterals, htotal]
    rfl
  · rw [hterms]
    refine ⟨.of_eq (by simp [nonLiterals, isNumber]), ?_⟩
    rw [literals_append_num]
    exact o.combine_unit _

theorem build_congr (h : Balanced o (as.flatMap o.operands) (bs.flatMap o.operands)) :
    o.build as = o.build bs := by
  cases o
  · exact sum_congr h.rest h.total
  · exact product_congr h.rest h.total

theorem build_of_perm (h : as.Perm bs) : o.build as = o.build bs :=
  build_congr (.of_perm (h.flatMap_right _))

theorem balanced_operands_build (h : ∀ a ∈ as, Canonical a) (hv : ¬ o.Vanishes as) :
    Balanced o (o.operands (o.build as)) (as.flatMap o.operands) := by
  refine .trans ?_ (balanced_terms as)
  rcases o.build_cases as with ⟨hv', -⟩ | ⟨-, ⟨hnil, hs⟩ | hone | ⟨-, hs⟩⟩
  · exact absurd hv' hv
  · rw [hnil, hs, o.operands_num]
    exact balanced_unit []
  · rw [o.operands_of_not_node (o.isNode_build h hone), ← hone]
    exact .of_perm (.refl _)
  · rw [hs, o.operands_node]
    exact .of_perm (sort_perm _)

omit [AlgebraicField α] [Exact α] in
theorem build_vanishing (h : o.Vanishes as) : o.build as = zero := by
  rcases o.build_cases as with ⟨-, hs⟩ | ⟨hv, -⟩
  · exact hs
  · exact absurd h hv

theorem vanishes_append (hv : o.Vanishes as) (bs : List (Expr α)) : o.Vanishes (as ++ bs) := by
  obtain ⟨rfl, hz⟩ := hv
  refine ⟨rfl, ?_⟩
  rw [Arithmetic.isZero_iff] at hz ⊢
  rw [List.flatMap_append, literals_append, Operator.total_append, hz]
  exact (Exact.mul_eq _ _).trans (zero_mul _)

theorem vanishes_zero : Operator.times.Vanishes [(zero : Expr α)] := by
  refine ⟨rfl, ?_⟩
  rw [Arithmetic.isZero_iff]
  exact (Operator.combine_unit .times (Arithmetic.zero : α)).trans Arithmetic.zero_eq

theorem build_group (h : ∀ a ∈ as, Canonical a) (bs : List (Expr α)) :
    o.build (o.build as :: bs) = o.build (as ++ bs) := by
  by_cases hv : o.Vanishes as
  · -- the inner zero hides its operands, so they cannot be compared; the outer products are zero
    obtain rfl := hv.1
    rw [build_vanishing hv, build_vanishing (vanishes_append hv bs)]
    exact build_vanishing (vanishes_append vanishes_zero bs)
  · refine build_congr ?_
    rw [List.flatMap_cons, List.flatMap_append]
    exact (balanced_operands_build h hv).append (.of_perm (.refl _))

theorem build_unit (as : List (Expr α)) : o.build (num o.unit :: as) = o.build as := by
  refine build_congr ?_
  rw [List.flatMap_cons, o.operands_num]
  exact balanced_unit _

theorem build_fold (u v : α) (as : List (Expr α)) :
    o.build (num u :: num v :: as) = o.build (num (o.combine u v) :: as) := by
  refine build_congr ?_
  rw [List.flatMap_cons, List.flatMap_cons, List.flatMap_cons, o.operands_num, o.operands_num,
    o.operands_num]
  exact balanced_fold u v _

theorem terms_singleton {e : Expr α} (hn : o.isNode e = false) :
    o.terms [e] = [e] ∨ o.terms [e] = [] ∧ e = num o.unit := by
  have hflat : [e].flatMap o.operands = [e] := o.flatMap_operands (by simpa using hn)
  have hcases := o.terms_cases [e]
  rw [hflat] at hcases
  cases he : e.isNumber with
  | true =>
    obtain ⟨v, rfl⟩ : ∃ v, e = num v := by cases e <;> simp_all [isNumber]
    have htotal : o.total (literals [num v]) = v := o.combine_unit v
    rw [htotal] at hcases
    rcases hcases with ⟨hv, hterms⟩ | ⟨-, hterms⟩
    · exact .inr ⟨hterms, congrArg num hv⟩
    · exact .inl hterms
  | false =>
    have hnon : nonLiterals [e] = [e] := by simp [nonLiterals, he]
    have htotal : o.total (literals [e]) = o.unit := by
      cases e <;> first | rfl | simp [isNumber] at he
    rcases hcases with ⟨-, hterms⟩ | ⟨hnil, -⟩
    · exact .inl (hterms.trans hnon)
    · exact absurd (hnon.symm.trans (hnil htotal)) (List.cons_ne_nil e [])

theorem eq_zero_of_vanishes {e : Expr α} (hn : o.isNode e = false) (hv : o.Vanishes [e]) :
    e = zero := by
  obtain ⟨rfl, hz⟩ := hv
  rw [Operator.flatMap_operands .times (by simpa using hn), Arithmetic.isZero_iff] at hz
  cases e with
  | num v =>
    have hv : v = 0 := (Operator.combine_unit .times v).symm.trans hz
    rw [hv, zero, Arithmetic.zero_eq]
  | _ => exact absurd ((Arithmetic.one_eq (α := α)).symm.trans hz) one_ne_zero

theorem build_singleton {e : Expr α} (h : Canonical e) : o.build [e] = e := by
  by_cases hnode : o.isNode e = true
  · obtain ⟨as, rfl⟩ := o.exists_of_isNode hnode
    have hflat := o.operands_of_canonical h
    have hself := rebuild_self h
    have hargs : (o.node as).args = as := by cases o <;> rfl
    rw [hargs, o.rebuild_node] at hself
    refine (build_congr ?_).trans hself
    rw [List.flatMap_cons, o.operands_node, List.flatMap_nil, List.append_nil, hflat]
    exact .of_perm (.refl _)
  · rw [Bool.not_eq_true] at hnode
    rcases o.build_cases [e] with ⟨hv, hs⟩ | ⟨-, hs⟩
    · rw [hs, eq_zero_of_vanishes hnode hv]
    · rcases terms_singleton hnode with hterms | ⟨hterms, he⟩
      · rw [hterms] at hs
        rcases hs with ⟨hnil, -⟩ | hone | ⟨htwo, -⟩
        · simp at hnil
        · exact (List.singleton_inj.1 hone).symm
        · simp at htwo
      · rw [hterms] at hs
        rcases hs with ⟨-, hs⟩ | hone | ⟨htwo, -⟩
        · rw [hs, he]
        · simp at hone
        · simp at htwo

end Stencil.Expr
