import Stencil.Proofs.Binary64.Order
import Stencil.Proofs.Expr.Regrouping
import Stencil.Proofs.Table

/-!
The order of expressions over binary64 numbers, and what rests on it: keys of tables, lists without
repetitions and the sorted operands of sums and products are the same for equal expressions.
-/

namespace Stencil

/-- A comparison that puts everything in one order, equal elements in one place. -/
structure TotalOrder {β : Type} [BEq β] (cmp : β → β → Ordering) : Prop where
  total : ∀ a b, (cmp a b).isLE ∨ (cmp b a).isLE
  swap : ∀ a b, cmp b a = (cmp a b).swap
  trans : ∀ a b c, (cmp a b).isLE → (cmp b c).isLE → (cmp a c).isLE
  eq_iff : ∀ a b, cmp a b = .eq ↔ (a == b) = true

section Deduplication

variable {β : Type} [BEq β]

theorem sublist_eraseDups (xs : List β) : xs.eraseDups.Sublist xs := by
  match xs with
  | [] => exact .slnil
  | x :: xs =>
    rw [List.eraseDups_cons]
    exact ((sublist_eraseDups _).trans List.filter_sublist).cons_cons x
termination_by xs.length
decreasing_by exact Nat.lt_succ_of_le (List.length_filter_le ..)

theorem count_eraseDups [EquivBEq β] {x : β} (xs : List β) (h : x ∈ xs) :
    xs.eraseDups.count x = 1 := by
  match xs with
  | [] => exact absurd h List.not_mem_nil
  | y :: ys =>
    rw [List.eraseDups_cons, List.count_cons]
    by_cases hyx : (y == x) = true
    · have hnone : (ys.filter fun z => !z == y).eraseDups.count x = 0 := by
        refine List.countP_eq_zero.2 fun z hz hzx => ?_
        have hzy := (List.mem_filter.1 ((sublist_eraseDups _).mem hz)).2
        simp [BEq.trans hzx (BEq.symm hyx)] at hzy
      rw [if_pos hyx, hnone]
    · have hxy : (x == y) = false := Bool.eq_false_iff.2 fun h => hyx (BEq.symm h)
      have hys : x ∈ ys := (List.mem_cons.1 h).resolve_left fun h => hyx (h ▸ BEq.rfl)
      rw [if_neg hyx, count_eraseDups _ (List.mem_filter.2 ⟨hys, by simp [hxy]⟩)]
termination_by xs.length
decreasing_by exact Nat.lt_succ_of_le (List.length_filter_le ..)

end Deduplication

namespace Expr

theorem totalOrder_cmp {α : Type} [Arithmetic α] [LawfulLiterals α] :
    TotalOrder (Expr.cmp : Expr α → Expr α → Ordering) where
  total a b := by
    rw [cmp_swap a b]
    cases a.cmp b <;> simp
  swap := cmp_swap
  trans _ _ _ := Std.TransCmp.isLE_trans
  eq_iff := cmp_eq_iff

section Operator

variable {α : Type} [Arithmetic α]

namespace Operator

def folded (o : Operator) (vs : List α) (alone : Bool) : List (Expr α) :=
  match o with
  | plus => if Arithmetic.isZero (o.total vs) then [] else [num (o.total vs)]
  | times => if Arithmetic.isOne (o.total vs) && !alone then [] else [num (o.total vs)]

theorem terms_eq (o : Operator) (as : List (Expr α)) :
    o.terms as = nonLiterals (as.flatMap o.operands) ++
      o.folded (literals (as.flatMap o.operands)) (nonLiterals (as.flatMap o.operands)).isEmpty := by
  cases o with
  | plus =>
    show sumTerms as = _ ++ if Arithmetic.isZero _ then [] else [num _]
    rw [sumTerms]
    split <;> simp_all [operands, total, combine, unit, Arithmetic.sum]
  | times =>
    show productTerms as = _ ++ if Arithmetic.isOne _ && !_ then [] else [num _]
    rw [productTerms]
    split <;> simp_all [operands, total, combine, unit, Arithmetic.product]

end Operator

variable [LawfulArithmetic α] {o : Operator} {as bs : List (Expr α)} {us vs : List α}

structure SameOperands (o : Operator) (as bs : List (Expr α)) : Prop where
  numbers : List.Forall₂ (fun u v => Arithmetic.same u v = true)
    (literals (as.flatMap o.operands)) (literals (bs.flatMap o.operands))
  others : ((nonLiterals (as.flatMap o.operands)).map kind).Perm
    ((nonLiterals (bs.flatMap o.operands)).map kind)

theorem map_kind_folded (h : Arithmetic.same (o.total us) (o.total vs) = true) (alone : Bool) :
    (o.folded us alone).map kind = (o.folded vs alone).map kind := by
  have hnum : [num (o.total us)].map kind = [num (o.total vs)].map kind :=
    congrArg (fun k => [k]) (kind_num.2 h)
  cases o with
  | plus =>
    simp only [Operator.folded, Arithmetic.isZero_congr h]
    split
    · rfl
    · exact hnum
  | times =>
    simp only [Operator.folded, Arithmetic.isOne_congr h]
    split
    · rfl
    · exact hnum

theorem perm_kind_terms (htotal : Arithmetic.same (o.total (literals (as.flatMap o.operands)))
      (o.total (literals (bs.flatMap o.operands))) = true)
    (h : ((nonLiterals (as.flatMap o.operands)).map kind).Perm
      ((nonLiterals (bs.flatMap o.operands)).map kind)) :
    ((o.terms as).map kind).Perm ((o.terms bs).map kind) := by
  have hempty : (nonLiterals (as.flatMap o.operands)).isEmpty =
      (nonLiterals (bs.flatMap o.operands)).isEmpty := by
    have hlength : (nonLiterals (as.flatMap o.operands)).length =
        (nonLiterals (bs.flatMap o.operands)).length := by simpa using h.length_eq
    rw [Bool.eq_iff_iff, List.isEmpty_iff_length_eq_zero, List.isEmpty_iff_length_eq_zero, hlength]
  rw [o.terms_eq, o.terms_eq, hempty, List.map_append, List.map_append, map_kind_folded htotal]
  exact h.append_right _

theorem kind_node_sort (h : (as.map kind).Perm (bs.map kind)) :
    (o.node (sort as)).kind = (o.node (sort bs)).kind := by
  cases o
  · exact kind_add.2 (map_kind_sort h)
  · exact kind_mul.2 (map_kind_sort h)

theorem kind_build (hv : o.Vanishes as ↔ o.Vanishes bs)
    (h : ((o.terms as).map kind).Perm ((o.terms bs).map kind)) :
    (o.build as).kind = (o.build bs).kind := by
  have hlength : (o.terms as).length = (o.terms bs).length := by simpa using h.length_eq
  rcases o.build_cases as with ⟨hva, ha⟩ | ⟨hva, hta⟩
  · rw [ha, build_vanishing (hv.1 hva)]
  · have htb := ((o.build_cases bs).resolve_left fun h => hva (hv.2 h.1)).2
    -- there are equally many terms, so that one case applies to both
    rcases hta with ⟨hta, ha⟩ | hta | ⟨hta, ha⟩
    · rw [hta, List.length_nil] at hlength
      rcases htb with ⟨-, hb⟩ | htb | ⟨htb, -⟩
      · rw [ha, hb]
      · rw [htb] at hlength
        cases hlength
      · omega
    · rw [hta] at h hlength
      rcases htb with ⟨htb, -⟩ | htb | ⟨htb, -⟩
      · rw [htb] at hlength
        cases hlength
      · rw [htb] at h
        exact List.singleton_perm_singleton.1 h
      · rw [List.length_singleton] at hlength
        omega
    · rcases htb with ⟨htb, -⟩ | htb | ⟨-, hb⟩
      · rw [htb, List.length_nil] at hlength
        omega
      · rw [htb, List.length_singleton] at hlength
        omega
      · rw [ha, hb]
        exact kind_node_sort h

end Operator

section Binary64

variable {o : Operator} {us vs : List Binary64} {as bs : List (Expr Binary64)}

theorem same_total (h : List.Forall₂ (fun u v => Arithmetic.same u v = true) us vs) :
    Arithmetic.same (o.total us) (o.total vs) = true := by
  have hcombine : ∀ u v u' v' : Binary64, Arithmetic.same u u' = true →
      Arithmetic.same v v' = true →
        Arithmetic.same (o.combine u v) (o.combine u' v') = true := by
    intro u v u' v' hu hv
    cases o
    · exact Binary64.same_add hu hv
    · exact Binary64.same_mul hu hv
  have hloop : ∀ c d, Arithmetic.same c d = true →
      Arithmetic.same (us.foldl o.combine c) (vs.foldl o.combine d) = true := by
    induction h with
    | nil => exact fun c d hcd => hcd
    | cons huv _ ih => exact fun c d hcd => ih _ _ (hcombine c _ d _ hcd huv)
  exact hloop _ _ (Binary64.same_iff.2 rfl)

theorem SameOperands.build (h : SameOperands o as bs) : (o.build as == o.build bs) = true := by
  have htotal := same_total (o := o) h.numbers
  have hvanishes : o.Vanishes as ↔ o.Vanishes bs := by
    rw [Operator.Vanishes, Operator.Vanishes, Arithmetic.isZero_congr htotal]
  exact kind_eq.1 (kind_build hvanishes (perm_kind_terms htotal h.others))

end Binary64

/-- Expressions over binary64 numbers are totally ordered. Tables find the same for equal keys, of
equal expressions one is left in a list without repetitions, and equal operands make equal sums
and products in whatever order they come. -/
theorem comparison_well_defined :
    TotalOrder (Expr.cmp : Expr Binary64 → Expr Binary64 → Ordering) ∧
    Binary64.LiteralOrder (fun x y => (num x).cmp (num y)) ∧
    (∀ (s : Substitution Binary64) (a b : Expr Binary64), (a == b) = true → s.get? a = s.get? b) ∧
    (∀ (s : Substitution Binary64) (a b e : Expr Binary64),
      (s.insert a e).get? b = if a == b then some e else s.get? b) ∧
    (∀ es : List (Expr Binary64), es.eraseDups.Sublist es ∧ ∀ e ∈ es, es.eraseDups.count e = 1) ∧
    (∀ es : List (Expr Binary64), (sort es).Perm es ∧ (sort es).Pairwise fun a b => a.le b = true) ∧
    (∀ as bs : List (Expr Binary64), (as.Pairwise fun a b => a.le b = true) →
      (bs.Pairwise fun a b => a.le b = true) → (as.map kind).Perm (bs.map kind) →
      List.Forall₂ (fun a b => (a == b) = true) as bs) ∧
    ∀ (o : Operator) (as bs : List (Expr Binary64)), SameOperands o as bs →
      (o.build as == o.build bs) = true := by
  refine ⟨totalOrder_cmp, Binary64.literalOrder_literalCmp, ?_, ?_, ?_, ?_, ?_, ?_⟩
  · exact fun s a b => s.get?_congr
  · exact fun s a b e => s.get?_insert a b e
  · exact fun es => ⟨sublist_eraseDups es, fun e => count_eraseDups es⟩
  · exact fun es => ⟨sort_perm es, sort_pairwise es⟩
  · exact fun as bs ha hb h => map_kind_eq.1 (map_kind_of_perm ha hb h)
  · exact fun o as bs => SameOperands.build

theorem comparison_well_defined_zeros :
    (sum [num Binary64.nan, call .sin [num Binary64.zero], sym "x"] ==
      sum [sym "x", num Binary64.nan, call .sin [num Binary64.negativeZero]]) = true := by
  have hsin : (call .sin [num Binary64.zero]).kind = (call .sin [num Binary64.negativeZero]).kind :=
    kind_call.2 ⟨rfl, congrArg (fun k => [k]) (kind_num.2 rfl)⟩
  refine comparison_well_defined.2.2.2.2.2.2.2 .plus _ _ ⟨?_, ?_⟩
  · exact .cons (Binary64.same_iff.2 rfl) .nil
  · show [(call .sin [num Binary64.zero]).kind, (sym "x").kind].Perm
      [(sym "x").kind, (call .sin [num Binary64.negativeZero]).kind]
    rw [hsin]
    exact .swap _ _ []

end Expr

end Stencil
