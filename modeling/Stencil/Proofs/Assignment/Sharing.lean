import Stencil.Assignment.Sharing
import Stencil.Proofs.Expr.Renaming

namespace Stencil.Sharing

open Stencil.Expr

variable {α : Type}

def parts (a : Assignment α) : List (Expr α) :=
  if a.lhs.isSymbol then a.rhs.inner else a.rhs.subterms

theorem mem_subterms_of_parts {a : Assignment α} {e : Expr α} (h : e ∈ parts a) :
    e ∈ a.rhs.subterms := by
  unfold parts at h
  split at h
  · rw [subterms_eq_inner]
    exact List.mem_cons_of_mem _ h
  · exact h

theorem sharable_eq (a : Assignment α) : sharable a = (parts a).filter Expr.isOperation := by
  unfold sharable parts
  split
  · rw [inner_eq_drop]
  · rfl

variable [Arithmetic α]

def occurrences (as : List (Assignment α)) (e : Expr α) : Nat := (as.flatMap parts).count e

section Occurrences

variable [LawfulLiterals α]

omit [LawfulLiterals α] in
theorem count_operations {s : State α} {e : Expr α} (he : e.isOperation = true) :
    s.operations.count e = occurrences (s.defs ++ s.assignments) e := by
  have hfilter : s.operations =
      ((s.defs ++ s.assignments).flatMap parts).filter Expr.isOperation := by
    rw [State.operations, List.filter_flatMap]
    exact List.flatMap_congr fun a _ => sharable_eq a
  rw [hfilter, List.count, List.countP_filter, occurrences, List.count]
  refine List.countP_congr fun x _ => ?_
  rw [Bool.and_eq_true, and_iff_left_of_imp fun h => (isOperation_congr h).trans he]

omit [LawfulLiterals α] in
theorem occurrences_append (as bs : List (Assignment α)) (e : Expr α) :
    occurrences (as ++ bs) e = occurrences as e + occurrences bs e := by
  rw [occurrences, List.flatMap_append, List.count_append]
  rfl

theorem occurrences_mul_le (as : List (Assignment α)) (c k : Expr α) :
    occurrences as k * k.inner.count c ≤ occurrences as c := by
  induction as with
  | nil => simp [occurrences]
  | cons a as ih =>
    have ha : (parts a).count k * k.inner.count c ≤ (parts a).count c := by
      unfold parts
      split
      · exact count_inner_mul_le c k a.rhs
      · exact count_subterms_mul_le c k a.rhs
    unfold occurrences at ih ⊢
    rw [List.flatMap_cons, List.count_append, List.count_append, Nat.add_mul]
    omega

theorem occurrences_congr (as : List (Assignment α)) {e e' : Expr α} (h : (e == e') = true) :
    occurrences as e = occurrences as e' :=
  List.countP_congr fun x _ => by rw [BEq.congr_right h]

omit [LawfulLiterals α] in
theorem occurrences_perm {as bs : List (Assignment α)} (h : as.Perm bs) (e : Expr α) :
    occurrences as e = occurrences bs e := (h.flatMap_right parts).countP_eq _

end Occurrences

def Read (as : List (Assignment α)) (t : String) : Prop := ∃ a ∈ as, sym t ∈ a.rhs.inputs

end Stencil.Sharing
