import Mathlib
import Stencil.Arithmetic
import Stencil.Proofs.Exact

namespace Stencil

instance : Arithmetic ℚ where
  ofInt n := n
  add := (· + ·)
  mul := (· * ·)
  neg := (- ·)
  inv := (·⁻¹)
  abs := abs
  pow a b := if b.den = 1 then a ^ b.num else a
  pi := 355 / 113
  apply _ a := a
  eq a b := a == b
  isNegative a := a < 0
  integer? a := if a.den = 1 ∧ saturate a.num = a.num then some a.num else none
  same a b := a == b
  cmp := compare
  text a := toString a

instance : Exact ℚ where
  ofInt_eq _ := rfl
  add_eq _ _ := rfl
  mul_eq _ _ := rfl
  inv_eq _ := rfl
  pow_eq a n := if_pos (Rat.den_intCast n)
  eq_iff _ _ := beq_iff_eq
  same_iff _ _ := beq_iff_eq
  transCmp := inferInstanceAs (Std.TransCmp (compare : ℚ → ℚ → Ordering))
  cmp_eq_iff _ _ := compare_eq_iff_eq
  integer_eq a n h := by
    simp only [Arithmetic.integer?, Option.ite_none_right_eq_some, Option.some.injEq] at h
    rw [← h.2]
    exact ((Rat.den_eq_one_iff a).1 h.1.1).symm
  sign_mul_abs a := by
    rcases lt_or_ge a 0 with ha | ha
    · simp [Arithmetic.isNegative, Arithmetic.abs, ha, abs_of_neg]
    · simp [Arithmetic.isNegative, Arithmetic.abs, ha.not_gt, abs_of_nonneg ha]

def strokes (n : Nat) : String := String.ofList (List.replicate (n + 1) 'r')

theorem strokes_injective : Function.Injective strokes := fun m n h => by
  have hlist := congrArg List.length (String.ofList_injective h)
  simpa using hlist

theorem ne_strokes {s : String} (h : s.toList.head? ≠ some 'r') (n : Nat) : s ≠ strokes n := by
  rintro rfl
  exact h (by simp [strokes, List.replicate_succ])

end Stencil
