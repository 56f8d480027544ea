import Stencil.Proofs.Exact

namespace Stencil

/-- Neutral elements are neutral, and literals that are the same have the same special values. The
two zeros of binary64 are the same literal and different numbers, so that it would be too much to
ask for operations that respect it. -/
class LawfulArithmetic (α : Type) [Arithmetic α] : Prop extends LawfulLiterals α where
  zero_add : ∀ a : α, Arithmetic.isZero a = false → Arithmetic.add Arithmetic.zero a = a
  one_mul : ∀ a : α, Arithmetic.mul Arithmetic.one a = a
  isZero_zero : Arithmetic.isZero (Arithmetic.zero : α) = true
  isZero_one : Arithmetic.isZero (Arithmetic.one : α) = false
  isOne_one : Arithmetic.isOne (Arithmetic.one : α) = true
  eq_congr : ∀ a b c : α, Arithmetic.same a b = true → Arithmetic.eq a c = Arithmetic.eq b c
  integer_congr : ∀ a b : α, Arithmetic.same a b = true →
    Arithmetic.integer? a = Arithmetic.integer? b
  same_of_isMinusOne : ∀ a b : α, Arithmetic.isMinusOne a = true →
    Arithmetic.isMinusOne b = true → Arithmetic.same a b = true

instance {α : Type} [AlgebraicField α] [Arithmetic α] [Exact α] : LawfulArithmetic α where
  zero_add a _ := by rw [Exact.add_eq, Arithmetic.zero_eq, zero_add]
  one_mul a := by rw [Exact.mul_eq, Arithmetic.one_eq, one_mul]
  isZero_zero := by rw [Arithmetic.isZero_iff, Arithmetic.zero_eq]
  isZero_one := by
    rw [Bool.eq_false_iff, ne_eq, Arithmetic.isZero_iff, Arithmetic.one_eq]
    exact one_ne_zero
  isOne_one := by rw [Arithmetic.isOne_iff, Arithmetic.one_eq]
  eq_congr a b c h := by rw [(Exact.same_iff a b).1 h]
  integer_congr a b h := by rw [(Exact.same_iff a b).1 h]
  same_of_isMinusOne a b ha hb := by
    rw [Arithmetic.isMinusOne_iff] at ha hb
    rw [Exact.same_iff, ha, hb]

namespace Arithmetic

variable {α : Type} [Arithmetic α] [LawfulArithmetic α] {a b : α}

theorem isZero_congr (h : same a b = true) : isZero a = isZero b :=
  LawfulArithmetic.eq_congr a b zero h

theorem isOne_congr (h : same a b = true) : isOne a = isOne b :=
  LawfulArithmetic.eq_congr a b one h

theorem isMinusOne_congr (h : same a b = true) : isMinusOne a = isMinusOne b :=
  LawfulArithmetic.eq_congr a b _ h

theorem sum_singleton (h : isZero a = false) : sum [a] = a := LawfulArithmetic.zero_add a h

theorem product_singleton (a : α) : product [a] = a := LawfulArithmetic.one_mul a

end Arithmetic

end Stencil
