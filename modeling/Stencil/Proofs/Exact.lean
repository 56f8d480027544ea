import Mathlib.Algebra.Field.Basic
import Mathlib.Algebra.BigOperators.Group.List.Basic
import Stencil.Proofs.Expr.Comparison

/-- A field in the sense of algebra, beside the arrays that go by the name of fields. -/
abbrev AlgebraicField (α : Type) := Field α

namespace Stencil

/-- An arithmetic without rounding: the operations are those of a field, and powers with integral
exponents are repeated products. Intrinsics are any functions. -/
class Exact (α : Type) [AlgebraicField α] [Arithmetic α] : Prop where
  ofInt_eq : ∀ n : Int, (Arithmetic.ofInt n : α) = n
  add_eq : ∀ a b : α, Arithmetic.add a b = a + b
  mul_eq : ∀ a b : α, Arithmetic.mul a b = a * b
  inv_eq : ∀ a : α, Arithmetic.inv a = a⁻¹
  pow_eq : ∀ (a : α) (n : Int), Arithmetic.pow a n = a ^ n
  eq_iff : ∀ a b : α, Arithmetic.eq a b = true ↔ a = b
  same_iff : ∀ a b : α, Arithmetic.same a b = true ↔ a = b
  transCmp : Std.TransCmp (Arithmetic.cmp : α → α → Ordering)
  cmp_eq_iff : ∀ a b : α, Arithmetic.cmp a b = .eq ↔ a = b
  integer_eq : ∀ (a : α) (n : Int), Arithmetic.integer? a = some n → a = n
  sign_mul_abs : ∀ a : α, (if Arithmetic.isNegative a then -1 else 1) * Arithmetic.abs a = a

namespace Arithmetic

variable {α : Type} [AlgebraicField α] [Arithmetic α] [Exact α]

theorem zero_eq : (zero : α) = 0 := by
  rw [zero, Exact.ofInt_eq, Int.cast_zero]

theorem one_eq : (one : α) = 1 := by
  rw [one, Exact.ofInt_eq, Int.cast_one]

theorem isZero_iff (a : α) : isZero a = true ↔ a = 0 := by
  rw [isZero, Exact.eq_iff, zero_eq]

theorem isOne_iff (a : α) : isOne a = true ↔ a = 1 := by
  rw [isOne, Exact.eq_iff, one_eq]

theorem isMinusOne_iff (a : α) : isMinusOne a = true ↔ a = -1 := by
  rw [isMinusOne, Exact.eq_iff, Exact.ofInt_eq, Int.cast_neg, Int.cast_one]

theorem foldl_add (xs : List α) (a : α) : xs.foldl add a = a + xs.sum := by
  induction xs generalizing a with
  | nil => simp
  | cons x xs ih => rw [List.foldl_cons, ih, Exact.add_eq, List.sum_cons, add_assoc]

theorem foldl_mul (xs : List α) (a : α) : xs.foldl mul a = a * xs.prod := by
  induction xs generalizing a with
  | nil => simp
  | cons x xs ih => rw [List.foldl_cons, ih, Exact.mul_eq, List.prod_cons, mul_assoc]

theorem sum_eq (xs : List α) : sum xs = xs.sum := by
  rw [sum, foldl_add, zero_eq, zero_add]

theorem product_eq (xs : List α) : product xs = xs.prod := by
  rw [product, foldl_mul, one_eq, one_mul]

theorem squareMul_eq {k n : Nat} (h : n ≤ k) (acc b : α) : squareMul k acc b n = acc * b ^ n := by
  induction k generalizing n acc b with
  | zero =>
    obtain rfl : n = 0 := by omega
    simp [squareMul]
  | succ k ih =>
    have hsplit : b ^ n = b ^ (n % 2) * (b * b) ^ (n / 2) := by
      rw [← pow_two, ← pow_mul, ← pow_add, Nat.mod_add_div]
    have hacc : (if n % 2 = 1 then mul acc b else acc) = acc * b ^ (n % 2) := by
      rcases Nat.mod_two_eq_zero_or_one n with hn | hn
      · simp [hn]
      · simp [hn, Exact.mul_eq]
    rw [squareMul, hacc, hsplit]
    split
    · rename_i hhalf
      rw [hhalf, pow_zero, mul_one]
    · rw [ih (by omega), Exact.mul_eq, mul_assoc]

theorem powInt_eq (b : α) (n : Int) : powInt b n = b ^ n := by
  rw [powInt, squareMul_eq le_rfl, one_eq, one_mul]
  split
  · rename_i hn
    obtain ⟨m, rfl⟩ : ∃ m : Nat, n = -m := ⟨n.natAbs, by omega⟩
    rw [Exact.inv_eq, Int.natAbs_neg, Int.natAbs_natCast, zpow_neg, zpow_natCast]
  · rename_i hn
    obtain ⟨m, rfl⟩ : ∃ m : Nat, n = m := ⟨n.natAbs, by omega⟩
    rw [Int.natAbs_natCast, zpow_natCast]

end Arithmetic

section

variable {α : Type} [AlgebraicField α] [Arithmetic α] [Exact α]

instance : LawfulLiterals α where
  transCmp := Exact.transCmp
  cmp_eq_iff a b := (Exact.cmp_eq_iff a b).trans (Exact.same_iff a b).symm

namespace Expr

omit [AlgebraicField α] [Exact α] in
theorem eq_of_forall₂_beq {as bs : List (Expr α)}
    (ih : ∀ a ∈ as, ∀ b, (a == b) = true → a = b)
    (h : List.Forall₂ (fun a b => (a == b) = true) as bs) : as = bs := by
  induction h with
  | nil => rfl
  | cons hab _ iht =>
    rw [ih _ List.mem_cons_self _ hab, iht fun a ha => ih a (List.mem_cons_of_mem _ ha)]

theorem eq_of_beq_exact (a b : Expr α) (h : (a == b) = true) : a = b := by
  induction a using induct generalizing b with
  | num u =>
    cases b with
    | num v => rw [(Exact.same_iff u v).1 h]
    | _ => exact absurd (rank_eq_of_beq h) (by simp [rank])
  | sym s =>
    cases b with
    | sym t => rw [beq_iff_eq.1 (show (s == t) = true from h)]
    | _ => exact absurd (rank_eq_of_beq h) (by simp [rank])
  | access x =>
    cases b with
    | access y => rw [beq_iff_eq.1 (show (x == y) = true from h)]
    | _ => exact absurd (rank_eq_of_beq h) (by simp [rank])
  | add as ih =>
    cases b with
    | add bs => rw [eq_of_forall₂_beq ih (beqAll_iff.1 h)]
    | _ => exact absurd (rank_eq_of_beq h) (by simp [rank])
  | mul as ih =>
    cases b with
    | mul bs => rw [eq_of_forall₂_beq ih (beqAll_iff.1 h)]
    | _ => exact absurd (rank_eq_of_beq h) (by simp [rank])
  | pow x y hx hy =>
    cases b with
    | pow x' y' =>
      obtain ⟨h₁, h₂⟩ := Bool.and_eq_true_iff.1 (show (x.beq x' && y.beq y') = true from h)
      rw [hx x' h₁, hy y' h₂]
    | _ => exact absurd (rank_eq_of_beq h) (by simp [rank])
  | call f as ih =>
    cases b with
    | call g bs =>
      obtain ⟨h₁, h₂⟩ := Bool.and_eq_true_iff.1 (show (f == g && beqAll as bs) = true from h)
      rw [beq_iff_eq.1 h₁, eq_of_forall₂_beq ih (beqAll_iff.1 h₂)]
    | _ => exact absurd (rank_eq_of_beq h) (by simp [rank])

theorem beq_self_exact (a : Expr α) : (a == a) = true :=
  (cmp_eq_iff a a).1 (Std.ReflCmp.compare_self)

instance : LawfulBEq (Expr α) where
  eq_of_beq := eq_of_beq_exact _ _
  rfl := beq_self_exact _

theorem le_antisymm {a b : Expr α} (hab : a.le b = true) (hba : b.le a = true) : a = b := by
  refine eq_of_beq_exact a b ((cmp_eq_iff a b).1 ?_)
  rw [le, cmp_swap a b] at hba
  rw [le] at hab
  cases h : a.cmp b <;> simp_all

theorem sort_eq_of_perm {as bs : List (Expr α)} (h : as.Perm bs) : sort as = sort bs :=
  List.Perm.eq_of_pairwise (fun _ _ _ _ => le_antisymm) (sort_pairwise as) (sort_pairwise bs)
    ((sort_perm as).trans (h.trans (sort_perm bs).symm))

end Expr

end

end Stencil
