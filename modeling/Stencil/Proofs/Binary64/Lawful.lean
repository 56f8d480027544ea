import Stencil.Proofs.Binary64.Unpacked
import Stencil.Proofs.Lawful

namespace Stencil.Binary64

open Float.Model Float.Model.UnpackedFloat

variable {x y : Binary64}

theorem equals_eq (x y : Binary64) :
    x.equals y = (x.unpacked.compare y.unpacked == some .eq) := by
  show (x.toFloat.toModel.unpack.compare y.toFloat.toModel.unpack == some .eq) = _
  rw [unpack_toFloat, unpack_toFloat]

def representative (x : Binary64) : Binary64 := if x = negativeZero then zero else x

theorem same_iff : same x y = true ↔ x.representative = y.representative := by
  have hidentity : ∀ z : Binary64, z.identity = z.representative.bits := fun z => by
    rw [identity, representative]
    split <;> rfl
  rw [same, beq_iff_eq, hidentity, hidentity]
  exact ⟨fun h => by cases hx : x.representative; cases hy : y.representative; simp_all,
    congrArg bits⟩

theorem rank_injective : Function.Injective rank := by
  intro x y h
  have hx := x.bits.toNat_lt
  have hy := y.bits.toNat_lt
  have hmax : maxInt64 = 2 ^ 63 - 1 := rfl
  have hbits : x.bits.toNat = y.bits.toNat := by
    simp only [rank, hmax] at h
    split at h <;> split at h <;> simp_all <;> omega
  cases x
  cases y
  exact congrArg mk (UInt64.toNat_inj.1 hbits)

theorem rank_representative (x : Binary64) :
    x.representative.rank = if x.rank = -1 then 0 else x.rank := by
  have hzero : x = negativeZero ↔ x.rank = -1 :=
    ⟨fun h => h ▸ rfl, fun h => rank_injective (h.trans rfl)⟩
  rw [representative]
  simp only [← hzero]
  split <;> rfl

theorem literalCmp_eq (x y : Binary64) :
    literalCmp x y = compare x.representative.rank y.representative.rank := by
  by_cases h : same x y = true
  · rw [literalCmp, if_pos h, same_iff.1 h]
    exact Std.ReflCmp.compare_self.symm
  · have hne : x.representative.rank ≠ y.representative.rank :=
      fun heq => h (same_iff.2 (rank_injective heq))
    rw [literalCmp, if_neg h, Binary64.cmp]
    rw [rank_representative, rank_representative] at hne ⊢
    simp only [compare, compareOfLessAndEq]
    split_ifs <;> first | rfl | omega

instance : LawfulLiterals Binary64 where
  transCmp := by
    have hcmp : (Arithmetic.cmp : Binary64 → Binary64 → Ordering) =
        compareOn fun x => x.representative.rank := by
      funext x y
      exact literalCmp_eq x y
    rw [hcmp]
    infer_instance
  cmp_eq_iff x y := by
    show literalCmp x y = .eq ↔ same x y = true
    rw [literalCmp_eq, Std.LawfulEqCmp.compare_eq_iff_eq, same_iff, rank_injective.eq_iff]

theorem congr_of_same {β : Type} {f : Binary64 → β} (hf : f negativeZero = f zero)
    (h : same x y = true) : f x = f y := by
  have hrepresentative : ∀ z : Binary64, f z = f z.representative := fun z => by
    rw [representative]
    split
    · rename_i hz
      rw [hz, hf]
    · rfl
  rw [hrepresentative x, hrepresentative y, same_iff.1 h]

theorem unpacked_of_isMinusOne (h : Arithmetic.isMinusOne x = true) :
    x.unpacked = .finite .negative (2 ^ 52) (-52) (by decide) := by
  have hone : (Arithmetic.ofInt (-1) : Binary64).unpacked =
      .finite .negative (2 ^ 52) (-52) (by decide) := rfl
  have hequal := (equals_eq x _).symm.trans h
  rw [hone] at hequal
  cases hx : x.unpacked with
  | finite s m e hm =>
    rw [hx] at hequal
    cases s with
    | positive => simp [UnpackedFloat.compare] at hequal
    | negative =>
      simp [UnpackedFloat.compare, Ordering.then_eq_eq] at hequal
      simp [hequal]
  | infinity s => cases s <;> simp [hx, UnpackedFloat.compare] at hequal
  | _ => simp [hx, UnpackedFloat.compare] at hequal

instance : LawfulArithmetic Binary64 where
  zero_add a ha := by
    refine binary_eq_right (fun _ _ => rfl) (by decide) (zero_add_unpacked fun s hs => ?_)
    have hequal : a.equals zero = true := by
      rw [equals_eq, hs]
      rfl
    exact absurd ha (Bool.not_eq_false _ ▸ hequal)
  one_mul a :=
    binary_eq_right (fun _ _ => rfl) (by decide +kernel) (one_mul_unpacked a.packed_unpacked)
  isZero_zero := by decide +kernel
  isZero_one := by decide +kernel
  isOne_one := by decide +kernel
  eq_congr a b c h := by
    refine congr_of_same (f := fun x => x.equals c) ?_ h
    simp only [equals_eq]
    show (UnpackedFloat.compare (.zero .negative) c.unpacked == some .eq) =
      (UnpackedFloat.compare (.zero .positive) c.unpacked == some .eq)
    rcases c.unpacked with (_ | _) | _ | (_ | _) | ⟨_ | _, m, e, h⟩ <;> rfl
  integer_congr _ _ := congr_of_same (by decide +kernel)
  same_of_isMinusOne a b ha hb := by
    have hab : a = b := unpacked_injective (by simp [unpacked_of_isMinusOne ha])
      ((unpacked_of_isMinusOne ha).trans (unpacked_of_isMinusOne hb).symm)
    exact same_iff.2 (congrArg representative hab)

section Congruence

def EqualOrZero (u v : UnpackedFloat) : Prop := u = v ∨ ∃ s t, u = .zero s ∧ v = .zero t

variable {f : Float → Float → Float} {g : UnpackedFloat → UnpackedFloat → UnpackedFloat}
  {x' y' : Binary64} (hf : ∀ a b, f a b = .ofModel (.pack (g a.toModel.unpack b.toModel.unpack)))

include hf

theorem identity_binary_of_zero {s : Sign} (h : g x.unpacked y.unpacked = .zero s) :
    (binary f x y).identity = 0 := by
  have hr : f x.toFloat y.toFloat = .ofModel (.pack (.zero s)) := by
    rw [hf, unpack_toFloat, unpack_toFloat, h]
  simp only [binary, hr]
  cases s <;> rfl

theorem identity_binary (hnan : (if x.isNaN then x else if y.isNaN then y else invalid) =
      if x'.isNaN then x' else if y'.isNaN then y' else invalid)
    (h : EqualOrZero (g x.unpacked y.unpacked) (g x'.unpacked y'.unpacked)) :
    (binary f x y).identity = (binary f x' y').identity := by
  rcases h with h | ⟨s, t, hs, ht⟩
  · have hr : f x.toFloat y.toFloat = f x'.toFloat y'.toFloat := by
      rw [hf, hf, unpack_toFloat, unpack_toFloat, unpack_toFloat, unpack_toFloat, h]
    simp only [binary, hr, hnan]
  · rw [identity_binary_of_zero hf hs, identity_binary_of_zero hf ht]

theorem same_binary (hleft : ∀ u, EqualOrZero (g (.zero .negative) u) (g (.zero .positive) u))
    (hright : ∀ u, EqualOrZero (g u (.zero .negative)) (g u (.zero .positive)))
    (hx : same x x' = true) (hy : same y y' = true) :
    same (binary f x y) (binary f x' y') = true := by
  rw [same, beq_iff_eq]
  have hfirst : (binary f x y).identity = (binary f x' y).identity :=
    congr_of_same (f := fun z => (binary f z y).identity)
      (identity_binary hf rfl (hleft y.unpacked)) hx
  have hsecond : (binary f x' y).identity = (binary f x' y').identity :=
    congr_of_same (f := fun z => (binary f x' z).identity)
      (identity_binary hf rfl (hright x'.unpacked)) hy
  exact hfirst.trans hsecond

omit hf

theorem same_add (hx : same x x' = true) (hy : same y y' = true) :
    same (x.add y) (x'.add y') = true := by
  refine same_binary (g := UnpackedFloat.add .binary64) (fun _ _ => rfl) (fun u => ?_) (fun u => ?_)
    hx hy
  · cases u with
    | zero s => cases s <;> exact .inr ⟨_, _, rfl, rfl⟩
    | _ => exact .inl rfl
  · cases u with
    | zero s => cases s <;> exact .inr ⟨_, _, rfl, rfl⟩
    | _ => exact .inl rfl

theorem same_mul (hx : same x x' = true) (hy : same y y' = true) :
    same (x.mul y) (x'.mul y') = true := by
  refine same_binary (g := UnpackedFloat.mul .binary64) (fun _ _ => rfl) (fun u => ?_) (fun u => ?_)
    hx hy
  · cases u with
    | zero | finite => exact .inr ⟨_, _, rfl, rfl⟩
    | _ => exact .inl rfl
  · cases u with
    | zero | finite => exact .inr ⟨_, _, rfl, rfl⟩
    | _ => exact .inl rfl

end Congruence

end Stencil.Binary64
