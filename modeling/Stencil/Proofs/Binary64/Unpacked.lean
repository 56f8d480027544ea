import Mathlib
import Stencil.Binary64.Basic

namespace Stencil.Binary64

open Float.Model Float.Model.UnpackedFloat

def unpacked (x : Binary64) : UnpackedFloat := UnpackedFloat.unpack Format.binary64 x.bits.toBitVec

section Packing

theorem ofBitVec_unpackSign (s : Sign) (e : BitVec 11) (m : BitVec 52) :
    Sign.ofBitVec (unpackSign (packComponents .binary64 s e m)) = s := by
  simp only [unpackSign, packComponents, BitVec.extractLsb]
  rw [BitVec.extractLsb'_append_eq_of_le (by omega), BitVec.extractLsb'_append_eq_of_le (by omega)]
  cases s <;> rfl

theorem toNat_one_append (v : BitVec 52) : (1#1 ++ v).toNat = 2 ^ 52 + v.toNat := by
  rw [BitVec.toNat_append, ← Nat.shiftLeft_add_eq_or_of_lt v.isLt]
  simp [Nat.shiftLeft_eq]

theorem log2_of_normal {m : Nat} (hlo : 2 ^ 52 ≤ m) (hhi : m < 2 ^ 53) : m.log2 = 52 := by
  have hle := (Nat.le_log2 (by omega)).2 hlo
  have hlt := (Nat.log2_lt (by omega)).2 hhi
  omega

theorem exists_components (x : Binary64) :
    ∃ s e m, x.bits.toBitVec = packComponents .binary64 s e m := by
  refine ⟨Sign.ofBitVec (@unpackSign .binary64 x.bits.toBitVec),
    @unpackExponent .binary64 x.bits.toBitVec,
    @unpackMantissa .binary64 x.bits.toBitVec, ?_⟩
  have hsign : ∀ v : BitVec 1, (Sign.ofBitVec v).toBitVec = v := by decide
  simp only [packComponents, hsign, unpackSign, unpackExponent, unpackMantissa, BitVec.extractLsb]
  ext i hi
  grind

inductive Packed : UnpackedFloat → BitVec 64 → Prop
  | notANumber (b : BitVec 64) : Packed .notANumber b
  | infinity (s : Sign) : Packed (.infinity s) (packedInfinity .binary64 s)
  | zero (s : Sign) : Packed (.zero s) (packedZero .binary64 s)
  | subnormal (s : Sign) {m : BitVec 52} (h : 0 < m.toNat) :
      Packed (.finite s m.toNat (-1074) h) (packComponents .binary64 s 0#11 m)
  | normal (s : Sign) {e : BitVec 11} {m : BitVec 52} (h : 0 < 2 ^ 52 + m.toNat) (h0 : 0 < e.toNat)
      (h1 : e.toNat < 2047) :
      Packed (.finite s (2 ^ 52 + m.toNat) (e.toNat - 1075) h) (packComponents .binary64 s e m)

theorem packed_unpacked (x : Binary64) : Packed x.unpacked x.bits.toBitVec := by
  obtain ⟨s, e, m, hx⟩ := exists_components x
  rw [unpacked, hx, UnpackedFloat.unpack]
  simp only [unpackMantissa_packComponents, unpackExponent_packComponents, ofBitVec_unpackSign]
  split
  · rename_i he
    split
    · rename_i hm
      rw [he, hm]
      exact .infinity s
    · exact .notANumber _
  · rename_i hall
    split
    · rename_i he
      split
      · rename_i hm
        rw [he, hm]
        exact .zero s
      · rw [he]
        exact .subnormal s _
    · rename_i he
      have hpos : 0 < e.toNat := by
        rwa [BitVec.toNat_pos, BitVec.pos_iff_ne_zero]
      have hlt : e.toNat < 2047 := by
        have hne : e.toNat ≠ 2047 := fun h => hall (BitVec.eq_of_toNat_eq h)
        have hmax : e.toNat < 2048 := e.isLt
        omega
      simp only [toNat_one_append]
      exact .normal s _ hpos hlt

theorem Packed.pack {u : UnpackedFloat} {b : BitVec 64} (h : Packed u b) (hu : u ≠ .notANumber) :
    UnpackedFloat.pack .binary64 u = b := by
  have hbias : ((Format.binary64.exponentBias : Nat) : Int) = 1023 := rfl
  have hbits : Format.binary64.mantissaBits = 53 := rfl
  cases h with
  | notANumber => exact absurd rfl hu
  | infinity | zero => rfl
  | @subnormal s m h =>
    have hlog : m.toNat.log2 < 52 := (Nat.log2_lt (Nat.ne_of_gt h)).2 m.isLt
    have hbiased : (-1074 + (Format.binary64.exponentBias : Int) +
        (Format.binary64.mantissaBitsWithoutImplicit : Nat)).toNat = 1 := rfl
    simp only [UnpackedFloat.pack, hbiased, hbits]
    rw [if_neg (by decide), if_neg (by omega), BitVec.ofNat_toNat, BitVec.setWidth_eq]
  | @normal s e m h h0 h1 =>
    have hlog : (2 ^ 52 + m.toNat).log2 = 52 := log2_of_normal (by omega) (by omega)
    have hbiased : ((e.toNat : Int) - 1075 + (Format.binary64.exponentBias : Int) +
        (Format.binary64.mantissaBitsWithoutImplicit : Nat)).toNat = e.toNat := by
      rw [hbias]
      show ((e.toNat : Int) - 1075 + 1023 + (52 : Nat)).toNat = e.toNat
      omega
    have hmantissa : BitVec.ofNat 52 (2 ^ 52 + m.toNat) = m := by
      refine BitVec.eq_of_toNat_eq ?_
      rw [BitVec.toNat_ofNat, Nat.add_mod_left, Nat.mod_eq_of_lt m.isLt]
    simp only [UnpackedFloat.pack, hbiased, hbits, hlog, hmantissa]
    rw [if_neg (by omega), if_pos trivial, BitVec.ofNat_toNat, BitVec.setWidth_eq]

theorem ofFloat_pack {x : Binary64} (h : x.unpacked ≠ .notANumber) :
    ofFloat (.ofModel (.pack x.unpacked)) = x := by
  show (⟨UInt64.ofBitVec (UnpackedFloat.pack .binary64 x.unpacked)⟩ : Binary64) = x
  rw [x.packed_unpacked.pack h]

theorem unpack_toFloat (x : Binary64) : x.toFloat.toModel.unpack = x.unpacked := by
  by_cases h : x.unpacked = .notANumber
  · show UnpackedFloat.unpack .binary64 (UnpackedFloat.pack .binary64 x.unpacked) = x.unpacked
    rw [h]
    rfl
  · show UnpackedFloat.unpack .binary64 (UnpackedFloat.pack .binary64 x.unpacked) = x.unpacked
    rw [x.packed_unpacked.pack h]
    rfl

theorem unpacked_injective {x y : Binary64} (h : x.unpacked ≠ .notANumber)
    (hxy : x.unpacked = y.unpacked) : x = y := by
  rw [← ofFloat_pack h, hxy, ofFloat_pack (hxy ▸ h)]

theorem toNat_packComponents (s : Sign) (e : BitVec 11) (m : BitVec 52) :
    (packComponents .binary64 s e m).toNat =
      s.toBitVec.toNat * 2 ^ 63 + (e.toNat * 2 ^ 52 + m.toNat) := by
  have hword : packComponents .binary64 s e m = s.toBitVec ++ e ++ m := rfl
  rw [hword, BitVec.toNat_append, ← Nat.shiftLeft_add_eq_or_of_lt m.isLt, BitVec.toNat_append,
    ← Nat.shiftLeft_add_eq_or_of_lt e.isLt, Nat.shiftLeft_eq, Nat.shiftLeft_eq]
  omega

theorem toNat_abs (x : Binary64) : x.abs.bits.toNat = x.bits.toNat % 2 ^ 63 := by
  rw [abs, UInt64.toNat_and]
  exact Nat.and_two_pow_sub_one_eq_mod _ 63

theorem isNaN_of_unpacked {x : Binary64} (h : x.unpacked = .notANumber) : x.isNaN = true := by
  obtain ⟨s, e, m, hx⟩ := exists_components x
  rw [unpacked, hx, UnpackedFloat.unpack] at h
  simp only [unpackMantissa_packComponents, unpackExponent_packComponents] at h
  have hparts : e = -1#11 ∧ m ≠ 0#52 := by
    split at h
    · rename_i he
      refine ⟨he, fun hm => ?_⟩
      rw [if_pos hm] at h
      cases h
    · split at h
      · split at h <;> cases h
      · cases h
  have hm : 0 < m.toNat := by
    rw [BitVec.toNat_pos, BitVec.pos_iff_ne_zero]
    exact hparts.2
  have habs : x.abs.bits.toNat = 2047 * 2 ^ 52 + m.toNat := by
    have hword : x.bits.toNat = _ := (congrArg BitVec.toNat hx).trans (toNat_packComponents s e m)
    have hlt : m.toNat < 2 ^ 52 := m.isLt
    rw [toNat_abs, hword, hparts.1]
    show (s.toBitVec.toNat * 2 ^ 63 + (2047 * 2 ^ 52 + m.toNat)) % 2 ^ 63 = _
    omega
  rw [isNaN, decide_eq_true_iff, UInt64.lt_iff_toNat_lt, habs]
  show 2047 * 2 ^ 52 < _
  omega

end Packing

section Operations

theorem log2_two_pow_mul {m : Nat} (hm : m ≠ 0) (k : Nat) : (2 ^ k * m).log2 = m.log2 + k := by
  induction k with
  | zero => simp
  | succ k ih =>
    have hpos : 2 ^ k * m ≠ 0 := Nat.mul_ne_zero (Nat.ne_of_gt (Nat.two_pow_pos k)) hm
    rw [Nat.pow_succ', Nat.mul_assoc, Nat.log2_two_mul hpos, ih]
    rfl

theorem repeat_shiftRightOne (m k : Nat) :
    Nat.repeat ExtendedMantissa.shiftRightOne k ⟨2 ^ k * m, false, false⟩ =
      ⟨m, false, false⟩ := by
  induction k generalizing m with
  | zero => simp [Nat.repeat]
  | succ k ih =>
    rw [Nat.repeat, Nat.pow_succ, Nat.mul_assoc, ih]
    simp [ExtendedMantissa.shiftRightOne]

def Fitting (m : Nat) (e : Int) : Prop :=
  Format.binary64.targetExponent (totalExponent m e) = e

theorem shiftToTargetExponent_of_fitting {m : Nat} {e : Int} (hm : m ≠ 0) (h : Fitting m e)
    (k : Nat) : shiftToTargetExponent .binary64 (2 ^ k * m) (e - k) .exact =
      (⟨m, false, false⟩, e) := by
  have htotal : totalExponent (2 ^ k * m) (e - k) = totalExponent m e := by
    rw [totalExponent, totalExponent, log2_two_pow_mul hm]
    omega
  have hshift : (e - (e - k)).toNat = k := by omega
  rw [shiftToTargetExponent, htotal, h, shiftToExponent]
  simp only [hshift]
  exact Prod.ext (repeat_shiftRightOne m k) (by omega)

theorem roundWithAccuracy_of_fitting {m : Nat} {e : Int} (hm : 0 < m) (h : Fitting m e) (s : Sign)
    (k : Nat) : roundWithAccuracy .binary64 s (2 ^ k * m) (e - k) .exact = .finite s m e hm := by
  have hne : m ≠ 0 := Nat.ne_of_gt hm
  have hfirst := shiftToTargetExponent_of_fitting hne h k
  have hsecond := shiftToTargetExponent_of_fitting hne h 0
  rw [Nat.pow_zero, Nat.one_mul, show e - ((0 : Nat) : Int) = e from Int.sub_zero e] at hsecond
  simp only [roundWithAccuracy, hfirst]
  have hrounded : (⟨m, false, false⟩ : ExtendedMantissa).roundedMantissa = m := rfl
  simp only [hrounded, hsecond]
  rw [dif_neg hne]

theorem targetExponent_eq (t : Int) : Format.binary64.targetExponent t = max (t - 53) (-1074) := rfl

theorem fitting_subnormal {m : Nat} (hm : m ≠ 0) (h : m < 2 ^ 52) : Fitting m (-1074) := by
  have hlog : m.log2 < 52 := (Nat.log2_lt hm).2 h
  rw [Fitting, targetExponent_eq, totalExponent]
  omega

theorem fitting_normal {m : Nat} {e : Int} (hlo : 2 ^ 52 ≤ m) (hhi : m < 2 ^ 53)
    (he : -1074 ≤ e) : Fitting m e := by
  rw [Fitting, targetExponent_eq, totalExponent, log2_of_normal hlo hhi]
  omega

def unpackedOne : UnpackedFloat := .finite .positive (2 ^ 52) (-52) (by decide)

theorem one_mul_unpacked {u : UnpackedFloat} {b : BitVec 64} (h : Packed u b) :
    UnpackedFloat.mul .binary64 unpackedOne u = u := by
  have hsign : ∀ s : Sign, Sign.positive * s = s := fun s => by cases s <;> rfl
  have hround : ∀ {s m e} (hm : 0 < m), Fitting m e →
      UnpackedFloat.mul .binary64 unpackedOne (.finite s m e hm) = .finite s m e hm :=
    fun {s m e} hm hfit => by
      rw [unpackedOne, UnpackedFloat.mul, hsign, ← roundWithAccuracy_of_fitting hm hfit s 52]
      congr 1
      omega
  cases h with
  | notANumber => rfl
  | infinity s => exact congrArg UnpackedFloat.infinity (hsign s)
  | zero s => exact congrArg UnpackedFloat.zero (hsign s)
  | subnormal s h => exact hround h (fitting_subnormal (Nat.ne_of_gt h) (BitVec.isLt _))
  | normal s h h0 h1 => exact hround h (fitting_normal (by omega) (by omega) (by omega))

theorem zero_add_unpacked {u : UnpackedFloat} (h : ∀ s, u ≠ .zero s) :
    UnpackedFloat.add .binary64 (.zero .positive) u = u := by
  cases u with
  | zero s => exact absurd rfl (h s)
  | _ => rfl

variable {x y : Binary64}

theorem binary_eq_right {f : Float → Float → Float}
    {g : UnpackedFloat → UnpackedFloat → UnpackedFloat}
    (hf : ∀ a b, f a b = .ofModel (.pack (g a.toModel.unpack b.toModel.unpack)))
    (hx : x.isNaN = false) (h : g x.unpacked y.unpacked = y.unpacked) : binary f x y = y := by
  have hr : f x.toFloat y.toFloat = y.toFloat := by
    rw [hf, unpack_toFloat, unpack_toFloat, h]
    rfl
  have hnan : y.toFloat.isNaN = y.unpacked.isNaN :=
    congrArg UnpackedFloat.isNaN (unpack_toFloat y)
  simp only [binary, hr, hnan, hx]
  -- NaN is not packed with its payload, but it is handed through as it is
  by_cases hy : y.unpacked = .notANumber
  · simp [hy, isNaN_of_unpacked hy, UnpackedFloat.isNaN]
  · have hnot : y.unpacked.isNaN = false := by
      cases hu : y.unpacked <;> first | rfl | exact absurd hu hy
    rw [hnot]
    exact ofFloat_pack hy

end Operations

end Stencil.Binary64
