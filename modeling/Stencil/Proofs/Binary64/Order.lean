import Stencil.Proofs.Binary64.Lawful

namespace Stencil.Binary64

open Float.Model Float.Model.UnpackedFloat

variable {x y : Binary64} {u v : UnpackedFloat} {b : BitVec 64}

def place : UnpackedFloat → Int
  | .infinity s => s.apply (2047 * 2 ^ 52)
  | .finite s m e _ => s.apply ((e + 1074) * 2 ^ 52 + m)
  | _ => 0

def Regular : UnpackedFloat → Prop
  | .finite _ m e _ => -1074 ≤ e ∧ e ≤ 971 ∧ m < 2 ^ 53 ∧ (-1074 < e → 2 ^ 52 ≤ m)
  | _ => True

theorem Packed.regular (h : Packed u b) : Regular u := by
  cases h with
  | notANumber | infinity | zero => trivial
  | @subnormal s m h =>
    have hm : m.toNat < 2 ^ 52 := m.isLt
    exact ⟨le_rfl, by omega, by omega, fun h => absurd h (lt_irrefl _)⟩
  | @normal s e m h h0 h1 =>
    have hm : m.toNat < 2 ^ 52 := m.isLt
    exact ⟨by omega, by omega, by omega, fun _ => by omega⟩

section Compare

variable {s t : Sign} {m n : Nat} {e f : Int} {hm : 0 < m} {hn : 0 < n}

theorem lt_eq_compare {k l : Int} (h : k < l) : some Ordering.lt = some (compare k l) :=
  congrArg some (compare_lt_iff_lt.2 h).symm

theorem gt_eq_compare {k l : Int} (h : l < k) : some Ordering.gt = some (compare k l) :=
  congrArg some (compare_gt_iff_gt.2 h).symm

theorem compare_neg (k l : Int) : compare (-k) (-l) = (compare k l).swap := by
  rw [← Std.OrientedOrd.eq_swap]
  simp only [compare, compareOfLessAndEq]
  split_ifs <;> first | rfl | omega

theorem place_positive (h : Regular (.finite .positive m e hm)) :
    0 < place (.finite .positive m e hm) := by
  obtain ⟨hlo, -⟩ := h
  simp only [place, Sign.apply]
  omega

theorem place_negative (h : Regular (.finite .negative m e hm)) :
    place (.finite .negative m e hm) < 0 := by
  obtain ⟨hlo, -⟩ := h
  simp only [place, Sign.apply]
  omega

theorem place_finite (h : Regular (.finite s m e hm)) :
    place (.infinity .negative) < place (.finite s m e hm) ∧
      place (.finite s m e hm) < place (.infinity .positive) := by
  obtain ⟨hlo, hhi, hsize, -⟩ := h
  cases s <;> simp only [place, Sign.apply] <;> omega

theorem compare_finite (hu : Regular (.finite s m e hm)) (hv : Regular (.finite t n f hn)) :
    (compare e f).then (compare m n) =
      compare (place (.finite .positive m e hm)) (place (.finite .positive n f hn)) := by
  obtain ⟨he, -, hsize, hdigits⟩ := hu
  obtain ⟨hf, -, hsize', hdigits'⟩ := hv
  simp only [place, Sign.apply]
  -- Above the least exponent a mantissa has all its digits, so that the exponent decides.
  rcases lt_trichotomy e f with hef | rfl | hef
  · have hfull := hdigits' (by omega)
    rw [compare_lt_iff_lt.2 hef, Ordering.lt_then, eq_comm, compare_lt_iff_lt]
    omega
  · rw [compare_eq_iff_eq.2 rfl, Ordering.eq_then]
    simp only [compare, compareOfLessAndEq]
    split_ifs <;> first | rfl | omega
  · have hfull := hdigits (by omega)
    rw [compare_gt_iff_gt.2 hef, Ordering.gt_then, eq_comm, compare_gt_iff_gt]
    omega

theorem compare_unpacked (hu : Regular u) (hv : Regular v) (hnu : u ≠ .notANumber)
    (hnv : v ≠ .notANumber) : u.compare v = some (compare (place u) (place v)) := by
  cases u with
  | notANumber => exact absurd rfl hnu
  | infinity s =>
    cases v with
    | notANumber => exact absurd rfl hnv
    | infinity t => cases s <;> cases t <;> rfl
    | zero t => cases s <;> rfl
    | finite t n f hn =>
      cases s with
      | positive => exact gt_eq_compare (place_finite hv).2
      | negative => exact lt_eq_compare (place_finite hv).1
  | zero s =>
    cases v with
    | notANumber => exact absurd rfl hnv
    | infinity t => cases t <;> rfl
    | zero t => rfl
    | finite t n f hn =>
      cases t with
      | positive => exact lt_eq_compare (place_positive hv)
      | negative => exact gt_eq_compare (place_negative hv)
  | finite s m e hm =>
    cases v with
    | notANumber => exact absurd rfl hnv
    | infinity t =>
      cases t with
      | positive => cases s <;> exact lt_eq_compare (place_finite hu).2
      | negative => cases s <;> exact gt_eq_compare (place_finite hu).1
    | zero t =>
      cases s with
      | positive => exact gt_eq_compare (place_positive hu)
      | negative => exact lt_eq_compare (place_negative hu)
    | finite t n f hn =>
      have hfinite := compare_finite hu hv
      cases s with
      | positive =>
        cases t with
        | positive => exact congrArg some hfinite
        | negative => exact gt_eq_compare ((place_negative hv).trans (place_positive hu))
      | negative =>
        cases t with
        | positive => exact lt_eq_compare ((place_negative hu).trans (place_positive hv))
        | negative => exact congrArg some ((congrArg _ hfinite).trans (compare_neg _ _).symm)

end Compare

theorem Packed.toNat_eq (h : Packed u b) (hu : u ≠ .notANumber) :
    b.toNat < 2 ^ 63 ∧ (b.toNat : Int) = place u ∨
      place u ≤ 0 ∧ (b.toNat : Int) = 2 ^ 63 - place u := by
  have hpositive : Sign.positive.toBitVec.toNat = 0 := rfl
  have hnegative : Sign.negative.toBitVec.toNat = 1 := rfl
  cases h with
  | notANumber => exact absurd rfl hu
  | infinity s => cases s <;> decide
  | zero s => cases s <;> decide
  | @subnormal s m h =>
    rw [toNat_packComponents]
    cases s <;> simp only [place, Sign.apply, hpositive, hnegative, BitVec.toNat_zero] <;> omega
  | @normal s e m h h0 h1 =>
    rw [toNat_packComponents]
    cases s <;> simp only [place, Sign.apply, hpositive, hnegative] <;> omega

theorem rank_eq_place (hx : x.isNaN = false) : x.representative.rank =
    if place x.unpacked < 0 then place x.unpacked - 1 else place x.unpacked := by
  have hnot : x.unpacked ≠ .notANumber := fun h => by simp [isNaN_of_unpacked h] at hx
  rcases x.packed_unpacked.toNat_eq hnot with ⟨hlt, hword⟩ | ⟨hle, hword⟩
  · have hrank : x.rank = place x.unpacked := (if_pos hlt).trans hword
    rw [rank_representative, hrank, if_neg (by omega), if_neg (by omega)]
  · have hrank : x.rank = place x.unpacked - 1 := by
      have hge : ¬ x.bits.toNat < 2 ^ 63 := fun h => by
        have hbits : x.bits.toBitVec.toNat = x.bits.toNat := rfl
        omega
      refine (if_neg hge).trans ?_
      show 2 ^ 63 - 1 - (x.bits.toBitVec.toNat : Int) = _
      omega
    rw [rank_representative, hrank]
    split_ifs <;> omega

theorem compare_ranks (hx : x.isNaN = false) (hy : y.isNaN = false) :
    x.unpacked.compare y.unpacked = some (literalCmp x y) := by
  have hnot : ∀ {z : Binary64}, z.isNaN = false → z.unpacked ≠ .notANumber := fun hz h => by
    simp [isNaN_of_unpacked h] at hz
  rw [compare_unpacked x.packed_unpacked.regular y.packed_unpacked.regular (hnot hx) (hnot hy),
    literalCmp_eq, rank_eq_place hx, rank_eq_place hy]
  simp only [compare, compareOfLessAndEq]
  split_ifs <;> first | rfl | omega

theorem less_eq (x y : Binary64) : x.less y = (x.unpacked.compare y.unpacked == some .lt) := by
  have hless : x.less y = decide (decide (x.toFloat.toModel.lt y.toFloat.toModel) = true) := rfl
  rw [hless, Bool.decide_eq_true, Bool.decide_eq_true]
  show (x.toFloat.toModel.unpack.compare y.toFloat.toModel.unpack == some .lt) = _
  rw [unpack_toFloat, unpack_toFloat]

theorem literalCmp_eq_lt (hx : x.isNaN = false) (hy : y.isNaN = false) :
    literalCmp x y = .lt ↔ x.less y = true := by
  rw [less_eq, compare_ranks hx hy]
  simp

theorem literalCmp_nan (hx : x.isNaN = true) :
    literalCmp x y = if x.bits < signBit then
        if y.isNaN ∧ y.bits < signBit then compare x.bits.toNat y.bits.toNat else .gt
      else if y.isNaN ∧ ¬ y.bits < signBit then compare y.bits.toNat x.bits.toNat else .lt := by
  have hinfinity : infinity.bits.toNat = 2047 * 2 ^ 52 := rfl
  have hsign : signBit.toNat = 2 ^ 63 := rfl
  have hmax : maxInt64 = 2 ^ 63 - 1 := rfl
  have hnan : ∀ z : Binary64, z.isNaN = true ↔ 2047 * 2 ^ 52 < z.bits.toNat % 2 ^ 63 := by
    intro z
    rw [isNaN, decide_eq_true_eq, UInt64.lt_iff_toNat_lt, toNat_abs, hinfinity]
  have hltx := x.bits.toNat_lt
  have hlty := y.bits.toNat_lt
  rw [hnan] at hx
  rw [literalCmp_eq, rank_representative, rank_representative, rank, rank, hmax]
  simp only [compare, compareOfLessAndEq, Nat.pow_eq, UInt64.lt_iff_toNat_lt, hsign, hnan]
  split_ifs <;> first | rfl | omega

def IsZero (x : Binary64) : Prop := x = zero ∨ x = negativeZero

theorem literalCmp_eq_eq : literalCmp x y = .eq ↔ x = y ∨ x.IsZero ∧ y.IsZero := by
  have hcmp : literalCmp x y = .eq ↔ same x y = true := LawfulLiterals.cmp_eq_iff x y
  have hzero : ∀ z : Binary64, z.representative = zero ↔ z.IsZero := by
    intro z
    rw [representative, IsZero]
    split <;> simp_all
  have hother : ∀ z : Binary64, ¬ z.IsZero → z.representative = z := by
    intro z hz
    exact if_neg fun h => hz (.inr h)
  rw [hcmp, same_iff]
  by_cases hx : x.IsZero
  · rw [(hzero x).2 hx, eq_comm, hzero]
    exact ⟨fun hy => .inr ⟨hx, hy⟩, fun h => h.elim (fun h => h ▸ hx) fun h => h.2⟩
  · by_cases hy : y.IsZero
    · rw [(hzero y).2 hy, hzero]
      exact ⟨fun h => absurd h hx, fun h => h.elim (fun h => h ▸ hy) fun h => h.1⟩
    · rw [hother x hx, hother y hy]
      exact ⟨.inl, fun h => h.resolve_right fun h => hx h.1⟩

/-- Numbers are in the order of their values, both zeros in one place. NaN is above or below all
numbers, as its sign bit says, and the farther from them the greater its bits are. -/
structure LiteralOrder (cmp : Binary64 → Binary64 → Ordering) : Prop where
  eq_iff : ∀ x y, cmp x y = .eq ↔ x = y ∨ x.IsZero ∧ y.IsZero
  lt_iff : ∀ x y, x.isNaN = false → y.isNaN = false → (cmp x y = .lt ↔ x.less y = true)
  nan : ∀ x y, x.isNaN = true → cmp x y =
    if x.bits < signBit then
      if y.isNaN ∧ y.bits < signBit then compare x.bits.toNat y.bits.toNat else .gt
    else if y.isNaN ∧ ¬ y.bits < signBit then compare y.bits.toNat x.bits.toNat else .lt

theorem literalOrder_literalCmp : LiteralOrder literalCmp where
  eq_iff _ _ := literalCmp_eq_eq
  lt_iff _ _ := literalCmp_eq_lt
  nan _ _ := literalCmp_nan

end Stencil.Binary64
