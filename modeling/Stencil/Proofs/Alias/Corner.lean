import Mathlib.Order.Bounds.Basic
import Mathlib.Order.MinMax
import Stencil.Alias
import Stencil.Proofs.Expr.Displacement
import Stencil.Proofs.Table

namespace Stencil

namespace AliasGroups

open Stencil.Expr

variable {α : Type} {d : Dimension}

def lowest (is : List Index) : Distance :=
  is.foldl (fun t i =>
    match i with
    | .affine d o => if d.isTime then t else t.update d o (min o)
    | .const _ => t) .empty

theorem lowest_append (is : List Index) (i : Index) : lowest (is ++ [i]) =
    match i with
    | .affine d o => if d.isTime then lowest is else (lowest is).update d o (min o)
    | .const _ => lowest is := by
  rw [lowest, List.foldl_append]
  cases i <;> rfl

theorem nodup_keys_lowest (is : List Index) : (lowest is).keys.Nodup := by
  induction is using List.reverseRecOn with
  | nil => exact List.nodup_nil
  | append_singleton is i ih =>
    rw [lowest_append]
    split
    · split
      · exact ih
      · exact Table.nodup_keys_insert ih _ _
    · exact ih

theorem lowest_of_time (hd : d.isTime = true) (is : List Index) : (lowest is).get? d = none := by
  induction is using List.reverseRecOn with
  | nil => rfl
  | append_singleton is i ih =>
    rw [lowest_append]
    split
    · rename_i d' o
      split
      · exact ih
      · rename_i hd'
        have hne : d' ≠ d := fun h => hd' (h ▸ hd)
        rw [Table.update, Table.get?_insert, if_neg (by simpa using hne), ih]
    · exact ih

theorem isLeast_lowest (hd : d.isTime = false) (is : List Index) :
    match (lowest is).get? d with
    | some v => IsLeast {o | Index.affine d o ∈ is} v
    | none => ∀ o, Index.affine d o ∉ is := by
  induction is using List.reverseRecOn with
  | nil => exact fun o h => absurd h List.not_mem_nil
  | append_singleton is i ih =>
    rw [lowest_append]
    simp only [List.mem_append, List.mem_singleton]
    cases i with
    | const c => simpa using ih
    | affine d' o' =>
      by_cases hdd : d' = d
      · subst hdd
        simp only [hd, Table.update, Table.get?_insert, Bool.false_eq_true, if_false,
          beq_self_eq_true, if_true, Index.affine.injEq, true_and]
        cases hget : (lowest is).get? d' with
        | none =>
          rw [hget] at ih
          refine ⟨.inr (min_self o'), ?_⟩
          rintro o (ho | rfl)
          · exact absurd ho (ih o)
          · exact min_le_left o o
        | some v =>
          rw [hget] at ih
          refine ⟨?_, ?_⟩
          · rcases min_choice o' v with h | h
            · exact .inr h
            · exact .inl (h.symm ▸ ih.1)
          · rintro o (ho | rfl)
            · exact (min_le_right o' v).trans (ih.2 ho)
            · exact min_le_left o v
      · have hne : ∀ o, Index.affine d o ≠ Index.affine d' o' := fun o h =>
          hdd (Index.affine.inj h).1.symm
        simp only [hne, or_false]
        by_cases ht : d'.isTime = true
        · simpa only [ht, if_true] using ih
        · simpa only [ht, Bool.false_eq_true, Table.update, Table.get?_insert, beq_iff_eq, hdd, if_false] using ih

variable [Arithmetic α] {e : Expr α}

omit [Arithmetic α] in
theorem get?_corner (e : Expr α) (d : Dimension) :
    (corner e).get? d = (lowest (e.accesses.flatMap Access.indices)).get? d :=
  Table.get?_of_perm (nodup_keys_lowest _) (List.mergeSort_perm _ _) d

omit [Arithmetic α] in
theorem nodup_keys_corner (e : Expr α) : (corner e).keys.Nodup :=
  (((List.mergeSort_perm _ _).map Prod.fst).nodup_iff).2 (nodup_keys_lowest _)

omit [Arithmetic α] in
theorem corner_of_time (hd : d.isTime = true) (e : Expr α) : (corner e).get? d = none :=
  (get?_corner e d).trans (lowest_of_time hd _)

def offsets (e : Expr α) (d : Dimension) : Set Int :=
  {o | ∃ x, access x ∈ e.inputs ∧ Index.affine d o ∈ x.indices}

omit [Arithmetic α] in
theorem mem_dimensions_of_mem_offsets {o : Int} (h : o ∈ offsets e d) : d ∈ e.dimensions := by
  obtain ⟨x, hx, ho⟩ := h
  exact mem_dimensions.2 ⟨x, hx, List.mem_filterMap.2 ⟨_, ho, rfl⟩⟩

omit [Arithmetic α] in
theorem exists_mem_offsets (h : d ∈ e.dimensions) : ∃ o, o ∈ offsets e d := by
  obtain ⟨x, hx, hd⟩ := mem_dimensions.1 h
  obtain ⟨i, hi, hdim⟩ := List.mem_filterMap.1 hd
  cases i with
  | const c => simp [Index.dim?] at hdim
  | affine d' o =>
    obtain rfl := Option.some.inj hdim
    exact ⟨o, x, hx, hi⟩

omit [Arithmetic α] in
theorem isLeast_corner (hd : d.isTime = false) (e : Expr α) :
    match (corner e).get? d with
    | some v => IsLeast (offsets e d) v
    | none => d ∉ e.dimensions := by
  have hset : {o | Index.affine d o ∈ e.accesses.flatMap Access.indices} = offsets e d := by
    ext o
    simp only [Set.mem_ofPred_eq, List.mem_flatMap, mem_accesses, offsets]
  have hleast := isLeast_lowest hd (e.accesses.flatMap Access.indices)
  rw [hset, ← get?_corner] at hleast
  cases hget : (corner e).get? d with
  | some v => simpa only [hget] using hleast
  | none =>
    rw [hget] at hleast
    intro h
    obtain ⟨o, ho⟩ := exists_mem_offsets h
    have hmem : o ∈ {o | Index.affine d o ∈ e.accesses.flatMap Access.indices} := hset ▸ ho
    exact hleast o hmem

omit [Arithmetic α] in
theorem exists_corner (hd : d.isTime = false) (h : d ∈ e.dimensions) :
    ∃ v, (corner e).get? d = some v ∧ IsLeast (offsets e d) v := by
  have hleast := isLeast_corner hd e
  cases hget : (corner e).get? d with
  | some v => exact ⟨v, rfl, by simpa only [hget] using hleast⟩
  | none => exact absurd h (by simpa only [hget] using hleast)

omit [Arithmetic α] in
theorem get?_corner_eq_none (e : Expr α) (d : Dimension) :
    (corner e).get? d = none ↔ d.isTime = true ∨ d ∉ e.dimensions := by
  constructor
  · intro hnone
    by_contra hd
    rw [not_or, not_not, Bool.not_eq_true] at hd
    obtain ⟨v, hv, -⟩ := exists_corner hd.1 hd.2
    simp [hnone] at hv
  · rintro (hd | hd)
    · exact corner_of_time hd e
    · by_contra hne
      obtain ⟨v, hv⟩ := Option.ne_none_iff_exists'.1 hne
      have hspace : d.isTime = false := by
        by_contra ht
        simp [corner_of_time (by simpa using ht)] at hv
      have hleast := isLeast_corner hspace e
      rw [hv] at hleast
      exact hd (mem_dimensions_of_mem_offsets hleast.1)

theorem shift_of_get? {t : Distance} {v : Int} (h : t.get? d = some v) : t.shift d = v := by
  rw [Distance.shift, h, Option.getD_some]

theorem shift_of_none {t : Distance} (h : t.get? d = none) : t.shift d = 0 := by
  rw [Distance.shift, h, Option.getD_none]

theorem shift_mapValues {f : Int → Int} (hf : f 0 = 0) (t : Distance) (d : Dimension) :
    Distance.shift (t.mapValues f) d = f (t.shift d) := by
  rw [Distance.shift, Table.get?_mapValues, Distance.shift]
  cases t.get? d <;> simp [hf]

theorem shift_neg (t : Distance) (d : Dimension) :
    Distance.shift (t.mapValues (- ·)) d = - t.shift d :=
  shift_mapValues Int.neg_zero t d

def atZero (e : Expr α) : Expr α := e.displace (Distance.shift ((corner e).mapValues (- ·)))

def eligible (as : List (Assignment α)) : List (Assignment α) :=
  as.filter (isEligible (as.filterMap Assignment.target?))

theorem corner_congr {a b : Expr α} (h : (a == b) = true) : corner a = corner b := by
  rw [corner, corner, accesses_congr h]

theorem dimensions_congr {a b : Expr α} (h : (a == b) = true) : a.dimensions = b.dimensions := by
  rw [dimensions, dimensions, accesses_congr h]

variable [LawfulArithmetic α]

theorem mem_dimensions_displace (hc : Canonical e) (s : Shift) :
    d ∈ (e.displace s).dimensions ↔ d ∈ e.dimensions := by
  simp only [mem_dimensions, access_mem_displace hc]
  constructor
  · rintro ⟨-, ⟨y, hy, rfl⟩, hd⟩
    exact ⟨y, hy, y.dimensions_displace s ▸ hd⟩
  · rintro ⟨y, hy, hd⟩
    exact ⟨_, ⟨y, hy, rfl⟩, (y.dimensions_displace s).symm ▸ hd⟩

theorem corner_displace (hc : Canonical e) (s : Shift) (hd : d.isTime = false)
    (h : d ∈ e.dimensions) : (corner (e.displace s)).shift d = (corner e).shift d + s d := by
  obtain ⟨v, hv, hleast⟩ := exists_corner hd h
  obtain ⟨w, hw, hleast'⟩ := exists_corner hd ((mem_dimensions_displace hc s).2 h)
  rw [shift_of_get? hv, shift_of_get? hw]
  refine hleast'.unique ⟨?_, ?_⟩
  · obtain ⟨x, hx, hv⟩ := hleast.1
    exact ⟨x.displace s, (access_mem_displace hc).2 ⟨x, hx, rfl⟩,
      Index.affine_mem_displace.2 ⟨v, hv, rfl⟩⟩
  · rintro o ⟨x, hx, ho⟩
    obtain ⟨y, hy, rfl⟩ := (access_mem_displace hc).1 hx
    obtain ⟨o', ho', rfl⟩ := Index.affine_mem_displace.1 ho
    have hle := hleast.2 ⟨y, hy, ho'⟩
    omega

theorem canonical_atZero (hc : Canonical e) : Canonical (atZero e) := canonical_displace hc _

theorem atZero_displace (hc : Canonical e) {s : Shift} (hs : ∀ d, d.isTime = true → s d = 0) :
    atZero (e.displace s) = atZero e := by
  rw [atZero, displace_displace hc, atZero]
  refine displace_congr fun d hd => ?_
  simp only [Pi.add_apply, shift_neg]
  by_cases ht : d.isTime = true
  · simp [hs d ht, shift_of_none (corner_of_time ht _)]
  · rw [corner_displace hc s (Bool.eq_false_iff.2 ht) hd]
    omega

theorem displace_corner_atZero (hc : Canonical e) : (atZero e).displace (corner e).shift = e := by
  rw [atZero, displace_displace hc]
  refine (displace_congr fun d _ => ?_).trans (displace_zero hc)
  simp only [Pi.add_apply, shift_neg]
  omega

theorem atZero_beq {a b : Expr α} (ha : Canonical a) (hb : Canonical b) (h : (a == b) = true) :
    (atZero a == atZero b) = true := by
  rw [atZero, atZero, corner_congr h, displace_beq ha hb, h]

end AliasGroups

end Stencil
