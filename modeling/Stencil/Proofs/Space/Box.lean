import Mathlib.Data.List.Induction
import Mathlib.Data.Int.Order.Basic
import Stencil.Space.Box

namespace Stencil

namespace Box

theorem joinInto_of_not_mem {i : Interval} {is : List Interval} (h : i.dim ∉ is.map Interval.dim) :
    joinInto i is = is ++ [i] := by
  induction is with
  | nil => rfl
  | cons j is ih =>
    rw [List.map_cons, List.mem_cons, not_or] at h
    rw [joinInto, if_neg (Ne.symm h.1), ih h.2, List.cons_append]

theorem intervals_ofList {is : List Interval} (h : (is.map Interval.dim).Nodup) :
    (ofList is).intervals = is := by
  induction is using List.reverseRecOn with
  | nil => rfl
  | append_singleton is i ih =>
    rw [List.map_append, List.nodup_append] at h
    have hi : i.dim ∉ is.map Interval.dim := fun hm =>
      h.2.2 _ hm _ (List.mem_singleton_self _) rfl
    rw [ofList, List.foldl_append]
    show joinInto i (ofList is).intervals = _
    rw [ih h.1, joinInto_of_not_mem hi]

theorem get?_of_mem {b : Box} {i : Interval} (h : i ∈ b.intervals) : b.get? i.dim = some i := by
  obtain ⟨is, hn⟩ := b
  simp only [get?] at h ⊢
  induction is with
  | nil => simp at h
  | cons j is ih =>
    rw [List.map_cons, List.nodup_cons] at hn
    rcases List.mem_cons.1 h with rfl | h
    · simp
    · have hne : j.dim ≠ i.dim := fun hji => hn.1 (hji ▸ List.mem_map_of_mem h)
      rw [List.find?_cons_of_neg (by simpa using hne), ih hn.2 h]

theorem get?_of_not_mem {b : Box} {d : Dimension} (h : d ∉ b.dimensions) : b.get? d = none := by
  rw [get?, List.find?_eq_none]
  intro i hi
  have hne : i.dim ≠ d := fun hid => h (hid ▸ List.mem_map_of_mem hi)
  simpa using hne

theorem intervals_add {a b : Box} (h : b.dimensions ⊆ a.dimensions) :
    (a.add b).intervals = a.intervals.map b.addTo := by
  have hextra : extra a b = [] := by
    rw [extra, List.filter_eq_nil_iff]
    intro i hi
    obtain ⟨j, hj, hji⟩ := List.mem_map.1 (h (List.mem_map_of_mem hi))
    rw [← hji, get?_of_mem hj]
    simp
  show a.intervals.map b.addTo ++ extra a b = _
  rw [hextra, List.append_nil]

theorem mem_add {a b : Box} {i : Interval} :
    i ∈ (a.add b).intervals ↔
      (∃ j ∈ a.intervals, b.addTo j = i) ∨ i ∈ b.intervals ∧ i.dim ∉ a.dimensions := by
  have hextra : i ∈ extra a b ↔ i ∈ b.intervals ∧ i.dim ∉ a.dimensions := by
    rw [extra, List.mem_filter, Option.isNone_iff_eq_none]
    refine and_congr_right fun _ => ⟨fun hnone hmem => ?_, get?_of_not_mem⟩
    obtain ⟨j, hj, hdim⟩ := List.mem_map.1 hmem
    rw [← hdim, get?_of_mem hj] at hnone
    exact Option.some_ne_none j hnone
  show i ∈ a.intervals.map b.addTo ++ extra a b ↔ _
  rw [List.mem_append, List.mem_map, hextra]

def along (b : Box) (d : Dimension) : Interval := (b.get? d).getD (.exact d)

theorem addTo_eq (b : Box) (d : Dimension) (l u : Int) :
    b.addTo ⟨d, l, u⟩ = ⟨d, l + (b.along d).lower, u + (b.along d).upper⟩ := by
  unfold along addTo
  cases b.get? d with
  | none => simp [Interval.exact]
  | some j => rfl

def Spans (b : Box) (i : Interval) : Prop :=
  ∃ j ∈ b.intervals, j.dim = i.dim ∧ j.lower ≤ i.lower ∧ i.upper ≤ j.upper

def Covers (a b : Box) : Prop := ∀ i ∈ b.intervals, a.Spans i

instance (b : Box) (i : Interval) : Decidable (b.Spans i) :=
  inferInstanceAs
    (Decidable (∃ j ∈ b.intervals, j.dim = i.dim ∧ j.lower ≤ i.lower ∧ i.upper ≤ j.upper))

instance (a b : Box) : Decidable (a.Covers b) :=
  inferInstanceAs (Decidable (∀ i ∈ b.intervals, a.Spans i))

theorem spans_of_mem {b : Box} {i : Interval} (h : i ∈ b.intervals) : b.Spans i :=
  ⟨i, h, rfl, le_rfl, le_rfl⟩

theorem Covers.spans {a b : Box} {i : Interval} (h : a.Covers b) (hi : b.Spans i) :
    a.Spans i := by
  obtain ⟨j, hj, hdim, hlower, hupper⟩ := hi
  obtain ⟨k, hk, hdim', hlower', hupper'⟩ := h j hj
  exact ⟨k, hk, hdim'.trans hdim, le_trans hlower' hlower, le_trans hupper hupper'⟩

theorem Spans.between {b : Box} {i j k : Interval} (hi : b.Spans i) (hj : b.Spans j)
    (hki : k.dim = i.dim) (hkj : k.dim = j.dim) (hlower : i.lower ≤ k.lower)
    (hupper : k.upper ≤ j.upper) : b.Spans k := by
  obtain ⟨i', hi', hdim, hl, -⟩ := hi
  obtain ⟨j', hj', hdim', -, hu⟩ := hj
  have heq : i' = j' := by
    have hget := get?_of_mem hi'
    rw [hdim, ← hki, hkj, ← hdim', get?_of_mem hj'] at hget
    exact (Option.some.inj hget).symm
  subst heq
  exact ⟨i', hi', hdim.trans hki.symm, le_trans hl hlower, le_trans hupper hu⟩

section Join

variable {is : List Interval} {i j : Interval}

theorem exists_mem_joinInto_self (i : Interval) (is : List Interval) :
    ∃ k ∈ joinInto i is, k.dim = i.dim ∧ k.lower ≤ i.lower ∧ i.upper ≤ k.upper := by
  induction is with
  | nil => exact ⟨i, List.mem_singleton_self i, rfl, le_rfl, le_rfl⟩
  | cons j is ih =>
    rw [joinInto]
    split
    · rename_i hdim
      exact ⟨j.hull i, List.mem_cons_self, hdim, min_le_right _ _, le_max_right _ _⟩
    · obtain ⟨k, hk, hspans⟩ := ih
      exact ⟨k, List.mem_cons_of_mem j hk, hspans⟩

theorem exists_mem_joinInto (h : j ∈ is) :
    ∃ k ∈ joinInto i is, k.dim = j.dim ∧ k.lower ≤ j.lower ∧ j.upper ≤ k.upper := by
  induction is with
  | nil => exact absurd h List.not_mem_nil
  | cons i' is ih =>
    rw [joinInto]
    split
    · rcases List.mem_cons.1 h with rfl | h
      · exact ⟨j.hull i, List.mem_cons_self, rfl, min_le_left _ _, le_max_left _ _⟩
      · exact ⟨j, List.mem_cons_of_mem _ h, rfl, le_rfl, le_rfl⟩
    · rcases List.mem_cons.1 h with rfl | h
      · exact ⟨j, List.mem_cons_self, rfl, le_rfl, le_rfl⟩
      · obtain ⟨k, hk, hspans⟩ := ih h
        exact ⟨k, List.mem_cons_of_mem i' hk, hspans⟩

theorem Spans.join {b : Box} (h : b.Spans j) (i : Interval) : (b.join i).Spans j := by
  obtain ⟨k, hk, hdim, hl, hu⟩ := h
  obtain ⟨k', hk', hdim', hl', hu'⟩ := exists_mem_joinInto hk
  exact ⟨k', hk', hdim'.trans hdim, le_trans hl' hl, le_trans hu hu'⟩

theorem spans_foldl_join {a : Box} (h : a.Spans j ∨ j ∈ is) : (is.foldl join a).Spans j := by
  induction is generalizing a with
  | nil => exact h.resolve_right List.not_mem_nil
  | cons i is ih =>
    rw [List.foldl_cons]
    apply ih
    rcases h with h | h
    · exact .inl (h.join i)
    · rcases List.mem_cons.1 h with rfl | h
      · exact .inl (exists_mem_joinInto_self j a.intervals)
      · exact .inr h

end Join

theorem covers_foldl_union {bs : List Box} {b : Box} (h : b ∈ bs) (a : Box) :
    (bs.foldl union a).Covers b := by
  intro i hi
  have hloop : ∀ a : Box, a.Spans i ∨ b ∈ bs → (bs.foldl union a).Spans i := by
    clear h
    induction bs with
    | nil => exact fun a h => h.resolve_right List.not_mem_nil
    | cons b' bs ih =>
      intro a h
      rw [List.foldl_cons]
      apply ih
      rcases h with h | h
      · exact .inl (spans_foldl_join (.inl h))
      · rcases List.mem_cons.1 h with rfl | h
        · exact .inl (spans_foldl_join (.inr hi))
        · exact .inr h
  exact hloop a (.inr h)

end Box

end Stencil
