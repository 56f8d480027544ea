import Stencil.Pass.Lifting
import Stencil.Proofs.Alias.Groups
import Stencil.Proofs.Space.Box

namespace Stencil

namespace Lifting

variable {α : Type} {g : AliasGroup α} {s : IterationSpace}

def spread (g : AliasGroup α) (d : Dimension) : Int × Int :=
  if d.isTime then (0, 0) else AliasGroup.reach g.diameter d

def stored (g : AliasGroup α) (i : Interval) : Interval :=
  ⟨i.dim, (spread g i.dim).1, (spread g i.dim).2⟩

theorem isExact_stored {i : Interval} :
    (stored g i).isExact = true ↔ spread g i.dim = (0, 0) := by
  simp only [Interval.isExact, stored, Bool.and_eq_true, beq_iff_eq, Prod.ext_iff]

theorem filter_append_filter {β : Type} {p : β → Bool} {l : List β}
    (h : l.Pairwise fun a b => p b = true → p a = true) :
    l.filter p ++ l.filter (!p ·) = l := by
  induction l with
  | nil => rfl
  | cons a l ih =>
    rw [List.pairwise_cons] at h
    by_cases ha : p a = true
    · simp [ha, ih h.2]
    · have hnone : l.filter p = [] := by
        rw [List.filter_eq_nil_iff]
        exact fun b hb hpb => ha (h.1 b hb hpb)
      have hrest := ih h.2
      rw [hnone, List.nil_append] at hrest
      simp [ha, hnone, hrest]

theorem exists_storage_spaces (s : IterationSpace) (g : AliasGroup α) :
    ∃ n ≤ (s.box.intervals.filter (!·.dim.isTime)).length,
      (storage s g).intervals =
        ((s.box.intervals.filter (!·.dim.isTime)).drop n).map (stored g) ∧
      ∀ i ∈ (s.box.intervals.filter (!·.dim.isTime)).take n, spread g i.dim = (0, 0) := by
  let spaces := s.box.intervals.filter (!·.dim.isTime)
  let b := Box.ofList (spaces.map (stored g))
  have hspaces : spaces.map (stored g) = spaces.map fun i =>
      (⟨i.dim, ((g.diameter.get? i.dim).getD (0, 0)).1,
        ((g.diameter.get? i.dim).getD (0, 0)).2⟩ : Interval) := by
    refine List.map_congr_left fun i hi => ?_
    have hspace : i.dim.isTime = false := by simpa using (List.mem_filter.1 hi).2
    simp only [stored, spread, hspace]
    rfl
  have hb : b.intervals = spaces.map (stored g) := by
    refine Box.intervals_ofList ?_
    rw [List.map_map]
    exact s.box.nodup.sublist (List.filter_sublist.map _)
  have hstorage : storage s g = ((b.intervals.findIdx? (!Interval.isExact ·)).map b.drop).getD b := by
    simp only [b, hspaces, spaces]
    unfold storage
    dsimp only
    split
    · rename_i n hn
      rw [hn, Option.map_some, Option.getD_some]
    · rename_i hn
      rw [hn, Option.map_none, Option.getD_none]
  cases hfind : b.intervals.findIdx? (!Interval.isExact ·) with
  | none =>
    refine ⟨0, Nat.zero_le _, ?_, by simp⟩
    rw [hstorage, hfind]
    exact hb
  | some m =>
    obtain ⟨hm, -, hbefore⟩ := List.findIdx?_eq_some_iff_getElem.1 hfind
    have hlen : m < spaces.length := by rwa [hb, List.length_map] at hm
    refine ⟨m, hlen.le, ?_, fun i hi => ?_⟩
    · rw [hstorage, hfind, List.map_drop, ← hb]
      rfl
    · obtain ⟨j, hj, rfl⟩ := List.mem_iff_getElem.1 hi
      rw [List.length_take] at hj
      have hj' : j < b.intervals.length := by omega
      have hstored : b.intervals[j] = stored g spaces[j] := by
        rw [List.getElem_of_eq hb hj', List.getElem_map]
      have hexact' := hbefore j (by omega)
      rw [hstored, Bool.not_eq_true, Bool.not_eq_false'] at hexact'
      rw [List.getElem_take]
      exact isExact_stored.1 hexact'

theorem exists_of_mem_storage {j : Interval} (hj : j ∈ (storage s g).intervals) :
    ∃ i ∈ s.box.intervals, j = stored g i := by
  obtain ⟨n, -, hstored, -⟩ := exists_storage_spaces s g
  rw [hstored] at hj
  obtain ⟨i, hi, rfl⟩ := List.mem_map.1 hj
  exact ⟨i, List.mem_of_mem_filter (List.mem_of_mem_drop hi), rfl⟩

theorem stored_mem_storage {i : Interval} (hi : i ∈ s.box.intervals)
    (h : spread g i.dim ≠ (0, 0)) : stored g i ∈ (storage s g).intervals := by
  obtain ⟨n, -, hstored, hexact⟩ := exists_storage_spaces s g
  have hspace : i ∈ s.box.intervals.filter (!·.dim.isTime) := by
    refine List.mem_filter.2 ⟨hi, ?_⟩
    rw [Bool.not_eq_true']
    exact Bool.eq_false_iff.2 fun ht => h (if_pos ht)
  rw [← List.take_append_drop n (s.box.intervals.filter (!·.dim.isTime)), List.mem_append] at hspace
  rw [hstored]
  exact List.mem_map_of_mem (hspace.resolve_left fun hi => h (hexact i hi))

theorem intervals_add_storage (s : IterationSpace) (g : AliasGroup α) :
    (s.box.add (storage s g)).intervals = s.box.intervals.map fun i =>
      ⟨i.dim, i.lower + (spread g i.dim).1, i.upper + (spread g i.dim).2⟩ := by
  rw [Box.intervals_add]
  · refine List.map_congr_left fun i hi => ?_
    by_cases hin : stored g i ∈ (storage s g).intervals
    · rw [Box.addTo, show i.dim = (stored g i).dim from rfl, Box.get?_of_mem hin]
      rfl
    · have hzero : spread g i.dim = (0, 0) := by
        by_contra hne
        exact hin (stored_mem_storage hi hne)
      have hout : i.dim ∉ (storage s g).dimensions := fun hmem => by
        obtain ⟨j, hj, hdim⟩ := List.mem_map.1 hmem
        obtain ⟨k, hk, rfl⟩ := exists_of_mem_storage hj
        have hki := Box.get?_of_mem hk
        rw [show k.dim = i.dim from hdim, Box.get?_of_mem hi] at hki
        exact hin (Option.some.inj hki ▸ hj)
      simp [Box.addTo, Box.get?_of_not_mem hout, hzero]
  · intro d hd
    obtain ⟨j, hj, rfl⟩ := List.mem_map.1 hd
    obtain ⟨i, hi, rfl⟩ := exists_of_mem_storage hj
    exact List.mem_map.2 ⟨i, hi, rfl⟩

def outer (s : IterationSpace) (g : AliasGroup α) : Nat :=
  s.box.intervals.length - (storage s g).intervals.length

section TimeFirst

variable
  (htime : s.box.intervals.Pairwise fun i j => j.dim.isTime = true → i.dim.isTime = true)
  (g : AliasGroup α)

include htime

theorem exists_storage : ∃ n ≤ s.box.intervals.length,
    (storage s g).intervals = (s.box.intervals.drop n).map (stored g) ∧
      ∀ i ∈ s.box.intervals.take n, spread g i.dim = (0, 0) := by
  let times := s.box.intervals.filter (·.dim.isTime)
  have hsplit : times ++ s.box.intervals.filter (!·.dim.isTime) = s.box.intervals :=
    filter_append_filter htime
  have htimes : ∀ i ∈ times, spread g i.dim = (0, 0) := fun i hi => if_pos (List.mem_filter.1 hi).2
  obtain ⟨m, hm, hstored, hexact⟩ := exists_storage_spaces s g
  refine ⟨times.length + m, by rw [← hsplit, List.length_append]; omega, ?_, ?_⟩
  · rw [hstored, ← hsplit, List.drop_length_add_append, hsplit]
  · rw [← hsplit, List.take_length_add_append]
    exact List.forall_mem_append.2 ⟨htimes, hexact⟩

theorem intervals_storage :
    (storage s g).intervals = (s.box.intervals.drop (outer s g)).map (stored g) ∧
      ∀ i ∈ s.box.intervals.take (outer s g), spread g i.dim = (0, 0) := by
  obtain ⟨n, hn, hstored, hexact⟩ := exists_storage htime g
  have houter : outer s g = n := by
    rw [outer, hstored, List.length_map, List.length_drop]
    omega
  rw [houter]
  exact ⟨hstored, hexact⟩

end TimeFirst

end Lifting

namespace AliasGroups.IsGroup

open Lifting

variable {α : Type} [Arithmetic α] {as : List (Assignment α)} {g : AliasGroup α}

theorem shift_mem_spread (hg : IsGroup as g) {m : Expr α × Distance} (hm : m ∈ g.members)
    (d : Dimension) : (spread g d).1 ≤ m.2.shift d ∧ m.2.shift d ≤ (spread g d).2 := by
  unfold spread
  split
  · rename_i ht
    rw [hg.time m hm d ht]
    exact ⟨le_rfl, le_rfl⟩
  · exact AliasGroup.shift_mem_diameter hm d

theorem zero_mem_spread (hg : IsGroup as g) (d : Dimension) :
    (spread g d).1 ≤ 0 ∧ 0 ≤ (spread g d).2 := by
  obtain ⟨l, hl, hlow⟩ := hg.low d
  obtain ⟨u, hu, hhigh⟩ := hg.high d
  exact ⟨(hg.shift_mem_spread hl d).1.trans hlow, hhigh.trans (hg.shift_mem_spread hu d).2⟩

theorem exists_spread (hg : IsGroup as g) (d : Dimension) :
    (∃ m ∈ g.members, m.2.shift d = (spread g d).1) ∧
      ∃ m ∈ g.members, m.2.shift d = (spread g d).2 := by
  obtain ⟨l, hl, hlow⟩ := hg.low d
  obtain ⟨u, hu, hhigh⟩ := hg.high d
  unfold spread
  split
  · rename_i ht
    exact ⟨⟨l, hl, hg.time l hl d ht⟩, l, hl, hg.time l hl d ht⟩
  · have hshift : ∀ {m o}, m ∈ g.members → (d, o) ∈ m.2.entries → m.2.shift d = o := fun hm ho =>
      shift_of_get? (Table.get?_eq_some_of_mem (hg.nodup _ hm) ho)
    obtain ⟨hleast, hgreatest⟩ := AliasGroup.isLeast_diameter g d
    constructor
    · rcases hleast.1 with hzero | ⟨m, hm, ho⟩
      · have hle := (AliasGroup.shift_mem_diameter hl d).1
        exact ⟨l, hl, le_antisymm (hzero ▸ hlow) hle⟩
      · exact ⟨m, hm, hshift hm ho⟩
    · rcases hgreatest.1 with hzero | ⟨m, hm, ho⟩
      · have hle := (AliasGroup.shift_mem_diameter hu d).2
        exact ⟨u, hu, le_antisymm hle (hzero ▸ hhigh)⟩
      · exact ⟨m, hm, hshift hm ho⟩

end AliasGroups.IsGroup

end Stencil
