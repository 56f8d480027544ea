import Mathlib.Order.Bounds.Basic
import Stencil.Cluster
import Stencil.Proofs.Expr.Displacement
import Stencil.Proofs.Space.Box
import Stencil.Proofs.Table

namespace Stencil

namespace Offsets

def ofIndices (is : List Index) : Offsets := is.foldl record .empty

theorem ofIndices_append (is : List Index) (i : Index) :
    ofIndices (is ++ [i]) = (ofIndices is).record i := by
  rw [ofIndices, List.foldl_append]
  rfl

theorem foldl_record (is js : List Index) :
    js.foldl record (ofIndices is) = ofIndices (is ++ js) := by
  rw [ofIndices, ofIndices, List.foldl_append]

theorem nodup_keys_ofIndices (is : List Index) : (ofIndices is).keys.Nodup := by
  induction is using List.reverseRecOn with
  | nil => exact List.nodup_nil
  | append_singleton is i ih =>
    rw [ofIndices_append]
    cases i with
    | const c => exact ih
    | affine d o => exact Table.nodup_keys_insert ih _ _

theorem get?_ofIndices (is : List Index) (d : Dimension) :
    match (ofIndices is).get? d with
    | some os => os ≠ [] ∧ ∀ o, o ∈ os ↔ Index.affine d o ∈ is
    | none => ∀ o, Index.affine d o ∉ is := by
  induction is using List.reverseRecOn with
  | nil => exact fun o h => absurd h List.not_mem_nil
  | append_singleton is i ih =>
    rw [ofIndices_append]
    cases i with
    | const c => simpa [record] using ih
    | affine d' o' =>
      rw [record, Table.update, Table.get?_insert]
      by_cases hd : d' = d
      · subst hd
        simp only [beq_self_eq_true, if_true, List.mem_append, List.mem_singleton,
          Index.affine.injEq, true_and]
        refine ⟨by simp, fun o => or_congr_left ?_⟩
        cases hget : (ofIndices is).get? d' with
        | some os =>
          rw [hget] at ih
          exact ih.2 o
        | none =>
          rw [hget] at ih
          exact ⟨fun h => absurd h List.not_mem_nil, fun h => absurd h (ih o)⟩
      · simpa [hd, Ne.symm hd] using ih

variable {is : List Index} {d : Dimension} {i : Interval}

def interval? (x : Dimension × List Int) : Option Interval := do
  return ⟨x.1, ← x.2.min?, ← x.2.max?⟩

theorem interval?_eq_some {x : Dimension × List Int} :
    interval? x = some i ↔ i.dim = x.1 ∧ x.2.min? = some i.lower ∧ x.2.max? = some i.upper := by
  obtain ⟨d, os⟩ := x
  obtain ⟨d', l, u⟩ := i
  cases hmin : os.min? <;> cases hmax : os.max? <;> simp [interval?, hmin, hmax]
  tauto

theorem map_dim_filterMap_sublist (xs : List (Dimension × List Int)) :
    ((xs.filterMap interval?).map Interval.dim).Sublist (xs.map (·.1)) := by
  induction xs with
  | nil => exact .slnil
  | cons x xs ih =>
    cases hx : interval? x with
    | none =>
      rw [List.filterMap_cons_none hx]
      exact ih.cons _
    | some i =>
      rw [List.filterMap_cons_some hx, List.map_cons, List.map_cons, (interval?_eq_some.1 hx).1]
      exact ih.cons_cons _

theorem mem_box : i ∈ (ofIndices is).box.intervals ↔
    ∃ os, (ofIndices is).get? i.dim = some os ∧ os.min? = some i.lower ∧
      os.max? = some i.upper := by
  have hintervals : (ofIndices is).box.intervals = (ofIndices is).entries.filterMap interval? :=
    Box.intervals_ofList ((nodup_keys_ofIndices is).sublist (map_dim_filterMap_sublist _))
  rw [hintervals, List.mem_filterMap]
  constructor
  · rintro ⟨⟨d, os⟩, hmem, hi⟩
    obtain ⟨rfl, hends⟩ := interval?_eq_some.1 hi
    exact ⟨os, Table.get?_eq_some_of_mem (nodup_keys_ofIndices is) hmem, hends⟩
  · rintro ⟨os, hget, hends⟩
    exact ⟨_, Table.mem_of_get? hget, interval?_eq_some.2 ⟨rfl, hends⟩⟩

theorem isLeast_box (h : i ∈ (ofIndices is).box.intervals) :
    IsLeast {o | Index.affine i.dim o ∈ is} i.lower ∧
      IsGreatest {o | Index.affine i.dim o ∈ is} i.upper := by
  obtain ⟨os, hget, hmin, hmax⟩ := mem_box.1 h
  have hoffsets := get?_ofIndices is i.dim
  rw [hget] at hoffsets
  obtain ⟨hlower, hleast⟩ := List.min?_eq_some_iff.1 hmin
  obtain ⟨hupper, hgreatest⟩ := List.max?_eq_some_iff.1 hmax
  refine ⟨⟨(hoffsets.2 _).1 hlower, fun o ho => hleast o ((hoffsets.2 o).2 ho)⟩, ?_⟩
  exact ⟨(hoffsets.2 _).1 hupper, fun o ho => hgreatest o ((hoffsets.2 o).2 ho)⟩

theorem mem_dimensions_box {d : Dimension} :
    d ∈ (ofIndices is).box.dimensions ↔ ∃ o, Index.affine d o ∈ is := by
  constructor
  · intro h
    obtain ⟨i, hi, rfl⟩ := List.mem_map.1 h
    exact ⟨i.lower, (isLeast_box hi).1.1⟩
  · rintro ⟨o, ho⟩
    have hoffsets := get?_ofIndices is d
    cases hget : (ofIndices is).get? d with
    | none =>
      rw [hget] at hoffsets
      exact absurd ho (hoffsets o)
    | some os =>
      rw [hget] at hoffsets
      obtain ⟨l, hl⟩ := Option.ne_none_iff_exists'.1 (mt List.min?_eq_none_iff.1 hoffsets.1)
      obtain ⟨u, hu⟩ := Option.ne_none_iff_exists'.1 (mt List.max?_eq_none_iff.1 hoffsets.1)
      exact List.mem_map.2 ⟨⟨d, l, u⟩, mem_box.2 ⟨os, hget, hl, hu⟩, rfl⟩

end Offsets

section Accesses

variable {α : Type}

theorem Assignment.mem_accesses {a : Assignment α} {x : Access} :
    x ∈ a.accesses ↔ .access x ∈ a.lhs.inputs ∨ .access x ∈ a.rhs.inputs := by
  rw [Assignment.accesses, List.mem_append, Expr.mem_accesses, Expr.mem_accesses]

def accessesTo (name : String) (as : List (Assignment α)) : List Access :=
  (as.flatMap Assignment.accesses).filter (·.field.name == name)

theorem mem_accessesTo {name : String} {x : Access} {as : List (Assignment α)} :
    x ∈ accessesTo name as ↔
      (∃ a ∈ as, .access x ∈ a.lhs.inputs ∨ .access x ∈ a.rhs.inputs) ∧ x.field.name = name := by
  simp only [accessesTo, List.mem_filter, List.mem_flatMap, Assignment.mem_accesses, beq_iff_eq]

def Cluster.touched (c : Cluster α) (name : String) : Option Box :=
  (Footprint.ofAssignments c.assignments c.space).parts.get? name

theorem Offsets.get?_ofAssignments (as : List (Assignment α)) (name : String) :
    (Offsets.ofAssignments as).get? name =
      match accessesTo name as with
      | [] => none
      | xs => some (ofIndices (xs.flatMap Access.indices)) := by
  rw [ofAssignments, accessesTo]
  generalize as.flatMap Assignment.accesses = xs
  induction xs using List.reverseRecOn with
  | nil => rfl
  | append_singleton xs x ih =>
    rw [List.foldl_append, List.foldl_cons, List.foldl_nil, Table.update, Table.get?_insert,
      List.filter_append, ih]
    by_cases hx : x.field.name = name
    · subst hx
      simp only [beq_self_eq_true, if_true, List.filter_cons_of_pos, List.filter_nil, ih]
      cases xs.filter (·.field.name == x.field.name) with
      | nil => simp [ofIndices]
      | cons y ys =>
        rw [List.cons_append]
        simp only [Option.getD_some, foldl_record, List.flatMap_cons, List.flatMap_append,
          List.flatMap_nil, List.append_nil, List.append_assoc]
    · simp [hx]

/-- Whether a box covers what an access touches over another box, of an array that has the
dimensions `ds` as subscripts. Along the others it has to cover the box itself. -/
structure Box.Admits (b s : Box) (ds : Set Dimension) (x : Access) : Prop where
  alike : ∀ d, d ∈ x.dimensions ↔ d ∈ ds
  subscripted : ∀ d o, Index.affine d o ∈ x.indices → b.Spans (s.addTo ⟨d, o, o⟩)
  other : ∀ i ∈ s.intervals, i.dim ∉ ds → b.Spans i

theorem Access.mem_dimensions {x : Access} {d : Dimension} :
    d ∈ x.dimensions ↔ ∃ o, Index.affine d o ∈ x.indices := by
  rw [dimensions, List.mem_filterMap]
  constructor
  · rintro ⟨i, hi, hdim⟩
    cases i with
    | const c => simp [Index.dim?] at hdim
    | affine d' o => exact ⟨o, Option.some.inj hdim ▸ hi⟩
  · rintro ⟨o, ho⟩
    exact ⟨_, ho, rfl⟩

namespace Footprint

variable {as : List (Assignment α)} {s : IterationSpace} {name : String} {ds : Set Dimension}
  {b : Box}

theorem get?_parts (h : accessesTo name as ≠ []) : (ofAssignments as s).parts.get? name =
    some ((Offsets.ofIndices ((accessesTo name as).flatMap Access.indices)).box.add s.box) := by
  rw [ofAssignments, Table.get?_mapValues, Offsets.get?_ofAssignments]
  cases hxs : accessesTo name as with
  | nil => exact absurd hxs h
  | cons x xs => rfl

theorem mem_dimensions_parts {d : Dimension} :
    d ∈ (Offsets.ofIndices ((accessesTo name as).flatMap Access.indices)).box.dimensions ↔
      ∃ x ∈ accessesTo name as, d ∈ x.dimensions := by
  simp only [Offsets.mem_dimensions_box, Access.mem_dimensions, List.mem_flatMap]
  exact ⟨fun ⟨o, x, hx, ho⟩ => ⟨x, hx, o, ho⟩, fun ⟨x, hx, o, ho⟩ => ⟨o, x, hx, ho⟩⟩

theorem spans_part {x : Access} (hx : x ∈ accessesTo name as) {d : Dimension} {o : Int}
    (ho : Index.affine d o ∈ x.indices) :
    ((Offsets.ofIndices ((accessesTo name as).flatMap Access.indices)).box.add s.box).Spans
      (s.box.addTo ⟨d, o, o⟩) := by
  have hdim := mem_dimensions_parts.2 ⟨x, hx, Access.mem_dimensions.2 ⟨o, ho⟩⟩
  obtain ⟨⟨d', l, u⟩, hi, rfl⟩ := List.mem_map.1 hdim
  obtain ⟨hleast, hgreatest⟩ := Offsets.isLeast_box hi
  have hmem := List.mem_flatMap.2 ⟨x, hx, ho⟩
  have hlower : l ≤ o := hleast.2 hmem
  have hupper : o ≤ u := hgreatest.2 hmem
  refine ⟨_, Box.mem_add.2 (.inl ⟨_, hi, rfl⟩), ?_⟩
  rw [Box.addTo_eq, Box.addTo_eq]
  exact ⟨rfl, by simpa using hlower, by simpa using hupper⟩

theorem exists_part (hds : ∀ x ∈ accessesTo name as, ∀ d, d ∈ x.dimensions ↔ d ∈ ds) {x : Access}
    (hx : x ∈ accessesTo name as) :
    ∃ b, (ofAssignments as s).parts.get? name = some b ∧ b.Admits s.box ds x := by
  refine ⟨_, get?_parts (List.ne_nil_of_mem hx), hds x hx, fun d o ho => spans_part hx ho,
    fun i hi hd => ?_⟩
  refine Box.spans_of_mem (Box.mem_add.2 (.inr ⟨hi, fun hmem => hd ?_⟩))
  obtain ⟨y, hy, hdy⟩ := mem_dimensions_parts.1 hmem
  exact (hds y hy i.dim).1 hdy

theorem exists_mem_part {x : Access} (hx : x ∈ accessesTo name as) {d : Dimension}
    (hd : d ∈ x.dimensions) : ∃ b, (ofAssignments as s).parts.get? name = some b ∧
      ∃ l u, (∃ y ∈ accessesTo name as, Index.affine d l ∈ y.indices) ∧
        (∃ y ∈ accessesTo name as, Index.affine d u ∈ y.indices) ∧
          s.box.addTo ⟨d, l, u⟩ ∈ b.intervals := by
  refine ⟨_, get?_parts (List.ne_nil_of_mem hx), ?_⟩
  obtain ⟨⟨d, l, u⟩, hi, rfl⟩ := List.mem_map.1 (mem_dimensions_parts.2 ⟨x, hx, hd⟩)
  obtain ⟨hleast, hgreatest⟩ := Offsets.isLeast_box hi
  exact ⟨l, u, List.mem_flatMap.1 hleast.1, List.mem_flatMap.1 hgreatest.1,
    Box.mem_add.2 (.inl ⟨_, hi, rfl⟩)⟩

end Footprint

end Accesses

end Stencil
