import Mathlib.Data.List.Perm.Lattice
import Mathlib.Order.Lattice
import Stencil.Proofs.Space.Box

/-!
Boxes dimension by dimension. A box is determined by the order of its dimensions and by its offsets
along each of them, and these say what its operations do.
-/

namespace Stencil

abbrev Span := Int × Int

namespace Span

def add (s t : Span) : Span := (s.1 + t.1, s.2 + t.2)

def hull (s t : Span) : Span := (min s.1 t.1, max s.2 t.2)

instance : Std.Associative add := ⟨fun s t u => by simp [add, Int.add_assoc]⟩

instance : Std.Commutative add := ⟨fun s t => by simp [add, Int.add_comm]⟩

instance : Std.Associative hull := ⟨fun s t u => by simp [hull, min_assoc, max_assoc]⟩

instance : Std.Commutative hull := ⟨fun s t => by simp [hull, min_comm, max_comm]⟩

instance : Std.IdempotentOp hull := ⟨fun s => by simp [hull]⟩

end Span

def appendNew (ds es : List Dimension) : List Dimension := ds ++ es.filter (· ∉ ds)

section AppendNew

variable {ds es : List Dimension} {d : Dimension}

theorem mem_appendNew : d ∈ appendNew ds es ↔ d ∈ ds ∨ d ∈ es := by
  by_cases h : d ∈ ds <;> simp [appendNew, h]

theorem nodup_appendNew (hds : ds.Nodup) (hes : es.Nodup) : (appendNew ds es).Nodup := by
  refine List.nodup_append.2 ⟨hds, hes.filter _, ?_⟩
  rintro d hd _ he rfl
  simp [hd] at he

theorem appendNew_assoc (ds es fs : List Dimension) :
    appendNew (appendNew ds es) fs = appendNew ds (appendNew es fs) := by
  have hnew : fs.filter (· ∉ appendNew ds es) = (fs.filter (· ∉ es)).filter (· ∉ ds) := by
    rw [List.filter_filter]
    refine List.filter_congr fun d _ => ?_
    simp [mem_appendNew]
  show (ds ++ es.filter _) ++ fs.filter _ = ds ++ (es ++ fs.filter _).filter _
  rw [hnew, List.filter_append, List.append_assoc]

theorem appendNew_comm (hds : ds.Nodup) (hes : es.Nodup) :
    (appendNew ds es).Perm (appendNew es ds) := by
  apply (List.perm_ext_iff_of_nodup (nodup_appendNew hds hes) (nodup_appendNew hes hds)).2
  intro d
  rw [mem_appendNew, mem_appendNew, or_comm]

theorem appendNew_singleton (ds : List Dimension) (d : Dimension) :
    appendNew ds [d] = if d ∈ ds then ds else ds ++ [d] := by
  by_cases h : d ∈ ds <;> simp only [appendNew, h, if_true, if_false]
  · rw [List.filter_cons_of_neg (by simpa using h), List.filter_nil, List.append_nil]
  · rw [List.filter_cons_of_pos (by simpa using h), List.filter_nil]

theorem eraseDups_append_singleton (ds : List Dimension) (d : Dimension) :
    (ds ++ [d]).eraseDups = appendNew ds.eraseDups [d] := by
  rw [List.eraseDups_append, appendNew_singleton]
  by_cases h : d ∈ ds <;> simp [List.removeAll, h, List.eraseDups_cons]

theorem eraseDups_of_nodup (h : ds.Nodup) : ds.eraseDups = ds := by
  induction ds using List.reverseRecOn with
  | nil => rfl
  | append_singleton ds d ih =>
    obtain ⟨hds, -, hne⟩ := List.nodup_append.1 h
    have hd : d ∉ ds := fun hd => hne d hd d (List.mem_singleton_self d) rfl
    rw [eraseDups_append_singleton, ih hds, appendNew_singleton, if_neg hd]

theorem appendNew_self (ds : List Dimension) : appendNew ds ds = ds := by
  simp [appendNew]

end AppendNew

namespace Box

variable {a b : Box} {d : Dimension} {i : Interval} {is : List Interval}

def offsets (b : Box) (d : Dimension) : Option Span :=
  (b.get? d).map fun i => (i.lower, i.upper)

theorem dim_of_get? (h : b.get? d = some i) : i.dim = d := by
  have hdim := List.find?_some h
  simpa using hdim

theorem get?_eq (b : Box) (d : Dimension) :
    b.get? d = (b.offsets d).map fun o => ⟨d, o.1, o.2⟩ := by
  rw [offsets]
  cases h : b.get? d with
  | none => rfl
  | some i => rw [← dim_of_get? h]; rfl

theorem offsets_eq_none : b.offsets d = none ↔ d ∉ b.dimensions := by
  rw [offsets, Option.map_eq_none_iff]
  refine ⟨fun h hd => ?_, get?_of_not_mem⟩
  obtain ⟨i, hi, rfl⟩ := List.mem_map.1 hd
  rw [get?_of_mem hi] at h
  cases h

theorem offsets_of_mem (h : i ∈ b.intervals) : b.offsets i.dim = some (i.lower, i.upper) := by
  rw [offsets, get?_of_mem h]
  rfl

theorem intervals_eq (b : Box) :
    b.intervals = b.dimensions.filterMap fun d => (b.offsets d).map fun o => ⟨d, o.1, o.2⟩ := by
  simp only [← get?_eq, dimensions, List.filterMap_map]
  have hget : ∀ i ∈ b.intervals, (b.get? ∘ Interval.dim) i = some i := fun i hi => get?_of_mem hi
  exact (List.filterMap_some.symm.trans (List.filterMap_congr hget).symm)

theorem ext_offsets (hdims : a.dimensions = b.dimensions) (h : ∀ d, a.offsets d = b.offsets d) :
    a = b := by
  have hintervals : a.intervals = b.intervals := by
    rw [intervals_eq a, intervals_eq b, hdims]
    simp only [h]
  cases a
  cases b
  simpa using hintervals

theorem perm_of_offsets (hdims : a.dimensions.Perm b.dimensions)
    (h : ∀ d, a.offsets d = b.offsets d) : a.intervals.Perm b.intervals := by
  rw [intervals_eq a, intervals_eq b]
  simp only [h]
  exact hdims.filterMap _

theorem filter_dim (b : Box) (d : Dimension) :
    b.intervals.filter (·.dim = d) = ((b.offsets d).map fun o => ⟨d, o.1, o.2⟩).toList := by
  rw [← get?_eq]
  obtain ⟨is, hn⟩ := b
  simp only [get?]
  induction is with
  | nil => rfl
  | cons i is ih =>
    obtain ⟨hi, his⟩ := List.nodup_cons.1 hn
    by_cases hd : i.dim = d
    · have hnone : is.filter (·.dim = d) = [] := by
        rw [List.filter_eq_nil_iff]
        intro j hj
        have hne : j.dim ≠ d := fun hjd => hi (hd ▸ hjd ▸ List.mem_map_of_mem hj)
        simpa using hne
      simp [hd, hnone]
    · rw [List.filter_cons_of_neg (by simpa using hd), List.find?_cons_of_neg (by simpa using hd)]
      exact ih his

section Joins

theorem dimensions_join (b : Box) (i : Interval) :
    (b.join i).dimensions = appendNew b.dimensions [i.dim] := by
  show (joinInto i b.intervals).map Interval.dim = _
  rw [map_dim_joinInto, appendNew_singleton]
  rfl

theorem offsets_join (b : Box) (i : Interval) (d : Dimension) :
    (b.join i).offsets d =
      if i.dim = d then (b.offsets d).merge Span.hull (some (i.lower, i.upper))
      else b.offsets d := by
  obtain ⟨is, hn⟩ := b
  simp only [offsets, get?, join]
  clear hn
  induction is with
  | nil => by_cases h : i.dim = d <;> simp [joinInto, h]
  | cons j is ih =>
    rw [joinInto]
    by_cases hj : j.dim = i.dim
    · rw [if_pos hj]
      by_cases h : i.dim = d
      · simp [Interval.hull, Span.hull, hj, h]
      · simp [Interval.hull, hj, h]
    · rw [if_neg hj]
      by_cases h : j.dim = d
      · have hne : i.dim ≠ d := fun hi => hj (h.trans hi.symm)
        simp [h, hne]
      · simpa [h] using ih

def covering (is : List Interval) (d : Dimension) : Option Span := do
  let same := is.filter (·.dim = d)
  return (← (same.map Interval.lower).min?, ← (same.map Interval.upper).max?)

theorem covering_cons (i : Interval) (is : List Interval) (d : Dimension) :
    covering (i :: is) d =
      if i.dim = d then Option.merge Span.hull (some (i.lower, i.upper)) (covering is d)
      else covering is d := by
  by_cases h : i.dim = d
  · rw [if_pos h, covering, covering, List.filter_cons_of_pos (by simpa using h)]
    cases hsame : is.filter (·.dim = d) with
    | nil => rfl
    | cons j js => simp [Span.hull]
  · rw [if_neg h, covering, covering, List.filter_cons_of_neg (by simpa using h)]

theorem covering_intervals (b : Box) (d : Dimension) : covering b.intervals d = b.offsets d := by
  rw [covering, filter_dim]
  cases b.offsets d <;> rfl

theorem offsets_foldl_join (is : List Interval) (b : Box) (d : Dimension) :
    (is.foldl join b).offsets d = (b.offsets d).merge Span.hull (covering is d) := by
  induction is generalizing b with
  | nil => simp [covering]
  | cons i is ih =>
    rw [List.foldl_cons, ih, offsets_join, covering_cons]
    by_cases h : i.dim = d
    · rw [if_pos h, if_pos h]
      exact Std.Associative.assoc _ _ _
    · rw [if_neg h, if_neg h]

theorem dimensions_foldl_join (is : List Interval) (b : Box) :
    (is.foldl join b).dimensions = appendNew b.dimensions (is.map Interval.dim).eraseDups := by
  induction is using List.reverseRecOn with
  | nil => simp [appendNew]
  | append_singleton is i ih =>
    rw [List.foldl_append, List.foldl_cons, List.foldl_nil, dimensions_join, ih, appendNew_assoc,
      List.map_append, List.map_singleton, eraseDups_append_singleton]

end Joins

section Operations

theorem dimensions_union (a b : Box) :
    (a.union b).dimensions = appendNew a.dimensions b.dimensions := by
  rw [union, dimensions_foldl_join]
  exact congrArg _ (eraseDups_of_nodup b.nodup)

theorem offsets_union (a b : Box) (d : Dimension) :
    (a.union b).offsets d = (a.offsets d).merge Span.hull (b.offsets d) := by
  rw [union, offsets_foldl_join, covering_intervals]

theorem dimensions_add (a b : Box) :
    (a.add b).dimensions = appendNew a.dimensions b.dimensions := by
  show (a.intervals.map b.addTo ++ extra a b).map Interval.dim = _
  have hextra : (extra a b).map Interval.dim = b.dimensions.filter (· ∉ a.dimensions) := by
    rw [extra, show b.dimensions = b.intervals.map Interval.dim from rfl, List.filter_map]
    refine congrArg _ (List.filter_congr fun i _ => ?_)
    rw [get?_eq, Option.isNone_map, Bool.eq_iff_iff, Option.isNone_iff_eq_none, offsets_eq_none]
    simp
  rw [List.map_append, hextra, List.map_map, appendNew]
  exact congrArg (· ++ _) (List.map_congr_left fun i _ => dim_addTo b i)

theorem offsets_add (a b : Box) (d : Dimension) :
    (a.add b).offsets d = (a.offsets d).merge Span.add (b.offsets d) := by
  have hdim : (fun i : Interval => decide (i.dim = d)) ∘ b.addTo = fun i => decide (i.dim = d) := by
    funext i
    simp [dim_addTo]
  have hget : (a.add b).get? d = ((a.get? d).map b.addTo).or (b.get? d) := by
    show (a.intervals.map b.addTo ++ extra a b).find? (·.dim = d) = _
    rw [List.find?_append, List.find?_map, hdim]
    cases ha : a.get? d with
    | some i =>
      rw [get?] at ha
      rw [ha]
      rfl
    | none =>
      have hextra : (extra a b).find? (·.dim = d) = b.get? d := by
        rw [extra, List.find?_filter, get?]
        congr 1
        funext i
        by_cases hi : i.dim = d <;> simp [hi, ha]
      rw [get?] at ha
      rw [ha, hextra, Option.map_none]
  rw [offsets, hget, offsets, offsets]
  cases ha : a.get? d with
  | none => cases b.get? d <;> rfl
  | some i =>
    obtain rfl := dim_of_get? ha
    cases hb : b.get? i.dim <;> simp [addTo, hb, Interval.add, Span.add]

theorem dimensions_drop (n : Nat) (b : Box) : (b.drop n).dimensions = b.dimensions.drop n :=
  List.map_drop

theorem offsets_drop (n : Nat) (b : Box) (d : Dimension) :
    (b.drop n).offsets d = if d ∈ b.dimensions.drop n then b.offsets d else none := by
  rw [← dimensions_drop]
  split
  · rename_i h
    obtain ⟨i, hi, rfl⟩ := List.mem_map.1 h
    rw [offsets_of_mem hi, offsets_of_mem (List.mem_of_mem_drop hi)]
  · rename_i h
    exact offsets_eq_none.2 h

theorem dimensions_ofList (is : List Interval) :
    (ofList is).dimensions = (is.map Interval.dim).eraseDups := by
  rw [ofList, dimensions_foldl_join]
  simp [appendNew, dimensions, empty]

theorem offsets_ofList (is : List Interval) (d : Dimension) :
    (ofList is).offsets d = covering is d := by
  rw [ofList, offsets_foldl_join]
  exact Option.merge_none_left

end Operations

section Laws

theorem union_assoc (a b c : Box) : (a.union b).union c = a.union (b.union c) := by
  apply ext_offsets
  · simp only [dimensions_union, appendNew_assoc]
  · intro d
    simp only [offsets_union]
    exact Std.Associative.assoc _ _ _

theorem add_assoc (a b c : Box) : (a.add b).add c = a.add (b.add c) := by
  apply ext_offsets
  · simp only [dimensions_add, appendNew_assoc]
  · intro d
    simp only [offsets_add]
    exact Std.Associative.assoc _ _ _

theorem union_comm (a b : Box) : (a.union b).intervals.Perm (b.union a).intervals := by
  apply perm_of_offsets
  · rw [dimensions_union, dimensions_union]
    exact appendNew_comm a.nodup b.nodup
  · intro d
    rw [offsets_union, offsets_union]
    exact Std.Commutative.comm _ _

theorem add_comm (a b : Box) : (a.add b).intervals.Perm (b.add a).intervals := by
  apply perm_of_offsets
  · rw [dimensions_add, dimensions_add]
    exact appendNew_comm a.nodup b.nodup
  · intro d
    rw [offsets_add, offsets_add]
    exact Std.Commutative.comm _ _

theorem union_self (a : Box) : a.union a = a := by
  apply ext_offsets
  · rw [dimensions_union, appendNew_self]
  · intro d
    rw [offsets_union]
    exact Std.IdempotentOp.idempotent _

end Laws

end Box

inductive Composition where
  | ofList (is : List Interval)
  | add (a b : Composition)
  | union (a b : Composition)
  | drop (n : Nat) (a : Composition)

namespace Composition

def box : Composition → Box
  | ofList is => .ofList is
  | add a b => a.box.add b.box
  | union a b => a.box.union b.box
  | drop n a => a.box.drop n

/-- The dimensions in order: those of the left operand come before the new ones of the right one. -/
def order : Composition → List Dimension
  | ofList is => (is.map Interval.dim).eraseDups
  | add a b | union a b => appendNew a.order b.order
  | drop n a => a.order.drop n

/-- The offsets along a dimension. A side of a sum that does not have it counts as zero, and one of
a union does not count. -/
def offsets (d : Dimension) : Composition → Option Span
  | ofList is => Box.covering is d
  | add a b =>
    match a.offsets d, b.offsets d with
    | none, none => none
    | s, t => some (.add (s.getD (0, 0)) (t.getD (0, 0)))
  | union a b => (a.offsets d).merge Span.hull (b.offsets d)
  | drop n a => if d ∈ a.order.drop n then a.offsets d else none

theorem dimensions_box (c : Composition) : c.box.dimensions = c.order := by
  induction c with
  | ofList is => exact Box.dimensions_ofList is
  | add a b iha ihb => rw [box, Box.dimensions_add, iha, ihb, order]
  | union a b iha ihb => rw [box, Box.dimensions_union, iha, ihb, order]
  | drop n a ih => rw [box, Box.dimensions_drop, ih, order]

theorem offsets_box (d : Dimension) (c : Composition) : c.box.offsets d = c.offsets d := by
  induction c with
  | ofList is => exact Box.offsets_ofList is d
  | add a b iha ihb =>
    rw [box, Box.offsets_add, iha, ihb, offsets]
    cases a.offsets d <;> cases b.offsets d <;> simp [Span.add]
  | union a b iha ihb => rw [box, Box.offsets_union, iha, ihb, offsets]
  | drop n a ih => rw [box, Box.offsets_drop, ih, dimensions_box, offsets]

theorem nodup_order (c : Composition) : c.order.Nodup := by
  rw [← dimensions_box]
  exact c.box.nodup

/-- However a box is made, it has the dimensions in order, and over each of them one interval, with
the offsets that the parts add up to. Sums and unions are associative, and commutative up to the
order of the dimensions. -/
theorem box_composed :
    (∀ c : Composition, c.box.dimensions = c.order ∧ c.order.Nodup ∧
      ∀ d, c.box.intervals.filter (·.dim = d) =
        ((c.offsets d).map fun s => ⟨d, s.1, s.2⟩).toList) ∧
      (∀ a b c : Box, (a.add b).add c = a.add (b.add c) ∧
        (a.union b).union c = a.union (b.union c)) ∧
      (∀ a b : Box, (a.add b).intervals.Perm (b.add a).intervals ∧
        (a.union b).intervals.Perm (b.union a).intervals) ∧
      ∀ a : Box, a.union a = a := by
  refine ⟨fun c => ⟨c.dimensions_box, c.nodup_order, fun d => ?_⟩,
    fun a b c => ⟨Box.add_assoc a b c, Box.union_assoc a b c⟩,
    fun a b => ⟨Box.add_comm a b, Box.union_comm a b⟩, Box.union_self⟩
  rw [Box.filter_dim, offsets_box]

end Composition

end Stencil
