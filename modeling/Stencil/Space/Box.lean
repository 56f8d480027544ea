import Stencil.Dimension
import Stencil.Table

namespace Stencil

/-- Offsets from the run-time bounds of a dimension: from `lower` past its lower bound to `upper`
past its upper bound. -/
structure Interval where
  dim : Dimension
  lower : Int
  upper : Int
  deriving DecidableEq

namespace Interval

def exact (d : Dimension) : Interval := ⟨d, 0, 0⟩

def isExact (i : Interval) : Bool := i.lower == 0 && i.upper == 0

def add (i j : Interval) : Interval := ⟨i.dim, i.lower + j.lower, i.upper + j.upper⟩

def hull (i j : Interval) : Interval := ⟨i.dim, min i.lower j.lower, max i.upper j.upper⟩

def text (i : Interval) : String :=
  i.dim.name ++ "[" ++ toString i.lower ++ ", " ++ toString i.upper ++ "]"

end Interval

structure Box where
  intervals : List Interval
  nodup : (intervals.map Interval.dim).Nodup
  deriving DecidableEq

namespace Box

def joinInto (i : Interval) : List Interval → List Interval
  | [] => [i]
  | j :: r => if j.dim = i.dim then j.hull i :: r else j :: joinInto i r

theorem map_dim_joinInto (i : Interval) (is : List Interval) :
    (joinInto i is).map Interval.dim =
      if i.dim ∈ is.map Interval.dim then is.map Interval.dim
      else is.map Interval.dim ++ [i.dim] := by
  induction is with
  | nil => simp [joinInto]
  | cons j r ih =>
    by_cases h : j.dim = i.dim
    · simp [joinInto, h, Interval.hull]
    · simp only [joinInto, h, if_false, List.map_cons, ih, List.mem_cons, Ne.symm h, false_or]
      split <;> simp

theorem nodup_joinInto (i : Interval) {is : List Interval} (h : (is.map Interval.dim).Nodup) :
    ((joinInto i is).map Interval.dim).Nodup := by
  rw [map_dim_joinInto]
  split
  · exact h
  · rename_i hi
    rw [List.nodup_append]
    refine ⟨h, by simp, ?_⟩
    simp only [List.mem_singleton]
    rintro d hd _ rfl rfl
    exact hi hd

def empty : Box := ⟨[], by simp⟩

def join (b : Box) (i : Interval) : Box := ⟨joinInto i b.intervals, nodup_joinInto i b.nodup⟩

def ofList (is : List Interval) : Box := is.foldl join empty

def size (b : Box) : Nat := b.intervals.length

def isEmpty (b : Box) : Bool := b.intervals.isEmpty

def get? (b : Box) (d : Dimension) : Option Interval := b.intervals.find? (·.dim = d)

def dimensions (b : Box) : List Dimension := b.intervals.map Interval.dim

def drop (n : Nat) (b : Box) : Box :=
  ⟨b.intervals.drop n, b.nodup.sublist ((List.drop_sublist n _).map _)⟩

def union (a b : Box) : Box := b.intervals.foldl join a

def extra (a b : Box) : List Interval := b.intervals.filter fun i => (a.get? i.dim).isNone

def addTo (b : Box) (i : Interval) : Interval :=
  match b.get? i.dim with
  | some j => i.add j
  | none => i

theorem dim_addTo (b : Box) (i : Interval) : (b.addTo i).dim = i.dim := by
  unfold addTo
  split <;> rfl

def add (a b : Box) : Box where
  intervals := a.intervals.map b.addTo ++ extra a b
  nodup := by
    have h : (a.intervals.map b.addTo).map Interval.dim = a.intervals.map Interval.dim := by
      simp [List.map_map, Function.comp_def, dim_addTo]
    rw [List.map_append, h, List.nodup_append]
    refine ⟨a.nodup, b.nodup.sublist (List.filter_sublist.map _), ?_⟩
    rintro d hd _ hd' rfl
    obtain ⟨i, hi, rfl⟩ := List.mem_map.1 hd'
    obtain ⟨j, hj, hij⟩ := List.mem_map.1 hd
    have hn := (List.mem_filter.1 hi).2
    simp only [get?, Option.isNone_iff_eq_none, List.find?_eq_none, decide_eq_true_eq] at hn
    exact hn j hj hij

def text (b : Box) : String := "[" ++ ", ".intercalate (b.intervals.map Interval.text) ++ "]"

end Box

inductive Direction where
  | forward
  | backward
  | any
  deriving DecidableEq

/-- The box that a group of assignments is executed over, outermost dimension first, and the
directions of its dimensions. -/
structure IterationSpace where
  box : Box
  directions : Table Dimension Direction
  deriving DecidableEq

namespace IterationSpace

def ofDimensions (ds : List Dimension) : IterationSpace where
  box := .ofList (ds.map .exact)
  directions := .ofList (ds.map fun d => (d, if d.isTime then .forward else .any))

def direction (s : IterationSpace) (d : Dimension) : Direction := (s.directions.get? d).getD .any

end IterationSpace

end Stencil
