import Stencil.Alias
import Stencil.Cluster
import Stencil.Assignment.Invariance
import Stencil.Pass.Config

/-!
Lifting of redundant scalars into arrays: what is computed again at a neighbouring point is
computed once, by a cluster of its own, and read back from there.
-/

namespace Stencil.Lifting

variable {α : Type} [Arithmetic α]

/-- Whether a scalar is to be lifted: its group is redundant and expensive, or it is
time-invariant and more expensive still. -/
def isCandidate (config : Config) (gs : AliasGroups α) (t : TimeContext α) (a : Assignment α) :
    Bool :=
  let n := ((gs.get? a.rhs).map AliasGroup.size).getD 0
  let cost := a.rhs.cost true * n
  a.lhs.isSymbol &&
    (config.minAlias ≤ cost && 1 < n || config.minInvariant ≤ cost && t.isInvariant a.rhs)

abbrev Handles (α : Type) [Arithmetic α] := Table (Expr α) (List (Expr α))

def handles (as : List (Assignment α)) : Handles α :=
  as.foldl (fun t a => t.update a.rhs [] (· ++ [a.lhs])) .empty

/-- The box that the array of a group is stored over: the space dimensions from the first one
along which the members differ, or all of them if there is none. -/
def storage (s : IterationSpace) (g : AliasGroup α) : Box :=
  let d := g.diameter
  let is := (s.box.intervals.filter (!·.dim.isTime)).map fun i =>
    let (lo, hi) := (d.get? i.dim).getD (0, 0)
    (⟨i.dim, lo, hi⟩ : Interval)
  let b := Box.ofList is
  match b.intervals.findIdx? (!Interval.isExact ·) with
  | some n => b.drop n
  | none => b

def halo (b : Box) : List (Nat × Nat) :=
  b.intervals.map fun i => (i.lower.natAbs, i.upper.natAbs)

/-- The element of a stored array for the member at some distance from the point of iteration.
Positions are shifted so that the lowest one is zero past the lower bound. -/
def element (f : Field) (b : Box) (shift : Shift) : Expr α :=
  .access ⟨f, b.intervals.map fun i => .affine i.dim (-i.lower + shift i.dim)⟩

structure Lifted (α : Type) [Arithmetic α] where
  table : Substitution α
  clusters : List (Cluster α)

def readBack (hs : Handles α) (f : Field) (b : Box) (g : AliasGroup α) (t : Substitution α) :
    Substitution α :=
  g.members.foldl (fun t m =>
    let e := element f b m.2.shift
    let t := ((hs.get? m.1).getD []).foldl (fun t h => t.insert h e) t
    t.insert m.1 e) t

def fillCluster (c : Cluster α) (f : Field) (b : Box) (e : Expr α) : Cluster α :=
  let as : List (Assignment α) := [{ lhs := element f b fun _ => 0, rhs := e }]
  let s : IterationSpace := { c.space with box := c.space.box.add b }
  { c with
    assignments := as
    space := s
    footprint := ⟨c.footprint.total, (Footprint.ofAssignments as s).parts⟩ }

def liftGroup (c : Cluster α) (hs : Handles α) (l : Lifted α) (g : AliasGroup α) :
    StateM Names (Lifted α) := do
  if g.members.all fun m => !hs.contains m.1 then return l
  let b := storage c.space g
  let f := Field.temporary (← Names.take) (halo b)
  return {
    table := readBack hs f b g l.table
    clusters := l.clusters ++ [fillCluster c f b (g.origin.replace l.table)] }

def lift (config : Config) (c : Cluster α) : StateM Names (List (Cluster α)) := do
  let gs := AliasGroups.ofAssignments c.assignments
  let t := TimeContext.ofAssignments c.assignments
  let hs := handles (c.assignments.filter (isCandidate config gs t))
  let l ← gs.groups.values.foldlM (liftGroup c hs) ⟨.empty, []⟩
  let kept := c.assignments.filter (!isCandidate config gs t ·)
  return l.clusters ++ [c.withAssignments (kept.map (·.replace l.table))]

end Stencil.Lifting
