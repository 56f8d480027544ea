import Stencil.Expr.Rewriting
import Stencil.Assignment.Basic

namespace Stencil

abbrev Distance := Table Dimension Int

namespace Distance

def shift (t : Distance) : Shift := fun d => (t.get? d).getD 0

end Distance

/-- Expressions with a common origin, in the order of their appearance, and the distance at which
each of them lies. -/
structure AliasGroup (α : Type) where
  origin : Expr α
  members : List (Expr α × Distance)

namespace AliasGroup

variable {α : Type}

def size (g : AliasGroup α) : Nat := g.members.length

def widen (t : Table Dimension (Int × Int)) (x : Dimension × Int) : Table Dimension (Int × Int) :=
  t.update x.1 (0, 0) fun r => (min r.1 x.2, max r.2 x.2)

def diameter (g : AliasGroup α) : Table Dimension (Int × Int) :=
  g.members.foldl (fun t m => m.2.entries.foldl widen t) .empty

end AliasGroup

structure AliasGroups (α : Type) where
  groups : Table (Expr α) (AliasGroup α)
  origins : Table (Expr α) (Expr α)

namespace AliasGroups

variable {α : Type} [Arithmetic α]

def get? (gs : AliasGroups α) (e : Expr α) : Option (AliasGroup α) :=
  (gs.origins.get? e).bind gs.groups.get?

omit [Arithmetic α] in
def corner (e : Expr α) : Distance :=
  let t : Distance := (e.accesses.flatMap Access.indices).foldl (fun t i =>
    match i with
    | .affine d o => if d.isTime then t else t.update d o (min o)
    | .const _ => t) .empty
  ⟨t.entries.mergeSort fun x y => x.1.cmp y.1 != .gt⟩

/-- Whether an assignment takes part: it defines a scalar by an expression that reads an array
and none of the scalars `defined` here. -/
def isEligible (defined : List String) (a : Assignment α) : Bool :=
  a.lhs.isSymbol && !a.rhs.accesses.isEmpty && !a.rhs.symbols.any defined.contains

/-- The eligible right-hand sides by what they are when moved to the corner zero, each once and
with its corner. -/
def classes (as : List (Assignment α)) : Table (Expr α) (List (Expr α × Distance)) :=
  let defined := as.filterMap Assignment.target?
  (as.filter (isEligible defined)).foldl (fun t a =>
    let p := corner a.rhs
    let key := a.rhs.displace (Distance.shift (p.mapValues (- ·)))
    t.update key [] fun ms => if ms.any (·.1 == a.rhs) then ms else ms ++ [(a.rhs, p)]) .empty

omit [Arithmetic α] in
def centre (ps : List Distance) : Distance :=
  let total : Distance :=
    ps.foldl (fun t p => p.entries.foldl (fun t x => t.update x.1 0 (· + x.2)) t) .empty
  total.mapValues (Int.tdiv · ps.length)

def group (key : Expr α) (ms : List (Expr α × Distance)) : AliasGroup α :=
  let c := centre (ms.map (·.2))
  { origin := key.displace c.shift
    members := ms.map fun m => (m.1, ⟨m.2.entries.map fun x => (x.1, x.2 - c.shift x.1)⟩) }

def ofAssignments (as : List (Assignment α)) : AliasGroups α :=
  (classes as).entries.foldl (fun gs x =>
    let g := group x.1 x.2
    { groups := gs.groups.insert g.origin g
      origins := g.members.foldl (fun t m => t.insert m.1 g.origin) gs.origins })
    ⟨.empty, .empty⟩

end AliasGroups

end Stencil
