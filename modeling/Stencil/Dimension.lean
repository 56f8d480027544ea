namespace Stencil

inductive DimensionKind where
  | time
  | space
  deriving DecidableEq

namespace DimensionKind

protected def cmp : DimensionKind → DimensionKind → Ordering
  | time, space => .lt
  | space, time => .gt
  | _, _ => .eq

end DimensionKind

structure Dimension where
  name : String
  kind : DimensionKind
  deriving DecidableEq

namespace Dimension

def time (name : String) : Dimension := ⟨name, .time⟩

def space (name : String) : Dimension := ⟨name, .space⟩

def isTime (d : Dimension) : Bool := d.kind = .time

def lowerName (d : Dimension) : String := d.name ++ "_m"

def upperName (d : Dimension) : String := d.name ++ "_M"

protected def cmp (a b : Dimension) : Ordering :=
  (compare a.name b.name).then (a.kind.cmp b.kind)

end Dimension

end Stencil
