import Stencil.Space.Footprint

namespace Stencil

inductive Precision where
  | single
  | double
  deriving DecidableEq

structure Cluster (α : Type) where
  assignments : List (Assignment α)
  space : IterationSpace
  footprint : Footprint
  precision : Precision := .double
  /-- Whether its operations count. -/
  dense : Bool := true

namespace Cluster

variable {α : Type}

def ofAssignments (as : List (Assignment α)) (ds : List Dimension) : Cluster α :=
  let s := IterationSpace.ofDimensions ds
  { assignments := as, space := s, footprint := .ofAssignments as s }

def withAssignments (c : Cluster α) (as : List (Assignment α)) : Cluster α :=
  { c with assignments := as }

variable [Arithmetic α]

def ops (c : Cluster α) : Nat := totalCost false c.assignments

def text (c : Cluster α) : String :=
  "cluster " ++ c.space.box.text ++ "\n" ++
    String.join (c.assignments.map fun a => "  " ++ a.text ++ "\n")

end Cluster

end Stencil
