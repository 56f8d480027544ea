import Stencil.Space.Box
import Stencil.Assignment.Basic

namespace Stencil

abbrev Offsets := Table Dimension (List Int)

/-- The boxes touched in each array, and a box that covers all of them. -/
structure Footprint where
  total : Box
  parts : Table String Box
  deriving DecidableEq

namespace Offsets

def record (t : Offsets) : Index → Offsets
  | .const _ => t
  | .affine d o => t.update d [] (· ++ [o])

def box (t : Offsets) : Box :=
  .ofList (t.entries.filterMap fun (d, os) => do return ⟨d, ← os.min?, ← os.max?⟩)

def ofAssignments {α : Type} (as : List (Assignment α)) : Table String Offsets :=
  (as.flatMap Assignment.accesses).foldl
    (fun t a => t.update a.field.name .empty fun os => a.indices.foldl record os) .empty

end Offsets

namespace Footprint

def ofAssignments {α : Type} (as : List (Assignment α)) (s : IterationSpace) : Footprint :=
  let parts := (Offsets.ofAssignments as).mapValues fun os => os.box.add s.box
  ⟨parts.values.foldl Box.union .empty, parts⟩

end Footprint

end Stencil
