import Stencil.Tuning.Kernel
import Stencil.Tuning.Options

/-!
The window of time steps that a run executes. In `runtime` mode the window slides along the range
of the caller, so that runs do part of the real computation.
-/

namespace Stencil

structure TimeLoop where
  dim : Dimension
  direction : Direction
  deriving DecidableEq

namespace TimeLoop

def ofLoop (l : Loop) : TimeLoop := ⟨l.dim, l.direction⟩

def isBackward (t : TimeLoop) : Bool := t.direction = .backward

/-- Shrinks the bounds to a window where the loop starts. Returns the number of its steps; none
if the range is unknown or the window would be empty. -/
def firstWindow? (t : TimeLoop) (args : Arguments) (extraSteps : Int) :
    Option (Int × Arguments) := do
  let lo ← args.int? t.dim.lowerName
  let hi ← args.int? t.dim.upperName
  let (lo, hi) := if t.isBackward then (hi - extraSteps, hi) else (lo, lo + extraSteps)
  if hi < lo then none
  else
    return (hi - lo + 1,
      (args.insert t.dim.lowerName (.int lo)).insert t.dim.upperName (.int hi))

def fits (t : TimeLoop) (work caller : Arguments) (m : Mode) : Bool :=
  match m with
  | .preemptive => true
  | .runtime =>
    let name := if t.isBackward then t.dim.lowerName else t.dim.upperName
    match work.int? name, caller.int? name with
    | some v, some limit => if t.isBackward then limit ≤ v else v ≤ limit
    | _, _ => false

def shiftBound (args : Arguments) (name : String) (n : Int) : Arguments :=
  match args.int? name with
  | some v => args.insert name (.int (v + n))
  | none => args

def slide (t : TimeLoop) (args : Arguments) (steps : Int) (m : Mode) : Arguments :=
  match m with
  | .preemptive => args
  | .runtime =>
    let n := if t.isBackward then -steps else steps
    shiftBound (shiftBound args t.dim.lowerName n) t.dim.upperName n

def resume (t : TimeLoop) (work caller : Arguments) (m : Mode) : Arguments :=
  match m with
  | .preemptive => caller
  | .runtime =>
    let name := if t.isBackward then t.dim.upperName else t.dim.lowerName
    match work.int? name with
    | some v => caller.insert name (.int v)
    | none => caller

end TimeLoop

end Stencil
