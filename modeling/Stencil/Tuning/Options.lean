namespace Stencil

inductive Level where
  | basic
  | aggressive
  deriving DecidableEq

/-- Whether runs work on copies of the outputs, or advance the real computation. -/
inductive Mode where
  | preemptive
  | runtime
  deriving DecidableEq

namespace Level

def name : Level → String
  | basic => "basic"
  | aggressive => "aggressive"

def ofName? : String → Option Level
  | "basic" => some basic
  | "aggressive" => some aggressive
  | _ => none

theorem ofName?_name (l : Level) : ofName? l.name = some l := by cases l <;> rfl

end Level

namespace Mode

def name : Mode → String
  | preemptive => "preemptive"
  | runtime => "runtime"

def ofName? : String → Option Mode
  | "preemptive" => some preemptive
  | "runtime" => some runtime
  | _ => none

theorem ofName?_name (m : Mode) : ofName? m.name = some m := by cases m <;> rfl

end Mode

inductive TuningError where
  | invalidCombination (accepted : List (String × String)) (level mode : String)
  | missingArgument (parameter : String)
  deriving DecidableEq

namespace TuningError

def pairText (p : String × String) : String := "(" ++ p.1 ++ ", " ++ p.2 ++ ")"

def message : TuningError → String
  | invalidCombination accepted level mode =>
    "The accepted `(level, mode)` combinations are `" ++
      ", ".intercalate (accepted.map pairText) ++ "`; provided `" ++ pairText (level, mode) ++
      "` instead"
  | missingArgument p => "No argument for kernel parameter `" ++ p ++ "`"

end TuningError

structure Options where
  /-- Time steps of a run, less one. -/
  extraSteps : Int := 4
  blockSizes : List Int := [8, 16, 24, 32, 40, 64, 128]
  stackLimit : Nat := 18446744073709551615
  manyCore : Bool := false
  cores : Nat := 8
  /-- Keeps runs that leave every thread less than one block of work. -/
  permitSmall : Bool := false
  accepted : List (String × String) :=
    [("basic", "preemptive"), ("aggressive", "preemptive"), ("basic", "runtime"),
      ("aggressive", "runtime")]
  deriving DecidableEq

namespace Options

def quick : Options := { extraSteps := 2, blockSizes := [16, 32, 64] }

def thorough : Options :=
  { extraSteps := 8, blockSizes := [8, 16, 24, 32, 40, 64, 128, 256] }

def accept (o : Options) (level mode : String) : Except TuningError (Level × Mode) :=
  let invalid := .error (.invalidCombination o.accepted level mode)
  if o.accepted.contains (level, mode) then
    match Level.ofName? level, Mode.ofName? mode with
    | some l, some m => .ok (l, m)
    | _, _ => invalid
  else invalid

end Options

end Stencil
