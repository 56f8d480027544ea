import Stencil.Binary64.Basic
import Stencil.Tuning.Search

namespace Stencil

structure TimedRun where
  binding : Binding
  elapsed : Binary64
  deriving DecidableEq

namespace TimedRun

def assignText (x : String × Int) : String := x.1 ++ "=" ++ toString x.2

def text (r : TimedRun) : String := ",".intercalate (r.binding.map assignText)

end TimedRun

abbrev Results := List TimedRun

namespace Results

/-- The fastest run, and the earliest of several. -/
def best? : Results → Option TimedRun
  | [] => none
  | r :: rs =>
    match best? rs with
    | none => some r
    | some b => if Binary64.cmp b.elapsed r.elapsed == .lt then some b else some r

def sorted (rs : Results) : Results :=
  rs.mergeSort fun a b => Binary64.cmp a.elapsed b.elapsed != .gt

def csv (rs : Results) : String :=
  "run,elapsed\n" ++ String.join (rs.map fun r =>
    "\"" ++ r.text ++ "\"," ++ Binary64.secondsText r.elapsed ++ "\n")

end Results

structure Summary where
  runs : Nat := 0
  stepsPerRun : Int := 0
  tuned : Table String Int := .empty
  deriving DecidableEq

namespace Summary

def isEmpty (s : Summary) : Bool := s = {}

def text (s : Summary) : String :=
  "runs=" ++ toString s.runs ++ " tpr=" ++ toString s.stepsPerRun ++ " tuned=[" ++
    ", ".intercalate (s.tuned.entries.map TimedRun.assignText) ++ "]"

end Summary

end Stencil
