import Stencil.Pass.Basic

namespace Stencil

structure Pipeline (α : Type) where
  clusters : List (Cluster α)
  names : Names
  ops : Table String Nat := .empty
  steps : List String := []

namespace Pipeline

variable {α : Type} [Arithmetic α]

def denseOps (s : Pipeline α) : Nat :=
  (s.clusters.filter (·.dense)).foldr (fun c n => c.ops + n) 0

/-- Runs a step over every cluster. A step that leaves no cluster at all changes none. The label
of a step is its name with its number. -/
def apply (config : Config) (name : String) (step : Cluster α → StateM Names (List (Cluster α)))
    (s : Pipeline α) : Pipeline α :=
  let (produced, names) := (s.clusters.mapM step).run s.names
  let clusters := if produced.flatten.isEmpty then s.clusters else produced.flatten
  let label := name ++ toString s.steps.length
  let s := { s with clusters := clusters, names := names, steps := s.steps ++ [label] }
  if config.profile then { s with ops := s.ops.insert label s.denseOps } else s

def pass (config : Config) (p : Pass) : Pipeline α → Pipeline α :=
  apply config p.name fun c => p.run config c

def finalize (config : Config) : Pipeline α → Pipeline α :=
  apply config "finalize" fun c => return [ScalarPass.finalize c]

def start (config : Config) (c : Cluster α) : Pipeline α := ⟨[c], ⟨config.stem, 0⟩, .empty, []⟩

/-- Runs passes and then finalizes. Increments are made compact first, so that no pass sees the
target of an increment among its terms. -/
def runPasses (config : Config) (ps : List Pass) (c : Cluster α) : Pipeline α :=
  let c := c.withAssignments (c.assignments.map Assignment.compact)
  finalize config (ps.foldl (fun s p => pass config p s) (start config c))

def run (config : Config) (m : Recipe) (c : Cluster α) : Pipeline α :=
  runPasses config m.passes c

end Pipeline

end Stencil
