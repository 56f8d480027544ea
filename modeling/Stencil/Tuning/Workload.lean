import Stencil.Tuning.Candidates

namespace Stencil

abbrev Blocked := String × Dimension

structure Workload where
  loops : List Blocked
  threads : String
  deriving DecidableEq

namespace Workload

def blocked? (blocks : List KernelDimension) (d : Dimension) : Option Blocked :=
  blocks.findSome? fun b =>
    match b.block? with
    | some (dim, step, root) => if dim = d then some (step, root) else none
    | none => none

/-- The loops that run as one with the first loop below the time loops. -/
def parallelLoops (nest : LoopNest) : List Loop :=
  let inner := nest.dropWhile (·.dim.isTime)
  inner.take ((inner.head?.map Loop.collapsed).getD 0)

def ofNests (nests : List LoopNest) (blocks : List KernelDimension) (threads : List Parameter) :
    List Workload :=
  (nests.filter (·.any fun l => (blocked? blocks l.dim).isSome)).flatMap fun nest =>
    threads.map fun p => ⟨(parallelLoops nest).filterMap fun l => blocked? blocks l.dim, p.name⟩

def blockCount (args : Arguments) (b : Blocked) : Option Int := do
  let step ← args.int? b.1
  if step ≤ 0 then none
  else return (← Candidates.extent? args b.2).tdiv step

/-- Blocks per thread; none if a size is unknown or not positive. -/
def perThread (args : Arguments) (w : Workload) : Option Binary64 := do
  let n ← args.int? w.threads
  let counts ← w.loops.mapM (blockCount args)
  return Binary64.div (.ofInt (counts.foldl (· * ·) 1)) (.ofInt n)

def shares? (ws : List Workload) (args : Arguments) : Option (List Binary64) :=
  ws.mapM (perThread args)

def starved (ws : List Workload) (args : Arguments) : Bool :=
  match shares? ws args with
  | some vs => !vs.isEmpty && vs.all (Binary64.less · (.ofInt 1))
  | none => false

end Workload

end Stencil
