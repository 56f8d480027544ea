import Stencil.Binary64.Basic
import Stencil.Expr.Eval
import Stencil.Tuning.Exchange
import Stencil.Tuning.Results
import Stencil.Tuning.Window
import Stencil.Tuning.Workload

namespace Stencil.Tuning

variable {κ : Type}

structure Run (κ : Type) where
  kernel : κ
  store : Store
  args : Arguments
  results : Results := []

structure Plan (κ : Type) where
  kernel : Kernel κ
  options : Options
  mode : Mode
  caller : Arguments
  loop : Option TimeLoop
  steps : Int
  workloads : List Workload

namespace Plan

variable (p : Plan κ)

def inRange (args : Arguments) : Bool := p.loop.all fun t => t.fits args p.caller p.mode

def fitsStack (args : Arguments) : Bool :=
  match p.kernel.footprint with
  | none => true
  | some e =>
    match e.eval (Env.ofSymbols Binary64.truncate args.scalars) with
    | .ok bytes => !Binary64.less (.ofInt p.options.stackLimit) bytes
    | .error _ => false

def admits (args : Arguments) : Bool :=
  (p.options.permitSmall || !Workload.starved p.workloads args) && p.fitsStack args

end Plan

def freshTimer (profiler : String) (args : Arguments) (s : Store) : Ref Timer × Store :=
  match args.get? profiler with
  | some (.timer t) => (t, s.clearTimer t)
  | _ => s.newTimer .empty

def measure (p : Plan κ) (b : Binding) (r : Run κ) : Run κ :=
  let (timer, store) := freshTimer p.kernel.profiler r.args r.store
  let args := r.args.insert p.kernel.profiler (.timer timer)
  let (ok, kernel, store) := p.kernel.call (p.kernel.positional args) r.kernel store
  if ok then
    { kernel := kernel
      store := store
      args := match p.loop with
        | some t => t.slide args p.steps p.mode
        | none => args
      results := r.results ++ [⟨b, store.elapsed timer⟩] }
  else { r with kernel := kernel, store := store, args := args }

/-- Tries one candidate. Its values stay among the working arguments. -/
def attempt (p : Plan κ) (b : Binding) (r : Run κ) : Run κ :=
  let r := { r with args := r.args.insertInts b }
  if p.admits r.args then measure p b r else r

/-- Tries one run of a search after another, up to the first one for which no time steps are
left. -/
def search (p : Plan κ) (s : SearchSpace) (g : Sweep) (r : Run κ) : Run κ :=
  match h : g.next s with
  | (some b, g') =>
    have := Sweep.length_rest_lt h
    if p.inRange r.args then search p s g' (attempt p b r) else r
  | (none, _) => r
termination_by (g.rest s).length

structure Outcome (κ : Type) where
  kernel : κ
  store : Store
  results : Results
  answer : Except TuningError (Arguments × Summary)

def adopt (p : Plan κ) (best : TimedRun) (r : Run κ) : Outcome κ :=
  let args := p.caller.insertInts best.binding
  let args := match p.loop with
    | some t => t.resume r.args args p.mode
    | none => args
  let (timer, store) := freshTimer p.kernel.profiler args r.store
  { kernel := r.kernel
    store := store
    results := r.results
    answer := .ok (args.insert p.kernel.profiler (.timer timer),
      ⟨r.results.length, p.steps, .ofList best.binding⟩) }

def abandon (caller : Arguments) (r : Run κ) : Outcome κ :=
  ⟨r.kernel, r.store, r.results, .ok (caller, {})⟩

def explore (p : Plan κ) (level : Level) (r : Run κ) : Outcome κ :=
  let space := (({} : SearchSpace).add
    (Candidates.blockShapes p.kernel.blocks p.caller level p.options)).add
    (Candidates.threadCounts (p.kernel.ofKind .threads) p.caller level p.options)
  let r := search p space {} r
  match r.results.best? with
  | some best => adopt p best r
  | none => abandon p.caller r

def timeLoops (nests : List LoopNest) : List Loop :=
  (nests.flatten.filter (·.dim.isTime)).foldl
    (fun ls l => if ls.any (·.id == l.id) then ls else ls ++ [l]) []

/-- Sets up the window of time steps and explores. With several time loops, or too few time
steps, the session is abandoned. -/
def withWindow (k : Kernel κ) (o : Options) (level : Level) (mode : Mode) (caller : Arguments)
    (r : Run κ) : Outcome κ :=
  let plan (loop : Option TimeLoop) (steps : Int) : Plan κ :=
    { kernel := k
      options := o
      mode := mode
      caller := caller
      loop := loop
      steps := steps
      workloads := Workload.ofNests k.nests k.blocks (k.ofKind .threads) }
  match timeLoops k.nests with
  | [] => explore (plan none 1) level r
  | [l] =>
    match (TimeLoop.ofLoop l).firstWindow? r.args o.extraSteps with
    | some (steps, args) => explore (plan (some (.ofLoop l)) steps) level { r with args := args }
    | none => abandon caller r
  | _ => abandon caller r

def bindParameters (ps : List Parameter) (caller : Arguments) :
    Except TuningError Arguments :=
  ps.foldlM (fun args p =>
    match caller.get? p.name with
    | some v => .ok (args.insert p.name v)
    | none => .error (.missingArgument p.name)) .empty

def copyOutputs (k : Kernel κ) (args : Arguments) (s : Store) : Arguments × Store :=
  (k.ofKind .output).foldl (fun (args, s) p =>
    match args.get? p.name with
    | some (.buffer b) =>
      let (copy, s) := s.copyBuffer b
      (args.insert p.name copy, s)
    | _ => (args, s)) (args, s)

/-- A session in which runs work on copies while halo exchange is switched off. -/
def preemptive (k : Kernel κ) (o : Options) (level : Level) (caller : Arguments) (r : Run κ) :
    Outcome κ :=
  let (args, store) := copyOutputs k r.args r.store
  let (saved, store) := SavedRanks.switchOff k.parameters caller store
  let out := withWindow k o level .preemptive caller { r with args := args, store := store }
  { out with store := saved.restore out.store }

/-- A session. An unaccepted combination leaves the results of the last session, given as
`results`, as they are. -/
def tune (k : Kernel κ) (o : Options) (results : Results) (level mode : String)
    (caller : Arguments) (kernel : κ) (store : Store) : Outcome κ :=
  match o.accept level mode with
  | .error e => ⟨kernel, store, results, .error e⟩
  | .ok (level, mode) =>
    if k.blocks.isEmpty && (k.ofKind .threads).isEmpty then
      abandon caller ⟨kernel, store, caller, []⟩
    else
      match bindParameters k.parameters caller with
      | .error e => ⟨kernel, store, [], .error e⟩
      | .ok args =>
        let r : Run κ := ⟨kernel, store, args, []⟩
        match mode with
        | .preemptive => preemptive k o level caller r
        | .runtime => withWindow k o level .runtime caller r

end Stencil.Tuning
