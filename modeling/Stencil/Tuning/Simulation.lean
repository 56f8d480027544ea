import Stencil.Binary64.Basic
import Stencil.Expr.Eval
import Stencil.Tuning.Kernel

namespace Stencil

structure Simulation extends Signature where
  costs : List (String × Expr Binary64) := []
  failure : Option (Expr Binary64) := none
  increment : Option (Expr Binary64) := none

namespace Simulation

abbrev Log := List (List Snapshot)

variable (m : Simulation)

def fails (env : Env Binary64) : Bool :=
  match m.failure with
  | none => false
  | some e =>
    match e.eval env with
    | .ok v => Binary64.less .zero v
    | .error _ => true

def addToOutputs (args : Arguments) (v : Binary64) (s : Store) : Store :=
  (m.ofKind .output).foldl (fun s p =>
    match args.get? p.name with
    | some (.buffer b) => s.writeBuffer b (·.map (Binary64.add · v))
    | _ => s) s

def update (env : Env Binary64) (args : Arguments) (s : Store) : Option Store :=
  match m.increment with
  | none => some s
  | some e => (e.eval env).toOption.map fun v => m.addToOutputs args v s

def recordCosts (env : Env Binary64) (t : Ref Timer) :
    List (String × Expr Binary64) → Store → Bool × Store
  | [], s => (true, s)
  | (section_, e) :: r, s =>
    match e.eval env with
    | .ok v => recordCosts env t r (s.recordTime t section_ v)
    | .error _ => (false, s)

def act (args : Arguments) (s : Store) : Bool × Store :=
  let env := Env.ofSymbols Binary64.truncate args.scalars
  if m.fails env then (false, s)
  else
    match m.update env args s with
    | none => (false, s)
    | some s =>
      match args.get? m.profiler with
      | some (.timer t) => recordCosts env t m.costs s
      | _ => (true, s)

def kernel : Kernel Log where
  toSignature := m.toSignature
  call args log s :=
    let (ok, after) := m.act (m.named args) s
    (ok, log ++ [args.map s.snapshot], after)

end Simulation

end Stencil
