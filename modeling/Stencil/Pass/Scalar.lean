import Stencil.Cluster
import Stencil.Assignment.Extraction
import Stencil.Assignment.Sharing
import Stencil.Assignment.Invariance
import Stencil.Expr.Collection
import Stencil.Expr.Rewriting
import Stencil.Pass.Config

namespace Stencil.ScalarPass

variable {α : Type} [Arithmetic α]

/-- `u[x] += a*b` is turned into `r0 = a*b` and `u[x] += r0`. -/
def extractIncrements (c : Cluster α) : StateM Names (Cluster α) := do
  let as ← c.assignments.mapM fun a => do
    if a.increment && a.writesData then
      let t : Expr α := .sym (← Names.take)
      return [{ lhs := t, rhs := a.addition }, { lhs := a.lhs, rhs := t, increment := true }]
    else return [a]
  return c.withAssignments as.flatten

def extractBy (p : Extraction.Policy α) (c : Cluster α) : StateM Names (Cluster α) := do
  let r := Extraction.apply p (← get).name c.assignments
  modify (·.skip r.found.length)
  return c.withAssignments r.assignments

def extractInvariants (config : Config) (c : Cluster α) : StateM Names (Cluster α) :=
  extractBy {
    rule := (TimeContext.ofAssignments c.assignments).isInvariant
    pays := fun e => config.minInvariant ≤ e.cost true
    eager := true } c

def extractSumsOfProducts (c : Cluster α) : StateM Names (Cluster α) :=
  extractBy {
    rule := Expr.isSumOfProducts
    pays := fun e => !(e.isLeaf || e.isTerminal)
    eager := false } c

def shareSubexpressions (c : Cluster α) : StateM Names (Cluster α) := do
  let g ← get
  modify (·.skip (Sharing.eliminated g.name c.assignments).defs.length)
  return c.withAssignments (Sharing.eliminate g.name c.assignments)

def approximateTrigonometry (c : Cluster α) : Cluster α :=
  c.withAssignments (c.assignments.map fun a => a.withRhs a.rhs.approximateTrigonometry)

/-- Collects again and again while the cost drops, which it can do at most `n` times when `n` is
the cost. -/
def collectWhileCheaper : Nat → Expr α → Expr α
  | 0, e => e
  | n + 1, e => if e.collect.cost false < e.cost false then collectWhileCheaper n e.collect else e

def collected (config : Config) (e : Expr α) : Expr α :=
  let once := e.collect
  if config.minFactorize ≤ once.cost false then collectWhileCheaper (once.cost false) once else once

def factorize (config : Config) (c : Cluster α) : Cluster α :=
  c.withAssignments (c.assignments.map fun a =>
    let e := collected config a.rhs
    if e.cost false < a.rhs.cost false then a.withRhs e else a)

def finalize (c : Cluster α) : Cluster α :=
  c.withAssignments (c.assignments.map fun a => (a.withRhs a.rhs.expandPowers).freeze)

end Stencil.ScalarPass
