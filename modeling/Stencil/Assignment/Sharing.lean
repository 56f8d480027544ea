import Stencil.Assignment.Schedule
import Stencil.Expr.Shape

/-!
Elimination of common subexpressions. Scalars that already hold a value are reused first; then,
round by round, the most expensive operations that occur more than once get temporaries.
-/

namespace Stencil.Sharing

variable {α : Type} [Arithmetic α]

def reuse (as : List (Assignment α)) : List (Assignment α) :=
  (as.foldl (fun (known, out) a =>
    let a := if known.isEmpty then a else a.withRhs (a.rhs.replace known)
    let known :=
      if a.lhs.isSymbol && a.rhs.isOperation then known.insertIfNew a.rhs a.lhs else known
    (known, out ++ [a])) ((.empty : Substitution α), [])).2

/-- The operations that may be shared. The right-hand side of a scalar as a whole is not one of
them: it has its name already. -/
def sharable (a : Assignment α) : List (Expr α) :=
  let es := if a.lhs.isSymbol then a.rhs.subterms.drop 1 else a.rhs.subterms
  es.filter Expr.isOperation

structure State (α : Type) where
  defs : List (Assignment α)
  assignments : List (Assignment α)

namespace State

def operations (s : State α) : List (Expr α) := (s.defs ++ s.assignments).flatMap sharable

def repeated (s : State α) : List (Expr α × Nat) :=
  ((Table.counts s.operations).entries.filter (2 ≤ ·.2)).map (fun x => (x.1, x.1.cost true))
    |>.filter (0 < ·.2)

def chosen (s : State α) : List (Expr α) :=
  let most := (s.repeated.map (·.2)).foldl max 0
  (s.repeated.filter (·.2 == most)).map (·.1)

def round? (fresh : Nat → String) (s : State α) : Option (State α) :=
  match s.chosen with
  | [] => none
  | es =>
    let named := es.zipIdx.map fun (e, k) => (e, Expr.sym (fresh (s.defs.length + k)))
    let table : Substitution α := Table.ofList named
    let shorten (a : Assignment α) := a.withRhs (a.rhs.replace table)
    some {
      defs := s.defs.map shorten ++ named.map fun x => { lhs := x.2, rhs := x.1 }
      assignments := s.assignments.map shorten }

def rounds (fresh : Nat → String) : Nat → State α → State α
  | 0, s => s
  | n + 1, s =>
    match s.round? fresh with
    | none => s
    | some s' => rounds fresh n s'

end State

/-- Runs rounds until nothing is repeated. A round leaves only its own new definitions out of
canonical form, and these are less deep than what they were taken from, so that all is canonical
after as many rounds as the deepest expression has levels. Then every round leaves fewer
operations. -/
def settle (fresh : Nat → String) (s : State α) : State α :=
  let deepest := (s.assignments.map fun a => a.rhs.height).foldl max 0
  let s := s.rounds fresh deepest
  s.rounds fresh s.operations.length

def eliminated (fresh : Nat → String) (as : List (Assignment α)) : State α :=
  settle fresh ⟨[], reuse as⟩

def eliminate (fresh : Nat → String) (as : List (Assignment α)) : List (Assignment α) :=
  let s := eliminated fresh as
  Schedule.schedule s.defs s.assignments

end Stencil.Sharing
