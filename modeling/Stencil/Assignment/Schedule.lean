import Stencil.Assignment.Basic

namespace Stencil.Schedule

variable {α : Type}

structure Queue (α : Type) where
  pending : Table String (Assignment α)
  placed : List (Assignment α)

/-- Places the definitions that an expression needs, in the order in which they wait. A
definition leaves the queue before its own needs are met, so that cyclic definitions end; the
first argument bounds the length of a chain of definitions. -/
def need : Nat → Expr α → Queue α → Queue α
  | 0, _, q => q
  | n + 1, e, q =>
    let ready := q.pending.keys.filter e.reads
    ready.foldl (fun q name =>
      match q.pending.get? name with
      | none => q
      | some d =>
        let q := need n d.rhs { q with pending := q.pending.erase name }
        { q with placed := q.placed ++ [d] }) q

def schedule (defs exprs : List (Assignment α)) : List (Assignment α) :=
  let named := defs.filterMap fun d => d.target?.map fun s => (s, d)
  let start : Queue α := ⟨Table.ofList named, []⟩
  let q := exprs.foldl (fun q a =>
    let q := need start.pending.size a.rhs q
    { q with placed := q.placed ++ [a] }) start
  q.placed ++ q.pending.values

end Stencil.Schedule
