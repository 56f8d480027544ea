import Stencil.Nest

/-!
Execution of clusters over a grid. Scalars live at one point of one cluster. To read an element
that was never written is an error; what was written before an error stays.
-/

namespace Stencil

abbrev Exec (α : Type) := EStateM EvalError (Grid α)

namespace Exec

variable {α : Type} [Arithmetic α]

/-- The values seen at a point. Scalars hide parameters, and these hide positions. -/
def env (g : Grid α) (pos : Position) (scalars : Table String α) : Env α where
  symbol s :=
    (scalars.get? s <|> g.params.get? s) <|> (pos.get? s).map Arithmetic.ofInt
  position d := pos.get? d.name
  element f p := g.get? f.name p

def ofExcept {β : Type} : Except EvalError β → Exec α β
  | .ok v => pure v
  | .error e => throw e

def value (env : Env α) (a : Assignment α) : Except EvalError α :=
  if a.increment then do
    let old ← a.lhs.eval env
    return Arithmetic.add old (← a.addition.eval env)
  else a.rhs.eval env

def assign (pos : Position) (scalars : Table String α) (a : Assignment α) :
    Exec α (Table String α) := do
  let env := env (← get) pos scalars
  let v ← ofExcept (value env a)
  match a.lhs with
  | .sym s => return scalars.insert s v
  | .access x =>
    let p ← ofExcept (env.resolve x.indices)
    modify (·.set x.field.name p v)
    return scalars
  | e => throw (.unbound e.text)

def atPoint (c : Cluster α) (pos : Position) : Exec α Unit := do
  discard (c.assignments.foldlM (assign pos) .empty)

def execute (cs : List (Cluster α)) : Exec α Unit := do
  let bounds := (← get).bounds
  Nest.walk bounds.get? atPoint cs

end Exec

end Stencil
