import Stencil.Assignment.Schedule

/-!
Extraction of subexpressions into scalar temporaries. What satisfies a rule is grown upwards as
far as the rule allows, and is then assigned to a temporary if it is worth it.
-/

namespace Stencil.Extraction

variable {α : Type} [Arithmetic α]

/-- Which expressions may be extracted (`rule`), which are worth it (`pays`), and whether to
extract as soon as it pays (`eager`) or only where the rule ends. -/
structure Policy (α : Type) where
  rule : Expr α → Bool
  pays : Expr α → Bool
  eager : Bool

abbrev Found (α : Type) [Arithmetic α] := Table (Expr α) (Expr α)

def extract (fresh : Nat → String) (e : Expr α) : StateM (Found α) (Expr α) := do
  let found ← get
  match found.get? e with
  | some t => return t
  | none =>
    let t := .sym (fresh found.size)
    set (found.insert e t)
    return t

abbrev Part (α : Type) := Expr α × Bool

variable (p : Policy α) (fresh : Nat → String)

def extractIf (e : Expr α) : StateM (Found α) (Expr α) :=
  if p.pays e then extract fresh e else pure e

/-- A node that satisfies the rule with all its operands: left to the node above, unless it is
extracted at once. A whole right-hand side stays in place. -/
def growOrExtract (root : Bool) (e : Expr α) : StateM (Found α) (Part α) :=
  if p.eager && !root && p.pays e then do return (← extract fresh e, false)
  else pure (e, true)

/-- A sum or product in which only some operands satisfy the rule: these are extracted together,
if that is allowed and pays, and one by one otherwise. -/
def splitOperands (e : Expr α) (parts : List (Part α)) : StateM (Found α) (Expr α) := do
  let matching := (parts.filter (·.2)).map (·.1)
  let other := (parts.filter (!·.2)).map (·.1)
  let group := e.rebuild matching
  if 1 < matching.length && p.rule group && p.pays group then
    return e.rebuild (other ++ [← extract fresh group])
  else return e.rebuild (other ++ (← matching.mapM (extractIf p fresh)))

def extractOperands (e : Expr α) (parts : List (Part α)) : StateM (Found α) (Expr α) := do
  return e.rebuild (← parts.mapM fun x => if x.2 then extractIf p fresh x.1 else pure x.1)

def node (root : Bool) (e : Expr α) (parts : List (Part α)) : StateM (Found α) (Part α) :=
  if parts.isEmpty then pure (e, p.rule e)
  else
    let whole := e.rebuild (parts.map (·.1))
    if parts.all (·.2) && p.rule whole then growOrExtract p fresh root whole
    else
      match e with
      | .add _ | .mul _ => do return (← splitOperands p fresh e parts, false)
      | e => do return (← extractOperands p fresh e parts, false)

def run : Expr α → StateM (Found α) (Part α) :=
  Expr.fold fun e below => do node p fresh false e (← below.mapM id)

def runRoot (e : Expr α) : StateM (Found α) (Expr α) := do
  return (← node p fresh true e (← e.args.mapM (run p fresh))).1

structure Result (α : Type) where
  assignments : List (Assignment α)
  found : List (Assignment α)

def apply (as : List (Assignment α)) : Result α :=
  let extractAll : StateM (Found α) (List (Assignment α)) :=
    as.mapM fun a => do return a.withRhs (← runRoot p fresh a.rhs)
  let (rest, found) := extractAll.run .empty
  let defs := found.entries.map fun x => { lhs := x.2, rhs := x.1 }
  ⟨Schedule.schedule defs rest, defs⟩

end Stencil.Extraction
