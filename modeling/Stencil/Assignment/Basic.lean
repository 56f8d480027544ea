import Stencil.Expr.Text
import Stencil.Expr.Shape
import Stencil.Expr.Rewriting

namespace Stencil

/-- Stores the value of `rhs` in `lhs`, or adds it there. A frozen assignment is never brought
into canonical form again. -/
structure Assignment (α : Type) where
  lhs : Expr α
  rhs : Expr α
  increment : Bool := false
  frozen : Bool := false

namespace Assignment

variable {α : Type}

def target? (a : Assignment α) : Option String := a.lhs.symbol?

def writesData (a : Assignment α) : Bool := a.lhs.access?.any (·.field.isInput)

def withRhs (a : Assignment α) (e : Expr α) : Assignment α := { a with rhs := e }

def freeze (a : Assignment α) : Assignment α := { a with frozen := true }

def accesses (a : Assignment α) : List Access := a.lhs.accesses ++ a.rhs.accesses

def dimensions (a : Assignment α) : List Dimension := a.lhs.dimensions ++ a.rhs.dimensions

variable [Arithmetic α]

/-- What an increment adds to its target. The target may be spelled out among the terms of the
sum, as in `u += u + s`; such terms are left out. -/
def addition (a : Assignment α) : Expr α :=
  match a.rhs with
  | .add args =>
    if args.contains a.lhs then .sum (args.filter (· != a.lhs)) else .add args
  | e => e

def compact (a : Assignment α) : Assignment α :=
  if a.increment then a.withRhs a.addition else a

def replace (s : Substitution α) (a : Assignment α) : Assignment α :=
  if s.isEmpty then a
  else if a.frozen then { a with lhs := a.lhs.replaceRaw s, rhs := a.rhs.replaceRaw s }
  else { a with lhs := a.lhs.replace s, rhs := a.rhs.replace s }

def text (a : Assignment α) : String :=
  a.lhs.text ++ (if a.increment then " += " else " = ") ++ a.rhs.text

end Assignment

def totalCost {α : Type} [Arithmetic α] (weighted : Bool) (as : List (Assignment α)) : Nat :=
  as.foldr (fun a n => a.rhs.cost weighted + n) 0

end Stencil
