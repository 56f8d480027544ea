import Stencil.Assignment.Basic

namespace Stencil

structure TimeContext (α : Type) where
  scalars : Table String (Expr α)
  arrays : Table String (Expr α)
  timeNames : List String

namespace TimeContext

variable {α : Type}

def ofAssignments (as : List (Assignment α)) : TimeContext α where
  scalars := .ofList (as.filterMap fun a => a.target?.map fun s => (s, a.rhs))
  arrays := .ofList (as.filterMap fun a =>
    a.lhs.access?.bind fun x => if x.field.isInput then none else some (x.field.name, a.rhs))
  timeNames := (as.flatMap Assignment.dimensions |>.filter Dimension.isTime).map (·.name)

def isBound (c : TimeContext α) : Expr α → Bool
  | .sym s => c.timeNames.contains s
  | .access a => a.isTimeDependent
  | _ => false

def definition? (c : TimeContext α) : Expr α → Option (String × Expr α)
  | .sym s => (c.scalars.get? s).map (s, ·)
  | .access a => (c.arrays.get? a.field.name).map (a.field.name, ·)
  | _ => none

/-- Follows the definitions that an expression leads to, each name once, and collects these
names; `none` if anything on the way varies. The first argument bounds the length of a chain of
definitions. -/
def follow (c : TimeContext α) : Nat → Expr α → List String → Option (List String)
  | 0, _, seen => some seen
  | n + 1, e, seen =>
    e.subterms.foldlM (fun seen leaf =>
      if c.isBound leaf then none
      else
        match c.definition? leaf with
        | some (name, d) => if seen.contains name then some seen else follow c n d (name :: seen)
        | none => some seen) seen

def depth (c : TimeContext α) : Nat := c.scalars.size + c.arrays.size + 1

def isInvariant (c : TimeContext α) (e : Expr α) : Bool := (c.follow c.depth e []).isSome

end TimeContext

end Stencil
