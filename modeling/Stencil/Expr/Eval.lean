import Stencil.Expr.Basic
import Stencil.Table

namespace Stencil

inductive EvalError where
  | unbound (name : String)
  | unboundAccess (field : String) (position : List Int)
  deriving DecidableEq

namespace EvalError

def positionText (p : List Int) : String := "[" ++ ", ".intercalate (p.map toString) ++ "]"

def message : EvalError → String
  | unbound s => "unbound symbol `" ++ s ++ "`"
  | unboundAccess f p => "unbound access " ++ f ++ positionText p

end EvalError

structure Env (α : Type) where
  symbol : String → Option α
  position : Dimension → Option Int
  element : Field → List Int → Option α

namespace Env

variable {α : Type}

/-- Symbols only. The position along a dimension is the integral part of the symbol of its name,
and no array has elements. -/
def ofSymbols (truncate : α → Int) (t : Table String α) : Env α where
  symbol := t.get?
  position d := (t.get? d.name).map truncate
  element _ _ := none

def resolveIndex (env : Env α) : Index → Except EvalError Int
  | .const c => .ok c
  | .affine d o =>
    match env.position d with
    | some v => .ok (v + o)
    | none => .error (.unbound d.name)

def resolve (env : Env α) (is : List Index) : Except EvalError (List Int) :=
  is.mapM env.resolveIndex

end Env

namespace Expr

variable {α : Type} [Arithmetic α]

def maxRepeated : Int := 2147483647

def repeated? (exponent : Expr α) : Option Int :=
  exponent.integer?.filter fun n => -maxRepeated ≤ n && n ≤ maxRepeated

mutual

/-- Operands are evaluated from left to right. A call ignores all operands but the first. -/
def eval (env : Env α) : Expr α → Except EvalError α
  | num v => .ok v
  | sym s =>
    match env.symbol s with
    | some v => .ok v
    | none => .error (.unbound s)
  | access a => do
    let p ← env.resolve a.indices
    match env.element a.field p with
    | some v => .ok v
    | none => .error (.unboundAccess a.field.name p)
  | add args => do return Arithmetic.sum (← evalAll env args)
  | mul args => do return Arithmetic.product (← evalAll env args)
  | pow b e => do
    let b ← eval env b
    match e.repeated? with
    | some n => return Arithmetic.powInt b n
    | none => return Arithmetic.pow b (← eval env e)
  | call f [] => .ok (Arithmetic.apply f Arithmetic.zero)
  | call f (e :: _) => do return Arithmetic.apply f (← eval env e)

def evalAll (env : Env α) : List (Expr α) → Except EvalError (List α)
  | [] => .ok []
  | e :: r => do
    let v ← eval env e
    return v :: (← evalAll env r)

end

end Expr

end Stencil
