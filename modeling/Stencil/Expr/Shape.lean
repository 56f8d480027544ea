import Stencil.Expr.Basic

namespace Stencil.Expr

variable {α : Type}

def isLeaf : Expr α → Bool
  | num _ | sym _ | access _ => true
  | _ => false

def isOperation (e : Expr α) : Bool := !e.isLeaf

def isLeafPower : Expr α → Bool
  | pow b e => b.isLeaf && e.isNumber
  | _ => false

def isMonomial : Expr α → Bool
  | mul args => args.all fun a => a.isLeaf || a.isLeafPower
  | e => e.isLeaf || e.isLeafPower

def isSumOfProducts : Expr α → Bool
  | add args => args.all isMonomial
  | e => e.isMonomial

def isTerminal : Expr α → Bool
  | add args | mul args => args.all isLeaf
  | pow b e => (pow b e).isLeafPower
  | e => e.isLeaf

section Cost

variable [Arithmetic α]

def isMinusOne (e : Expr α) : Bool := e.number?.any Arithmetic.isMinusOne

def powerCost (exponent : Expr α) : Nat :=
  match exponent.integer? with
  | some n => if 2 ≤ n then (n - 1).toNat else 1
  | none => 1

mutual

def cost (weighted : Bool) : Expr α → Nat
  | num _ | sym _ | access _ => 0
  | add args => args.length - 1 + costAll weighted args
  | mul args => args.countP (fun a => !a.isMinusOne) - 1 + costAll weighted args
  | pow b e => powerCost e + cost weighted b + cost weighted e
  | call f args => (if weighted then f.weight else 0) + costAll weighted args

def costAll (weighted : Bool) : List (Expr α) → Nat
  | [] => 0
  | e :: r => cost weighted e + costAll weighted r

end

end Cost

end Stencil.Expr
