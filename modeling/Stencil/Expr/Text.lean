import Stencil.Expr.Canonical

namespace Stencil.Expr

variable {α : Type} [Arithmetic α]

def tightness : Expr α → Nat
  | add _ => 1
  | mul _ => 2
  | num v => if Arithmetic.isNegative v then 2 else 3
  | _ => 3

def operandText (write : Expr α → String) (outer : Nat) (e : Expr α) : String :=
  if e.tightness < outer then "(" ++ write e ++ ")" else write e

def termText (write : Expr α → String) (e : Expr α) : String :=
  let (c, rest) := e.coefficient
  if Arithmetic.isNegative c then
    " - " ++ operandText write 2 (product (num (Arithmetic.neg c) :: rest))
  else " + " ++ operandText write 1 e

/-- Writes `n` levels of an expression. Every level goes to an expression with fewer nodes. -/
def textWithin : Nat → Expr α → String
  | 0, _ => ""
  | _ + 1, num v => Arithmetic.text v
  | _ + 1, sym s => s
  | _ + 1, access a => a.text
  | _ + 1, add [] => ""
  | n + 1, add (e :: r) =>
    operandText (textWithin n) 1 e ++ String.join (r.map (termText (textWithin n)))
  | n + 1, mul args => "*".intercalate (args.map (operandText (textWithin n) 2))
  | n + 1, pow b e => "pow(" ++ textWithin n b ++ ", " ++ textWithin n e ++ ")"
  | n + 1, call f args => f.name ++ "(" ++ ", ".intercalate (args.map (textWithin n)) ++ ")"

def text (e : Expr α) : String := textWithin e.subterms.length e

end Stencil.Expr
