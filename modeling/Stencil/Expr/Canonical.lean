import Stencil.Expr.Order

/-!
The canonical constructors. They flatten nested operators, fold literals, drop neutral elements
and sort commutative operands, so that sums and products that differ only in this respect are
the same tree.
-/

namespace Stencil.Expr

variable {α : Type}

def addends : Expr α → List (Expr α)
  | add args => args
  | e => [e]

def factors : Expr α → List (Expr α)
  | mul args => args
  | e => [e]

def literals (es : List (Expr α)) : List α := es.filterMap number?

def nonLiterals (es : List (Expr α)) : List (Expr α) := es.filter fun e => !e.isNumber

variable [Arithmetic α]

def int (n : Int) : Expr α := num (Arithmetic.ofInt n)

def zero : Expr α := num Arithmetic.zero

def one : Expr α := num Arithmetic.one

def sum (args : List (Expr α)) : Expr α :=
  let flat := args.flatMap addends
  let c := Arithmetic.sum (literals flat)
  let terms := if Arithmetic.isZero c then nonLiterals flat else nonLiterals flat ++ [num c]
  match sort terms with
  | [] => zero
  | [e] => e
  | es => add es

def product (args : List (Expr α)) : Expr α :=
  let flat := args.flatMap factors
  let c := Arithmetic.product (literals flat)
  let rest := nonLiterals flat
  if Arithmetic.isZero c then zero
  else
    let fs := if Arithmetic.isOne c && !rest.isEmpty then rest else rest ++ [num c]
    match sort fs with
    | [e] => e
    | es => mul es

def power (base exponent : Expr α) : Expr α :=
  match exponent with
  | num v =>
    if Arithmetic.isOne v then base
    else if Arithmetic.isZero v then one
    else
      match base with
      | num u => num (Arithmetic.pow u v)
      | base => pow base (num v)
  | exponent => pow base exponent

def negate (e : Expr α) : Expr α := product [int (-1), e]

def plus (a b : Expr α) : Expr α := sum [a, b]

def difference (a b : Expr α) : Expr α := sum [a, negate b]

def times (a b : Expr α) : Expr α := product [a, b]

def quotient (a b : Expr α) : Expr α := product [a, power b (int (-1))]

def powInt (e : Expr α) (n : Int) : Expr α := power e (int n)

def rebuild (e : Expr α) (args : List (Expr α)) : Expr α :=
  match e, args with
  | add _, args => sum args
  | mul _, args => product args
  | call f _, args => call f args
  | pow _ _, [b, x] => power b x
  | e, _ => e

omit [Arithmetic α] in
def rebuildRaw (e : Expr α) (args : List (Expr α)) : Expr α :=
  match e, args with
  | add _, args => add args
  | mul _, args => mul args
  | call f _, args => call f args
  | pow _ _, [b, x] => pow b x
  | e, _ => e

/-- The numeric coefficient of an expression and its other factors: `3*a*b` is `3` with
`[a, b]`. -/
def coefficient : Expr α → α × List (Expr α)
  | num v => (v, [])
  | mul args => (Arithmetic.product (literals args), nonLiterals args)
  | e => (Arithmetic.one, [e])

end Stencil.Expr
