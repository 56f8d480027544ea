import Stencil.Expr.Canonical
import Stencil.Table

namespace Stencil.Expr

variable {α : Type} [Arithmetic α]

/-- Terms with the same class differ in their coefficients by the sign at most. Literals and
terms with coefficient one in magnitude have no class. -/
def coefficientClass? (e : Expr α) : Option (Expr α) :=
  let (c, rest) := e.coefficient
  let size := Arithmetic.abs c
  if rest.isEmpty || Arithmetic.isOne size then none else some (num size)

def sharedCoefficients (terms : List (Expr α)) : List (Expr α × List (Expr α)) :=
  let t : Table (Expr α) (List (Expr α)) := terms.foldl (fun t e =>
    match e.coefficientClass? with
    | some c => t.update c [] (· ++ [e])
    | none => t) .empty
  t.entries.filter fun p => 2 ≤ p.2.length

def signedPart (e : Expr α) : Expr α :=
  let (c, rest) := e.coefficient
  product (int (if Arithmetic.isNegative c then -1 else 1) :: rest)

/-- `2*a - 2*b + c` is turned into `c` and `2*(a - b)`. -/
def collectCoefficients (terms : List (Expr α)) : List (Expr α) :=
  let shared := sharedCoefficients terms
  let single := terms.filter fun e =>
    match e.coefficientClass? with
    | some c => !shared.any (·.1 == c)
    | none => true
  single ++ shared.map fun p => product [p.1, sum (p.2.map signedPart)]

def properFactors : Expr α → List (Expr α)
  | mul args => nonLiterals args
  | _ => []

def offers (f e : Expr α) : Bool := 2 ≤ e.properFactors.length && e.properFactors.contains f

def factorCounts (terms : List (Expr α)) : Table (Expr α) Nat :=
  Table.counts (terms.flatMap fun e =>
    if 2 ≤ e.properFactors.length then e.properFactors.eraseDups else [])

/-- The factor that most terms offer, at least two of them; the least of several. -/
def commonFactor? (terms : List (Expr α)) : Option (Expr α) :=
  let shared := (factorCounts terms).entries.filter fun p => 2 ≤ p.2
  (shared.foldl (fun best p =>
    match best with
    | none => some p
    | some b =>
      if b.2 < p.2 || (p.2 == b.2 && p.1.cmp b.1 == .lt) then some p else some b) none).map (·.1)

def without (f : Expr α) : Expr α → Expr α
  | mul args => product (args.erase f)
  | e => e

/-- `a*b + a*c + d` is turned into `d` and `a*(b + c)`. -/
def collectFactor (terms : List (Expr α)) : List (Expr α) :=
  match commonFactor? terms with
  | none => terms
  | some f =>
    let inner := (terms.filter (offers f)).map (without f)
    terms.filter (fun e => !offers f e) ++ [product [f, sum inner]]

def collect : Expr α → Expr α :=
  fold fun e args =>
    if args.isEmpty then e
    else
      match rebuild e args with
      | add terms => sum (collectFactor (collectCoefficients terms))
      | e => e

end Stencil.Expr
