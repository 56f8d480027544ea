import Stencil.Expr.Canonical
import Stencil.Table

namespace Stencil

abbrev Substitution (α : Type) [Arithmetic α] := Table (Expr α) (Expr α)

abbrev Shift := Dimension → Int

namespace Index

def displace (s : Shift) : Index → Index
  | const c => const c
  | affine d o => affine d (o + s d)

end Index

namespace Access

def displace (s : Shift) (a : Access) : Access := { a with indices := a.indices.map (·.displace s) }

end Access

namespace Expr

variable {α : Type} [Arithmetic α]

/-- Substitutes everywhere at once and rebuilds every node that has operands by `build`. A node
that equals a key is replaced as a whole, and what replaces it is not looked at again. -/
def replaceBy (build : Expr α → List (Expr α) → Expr α) (s : Substitution α) : Expr α → Expr α :=
  fold fun e args =>
    match s.get? e with
    | some e' => e'
    | none => if args.isEmpty then e else build e args

def replace (s : Substitution α) : Expr α → Expr α := replaceBy rebuild s

def replaceRaw (s : Substitution α) : Expr α → Expr α := replaceBy rebuildRaw s

theorem replaceBy_eq (build : Expr α → List (Expr α) → Expr α) (s : Substitution α)
    (e : Expr α) :
    replaceBy build s e = match s.get? e with
      | some e' => e'
      | none => if e.args.isEmpty then e else build e (e.args.map (replaceBy build s)) := by
  unfold replaceBy
  rw [fold_eq]
  cases s.get? e <;> simp

def displace (s : Shift) : Expr α → Expr α :=
  fold fun e args =>
    match e with
    | access a => access (a.displace s)
    | e => if args.isEmpty then e else rebuild e args

def expandPower (exponent b x : Expr α) : Expr α :=
  match exponent.integer? with
  | some n =>
    if 2 ≤ n then mul (List.replicate n.toNat b)
    else if n ≤ -2 then pow (mul (List.replicate n.natAbs b)) (int (-1))
    else pow b x
  | none => pow b x

/-- Writes integral powers out as products: `a^3` as `a*a*a`, and `a^-2` as `(a*a)^-1`. All else
is kept as it is. -/
def expandPowers : Expr α → Expr α :=
  fold fun e args =>
    match e, args with
    | pow _ x, [b', x'] => expandPower x b' x'
    | e, args => rebuildRaw e args

section Trigonometry

/-!
A rational approximation of the sine between `0` and `π`, and of the cosine by a shift of a
quarter turn: `16x(π - x) / (5π² - 4x(π - x))`.
-/

def arc (x : Expr α) : Expr α := times x (difference (num Arithmetic.pi) x)

def fivePiSquared : α :=
  Arithmetic.mul (Arithmetic.mul (Arithmetic.ofInt 5) Arithmetic.pi) Arithmetic.pi

def quarterTurn : α := Arithmetic.mul Arithmetic.pi (Arithmetic.inv (Arithmetic.ofInt 2))

def rationalSin (x : Expr α) : Expr α :=
  quotient (times (int 16) (arc x)) (difference (num fivePiSquared) (times (int 4) (arc x)))

def rationalCos (x : Expr α) : Expr α := rationalSin (plus x (num quarterTurn))

def approximateTrigonometry : Expr α → Expr α :=
  fold fun e args =>
    if args.isEmpty then e
    else
      match rebuild e args with
      | call .sin [x] => rationalSin x
      | call .cos [x] => rationalCos x
      | e => e

end Trigonometry

end Expr

end Stencil
