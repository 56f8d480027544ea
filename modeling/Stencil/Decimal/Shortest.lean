import Stencil.Decimal.Basic

/-!
The fewest digits that identify a binary number: a decimal is a good name for `m * 2 ^ q` when
it lies in the interval of the reals that round to it.
-/

namespace Stencil

/-- The number `mantissa * 2 ^ exponent`. The gap to the number below is half the gap to the one
above when `narrow` holds. -/
structure Dyadic where
  mantissa : Nat
  exponent : Int
  narrow : Bool
  deriving DecidableEq

namespace Dyadic

def ratio (x : Dyadic) : Nat × Nat :=
  (x.mantissa * Nat.pow 2 x.exponent.toNat, Nat.pow 2 (-x.exponent).toNat)

def floor (x : Dyadic) : Nat := x.ratio.1 / x.ratio.2

def isIntegral (x : Dyadic) : Bool := x.ratio.1 % x.ratio.2 == 0

def scale (x : Dyadic) : Int :=
  let (n, d) := x.ratio
  if d ≤ n then Decimal.length (n / d)
  else 1 - (Decimal.length ((d + n - 1) / n - 1) : Int)

def inUnits (x : Dyadic) (k : Int) : Nat × Nat :=
  (x.ratio.1 * Nat.pow 10 (-k).toNat, x.ratio.2 * Nat.pow 10 k.toNat)

def lowerEnd (x : Dyadic) : Dyadic :=
  ⟨if x.narrow then 4 * x.mantissa - 1 else 4 * x.mantissa - 2, x.exponent - 2, false⟩

def upperEnd (x : Dyadic) : Dyadic := ⟨4 * x.mantissa + 2, x.exponent - 2, false⟩

/-- Whether `d * 10 ^ k` rounds to `x`. The ends of the interval belong to it when the mantissa
is even. -/
def readsBack (x : Dyadic) (k : Int) (d : Nat) : Bool :=
  let (ln, ld) := x.lowerEnd.inUnits k
  let (un, ud) := x.upperEnd.inUnits k
  if x.mantissa % 2 = 0 then ln ≤ d * ld ∧ d * ud ≤ un else ln < d * ld ∧ d * ud < un

/-- The nearer of the two multiples of `10 ^ k` around `x` among those that read back; the upper
one on a tie. -/
def nearest? (x : Dyadic) (k : Int) : Option Nat :=
  let (n, d) := x.inUnits k
  let f := n / d
  match x.readsBack k f, x.readsBack k (f + 1) with
  | false, false => none
  | true, false => some f
  | false, true => some (f + 1)
  | true, true => if 2 * (n % d) < d then some f else some (f + 1)

def exact (x : Dyadic) : Decimal :=
  ⟨x.ratio.1 * Nat.pow 5 (-x.exponent).toNat, -((-x.exponent).toNat : Int)⟩

def shortest (x : Dyadic) : Decimal :=
  let p := x.scale
  let hit := (List.range 17).findSome? fun (n : Nat) =>
    let k := p - ((n + 1 : Nat) : Int)
    (x.nearest? k).map fun d => Decimal.strip 20 d k
  hit.getD x.exact

def significant (x : Dyadic) (n : Nat) : Decimal :=
  let k := x.scale - n
  let (num, den) := x.inUnits k
  let d := Decimal.roundDiv num den
  if d = Nat.pow 10 n then ⟨Nat.pow 10 (n - 1), k + 1⟩ else ⟨d, k⟩

def roundedTo (x : Dyadic) (places : Nat) : Nat :=
  Decimal.roundDiv (x.ratio.1 * Nat.pow 10 places) x.ratio.2

end Dyadic

end Stencil
