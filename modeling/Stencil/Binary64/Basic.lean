import Stencil.Arithmetic
import Stencil.Decimal.Shortest

/-!
Binary64 numbers by their bits: which numbers they stand for, in which order they stand as
literals, their arithmetic, and how they are written. There are NaN of both signs; they are
different literals, at the two ends of the order.
-/

namespace Stencil

/-- A binary64 number: a sign bit, 11 bits of exponent and 52 bits of fraction. -/
structure Binary64 where
  bits : UInt64
  deriving DecidableEq

namespace Binary64

def signBit : UInt64 := 0x8000000000000000

def zero : Binary64 := ⟨0⟩

def negativeZero : Binary64 := ⟨signBit⟩

def infinity : Binary64 := ⟨0x7FF0000000000000⟩

def nan : Binary64 := ⟨0x7FF8000000000000⟩

def invalid : Binary64 := ⟨0xFFF8000000000000⟩

def abs (x : Binary64) : Binary64 := ⟨x.bits &&& 0x7FFFFFFFFFFFFFFF⟩

def neg (x : Binary64) : Binary64 := ⟨x.bits ^^^ signBit⟩

def isNaN (x : Binary64) : Bool := infinity.bits < x.abs.bits

inductive Parts where
  | nan
  | infinite (negative : Bool)
  | finite (negative : Bool) (magnitude : Dyadic)

def parts (x : Binary64) : Parts :=
  let b := x.bits.toNat
  let negative := decide (Nat.pow 2 63 ≤ b)
  let e : Nat := b / Nat.pow 2 52 % Nat.pow 2 11
  let f : Nat := b % Nat.pow 2 52
  if e = 2047 then if f = 0 then .infinite negative else .nan
  else if e = 0 then .finite negative ⟨f, -1074, false⟩
  else .finite negative ⟨Nat.pow 2 52 + f, (e : Int) - 1075, f == 0 && e != 1⟩

def integer? (x : Binary64) : Option Int :=
  match x.parts with
  | .finite negative m =>
    if m.isIntegral && m.floor < Nat.pow 2 63 then
      some (if negative then -(m.floor : Int) else m.floor)
    else none
  | _ => none

def truncate (x : Binary64) : Int :=
  match x.parts with
  | .nan => 0
  | .infinite negative => if negative then minInt64 else maxInt64
  | .finite negative m => saturate (if negative then -(m.floor : Int) else m.floor)

def rank (x : Binary64) : Int :=
  let b := x.bits.toNat
  if b < Nat.pow 2 63 then b else maxInt64 - b

protected def cmp (x y : Binary64) : Ordering := compare (rank x) (rank y)

def identity (x : Binary64) : UInt64 := if x = negativeZero then 0 else x.bits

def same (x y : Binary64) : Bool := identity x == identity y

def literalCmp (x y : Binary64) : Ordering := if same x y then .eq else Binary64.cmp x y

def toFloat (x : Binary64) : Float := .ofBits x.bits

def ofFloat (x : Float) : Binary64 := ⟨x.toBits⟩

def ofInt (n : Int) : Binary64 := ofFloat (.ofInt n)

/-- An operation on a number. Where it gives NaN, the result is the number itself if that is NaN,
and `invalid` otherwise. -/
def unary (f : Float → Float) (x : Binary64) : Binary64 :=
  let r := f x.toFloat
  if !r.isNaN then ofFloat r else if x.isNaN then x else invalid

/-- An operation on two numbers. Where it gives NaN, the result is the first NaN among them, and
`invalid` if there is none. -/
def binary (f : Float → Float → Float) (x y : Binary64) : Binary64 :=
  let r := f x.toFloat y.toFloat
  if !r.isNaN then ofFloat r else if x.isNaN then x else if y.isNaN then y else invalid

def add : Binary64 → Binary64 → Binary64 := binary (· + ·)

def mul : Binary64 → Binary64 → Binary64 := binary (· * ·)

def div : Binary64 → Binary64 → Binary64 := binary (· / ·)

def equals (x y : Binary64) : Bool := x.toFloat == y.toFloat

def less (x y : Binary64) : Bool := x.toFloat < y.toFloat

def signed (negative : Bool) (s : String) : String := if negative then "-" ++ s else s

def write (zero : String) (magnitude : Dyadic → String) (x : Binary64) : String :=
  match x.parts with
  | .nan => "NaN"
  | .infinite negative => signed negative "inf"
  | .finite negative m => signed negative (if m.mantissa = 0 then zero else magnitude m)

/-- A literal is written with the fewest digits that identify it, never with an exponent.
Integers below `10 ^ 15` keep a fraction digit. -/
def literalText : Binary64 → String :=
  write "0.0" fun m => m.shortest.positional (m.shortest.magnitude < 15)

/-- Data are written with the fewest digits that identify them, positionally from `10 ^ -4` up to
`10 ^ 16` and always with a fraction digit there. -/
def dataText : Binary64 → String :=
  write "0.0" fun m =>
    let d := m.shortest
    if -4 ≤ d.magnitude ∧ d.magnitude < 16 then d.positional true else d.scientific

def significantText (n : Nat) : Binary64 → String :=
  write (Decimal.scientificZero n) fun m => (m.significant n).scientific

def secondsText : Binary64 → String :=
  write "0.000000" fun m => Decimal.fixed 6 (m.roundedTo 6)

def apply : Intrinsic → Binary64 → Binary64
  | .sin => unary Float.sin
  | .cos => unary Float.cos
  | .sqrt => unary Float.sqrt
  | .exp => unary Float.exp
  | .log => unary Float.log

instance : Arithmetic Binary64 where
  ofInt := ofInt
  add := add
  mul := mul
  neg := neg
  inv := unary (1.0 / ·)
  abs := abs
  pow := binary Float.pow
  pi := ofFloat 3.141592653589793
  apply := apply
  eq := equals
  isNegative x := less x zero
  integer? := integer?
  same := same
  cmp := literalCmp
  text := literalText

end Binary64

end Stencil
