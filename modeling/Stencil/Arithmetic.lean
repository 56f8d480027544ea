namespace Stencil

inductive Intrinsic where
  | sin
  | cos
  | sqrt
  | exp
  | log
  deriving DecidableEq

namespace Intrinsic

def name : Intrinsic → String
  | sin => "sin"
  | cos => "cos"
  | sqrt => "sqrt"
  | exp => "exp"
  | log => "log"

def rank : Intrinsic → Nat
  | sin => 0
  | cos => 1
  | sqrt => 2
  | exp => 3
  | log => 4

protected def cmp (f g : Intrinsic) : Ordering := compare f.rank g.rank

def weight : Intrinsic → Nat
  | sqrt => 10
  | _ => 50

def all : List Intrinsic := [sin, cos, sqrt, exp, log]

def ofName? (s : String) : Option Intrinsic := all.find? (·.name == s)

theorem rank_injective {f g : Intrinsic} (h : f.rank = g.rank) : f = g := by
  cases f <;> cases g <;> simp_all [rank]

end Intrinsic

/--
The arithmetic that literals and array elements live in. Everything above this class is
written once for all arithmetics: a program runs over binary64 numbers, and the same
definitions can be read over an exact field.
-/
class Arithmetic (α : Type) where
  ofInt : Int → α
  add : α → α → α
  mul : α → α → α
  neg : α → α
  inv : α → α
  abs : α → α
  pow : α → α → α
  pi : α
  apply : Intrinsic → α → α
  /-- Numeric equality; need not be reflexive. -/
  eq : α → α → Bool
  isNegative : α → Bool
  /-- The integer that a value denotes, if it denotes one in the range of 64-bit integers. -/
  integer? : α → Option Int
  /-- Whether two literals are the same literal. -/
  same : α → α → Bool
  cmp : α → α → Ordering
  text : α → String

namespace Arithmetic

variable {α : Type} [Arithmetic α]

def zero : α := ofInt 0

def one : α := ofInt 1

def isZero (a : α) : Bool := eq a zero

def isOne (a : α) : Bool := eq a one

def isMinusOne (a : α) : Bool := eq a (ofInt (-1))

def sum (xs : List α) : α := xs.foldl add zero

def product (xs : List α) : α := xs.foldl mul one

/-- Repeated squaring: multiplies `acc` by `b` to the power `n`. The first argument bounds the
number of halvings of `n`, for which `n` itself is enough. -/
def squareMul : Nat → α → α → Nat → α
  | 0, acc, _, _ => acc
  | k + 1, acc, b, n =>
    let acc := if n % 2 = 1 then mul acc b else acc
    if n / 2 = 0 then acc else squareMul k acc (mul b b) (n / 2)

def powInt (b : α) (n : Int) : α :=
  let r := squareMul n.natAbs one b n.natAbs
  if n < 0 then inv r else r

end Arithmetic

/-!
Integers of any size stand for 64-bit integers: offsets of subscripts and of intervals, bounds and
extents of loops, windows of time steps, numbers of blocks and of work for each thread. Their sums
and products are taken to fit. Where that range decides, it is written out: doubled block sizes are
saturated, and the size of a search space is taken modulo `2 ^ 64`.
-/

def maxInt64 : Int := 9223372036854775807

def minInt64 : Int := -9223372036854775808

def saturate (n : Int) : Int := max minInt64 (min maxInt64 n)

end Stencil
