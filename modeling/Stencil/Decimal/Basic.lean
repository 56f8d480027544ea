namespace Stencil

structure Decimal where
  digits : Nat
  exponent : Int
  deriving DecidableEq

namespace Decimal

def roundDiv (num den : Nat) : Nat :=
  let q := num / den
  let r := num % den
  if 2 * r < den then q
  else if den < 2 * r then q + 1
  else if q % 2 = 0 then q
  else q + 1

def text (n : Nat) : String := String.ofList (Nat.toDigits 10 n)

def length (n : Nat) : Nat := (Nat.toDigits 10 n).length

/-- Moves the factors of ten of a number into the exponent. The first argument bounds their
number. -/
def strip : Nat → Nat → Int → Decimal
  | 0, d, k => ⟨d, k⟩
  | n + 1, d, k => if d ≠ 0 ∧ d % 10 = 0 then strip n (d / 10) (k + 1) else ⟨d, k⟩

def magnitude (x : Decimal) : Int := x.exponent + length x.digits - 1

def zeros (n : Nat) : String := String.ofList (List.replicate n '0')

def pointAfter (n : Nat) (ds : List Char) : String :=
  String.ofList (ds.take n) ++ "." ++ String.ofList (ds.drop n)

def positional (point : Bool) (x : Decimal) : String :=
  let ds := Nat.toDigits 10 x.digits
  if 0 ≤ x.exponent then
    text x.digits ++ zeros x.exponent.toNat ++ (if point then ".0" else "")
  else
    let n := x.magnitude + 1
    if 0 < n then pointAfter n.toNat ds
    else "0." ++ zeros n.natAbs ++ text x.digits

def scientific (x : Decimal) : String :=
  let ds := Nat.toDigits 10 x.digits
  (if ds.length ≤ 1 then text x.digits else pointAfter 1 ds) ++ "e" ++ toString x.magnitude

def scientificZero (n : Nat) : String :=
  (if n ≤ 1 then "0" else "0." ++ zeros (n - 1)) ++ "e0"

def fixed (places n : Nat) : String :=
  let ds := Nat.toDigits 10 n
  let ds := List.replicate (places + 1 - ds.length) '0' ++ ds
  pointAfter (ds.length - places) ds

end Decimal

end Stencil
