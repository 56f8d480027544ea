import Stencil.Binary64.Basic

namespace Stencil.Binary64

def digits (ds : List Char) : Nat := ds.foldl (fun n c => 10 * n + (c.toNat - '0'.toNat)) 0

def sign : List Char → Bool × List Char
  | '-' :: r => (true, r)
  | '+' :: r => (false, r)
  | r => (false, r)

def exponent? : List Char → Option Int
  | [] => some 0
  | c :: r =>
    let (negative, ds) := sign r
    if (c == 'e' || c == 'E') && !ds.isEmpty && ds.all Char.isDigit then
      some (if negative then -(digits ds : Int) else digits ds)
    else none

def magnitude? (cs : List Char) : Option Binary64 :=
  let whole := cs.takeWhile Char.isDigit
  let r := cs.dropWhile Char.isDigit
  let (frac, r) := match r with
    | '.' :: r => (r.takeWhile Char.isDigit, r.dropWhile Char.isDigit)
    | r => ([], r)
  if whole.isEmpty && frac.isEmpty then none
  else (exponent? r).map fun e =>
    let k : Int := e - frac.length
    ofFloat (.ofScientific (digits (whole ++ frac)) (k < 0) k.natAbs)

def read? (s : String) : Option Binary64 :=
  let (negative, r) := sign s.toList
  let name := String.ofList (r.map Char.toLower)
  let x :=
    if name == "inf" || name == "infinity" then some infinity
    else if name == "nan" then some nan
    else magnitude? r
  if negative then x.map neg else x

end Stencil.Binary64
