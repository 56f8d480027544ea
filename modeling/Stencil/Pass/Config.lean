namespace Stencil

/-- Names for temporaries: a stem followed by a number that only grows. -/
structure Names where
  stem : String
  next : Nat := 0
  deriving DecidableEq

namespace Names

def name (g : Names) (n : Nat) : String := g.stem ++ toString (g.next + n)

def skip (n : Nat) (g : Names) : Names := { g with next := g.next + n }

def take : StateM Names String := do
  let g ← get
  set (g.skip 1)
  return g.name 0

end Names

structure Config where
  /-- What a group of aliases has to cost in all to be lifted. -/
  minAlias : Nat := 10
  /-- The same for time-invariant expressions, of which one is enough. -/
  minInvariant : Nat := 50
  /-- What an expression has to cost to be collected more than once. -/
  minFactorize : Nat := 100
  profile : Bool := true
  stem : String := "r"
  deriving DecidableEq

end Stencil
