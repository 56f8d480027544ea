import Std.Data.TreeMap
import Stencil.Expr.Eval

namespace Stencil

abbrev Elements (α : Type) := Std.TreeMap (List Int) α

structure Grid (α : Type) where
  bounds : Table Dimension (Int × Int) := .empty
  params : Table String α := .empty
  fields : Table String (Elements α) := .empty

namespace Grid

variable {α : Type}

def withBounds (g : Grid α) (d : Dimension) (lo hi : Int) : Grid α :=
  { g with bounds := g.bounds.insert d (lo, hi) }

def withParam (g : Grid α) (name : String) (v : α) : Grid α :=
  { g with params := g.params.insert name v }

def get? (g : Grid α) (name : String) (p : List Int) : Option α :=
  (g.fields.get? name).bind fun es => es[p]?

def set (g : Grid α) (name : String) (p : List Int) (v : α) : Grid α :=
  { g with fields := g.fields.update name {} (·.insert p v) }

def range (lo hi : Int) : List Int :=
  (List.range (hi - lo + 1).toNat).map fun (n : Nat) => lo + n

/-- The bounds of some dimensions, padded on both sides. A dimension without bounds has the point
zero only. -/
def padded (g : Grid α) (ds : List Dimension) (halo : Int) : List (Int × Int) :=
  ds.map fun d =>
    let (lo, hi) := (g.bounds.get? d).getD (0, 0)
    (lo - halo, hi + halo)

/-- Turns the wheels of an odometer, which are given from the fastest one on. The first wheel that
is not at its end moves on by one, and those before it go back to their starts. -/
def turn : List (Int × Int) → List Int → Option (List Int)
  | (lo, hi) :: wheels, v :: vs =>
    if v < hi then some ((v + 1) :: vs) else (turn wheels vs).map (lo :: ·)
  | _, _ => none

def next? (ranges : List (Int × Int)) (p : List Int) : Option (List Int) :=
  (turn ranges.reverse p.reverse).map List.reverse

def turnsLeft : List (Int × Int) → List Int → Nat
  | (lo, hi) :: wheels, v :: vs => (hi - v).toNat + ((hi - lo).toNat + 1) * turnsLeft wheels vs
  | _, _ => 0

theorem turnsLeft_turn {wheels : List (Int × Int)} {vs ws : List Int}
    (h : turn wheels vs = some ws) : turnsLeft wheels ws < turnsLeft wheels vs := by
  induction wheels generalizing vs ws with
  | nil => simp [turn] at h
  | cons wheel wheels ih =>
    obtain ⟨lo, hi⟩ := wheel
    cases vs with
    | nil => simp [turn] at h
    | cons v vs =>
      rw [turn] at h
      split at h
      · obtain rfl := Option.some.inj h
        simp only [turnsLeft]
        omega
      · obtain ⟨us, hus, rfl⟩ := Option.map_eq_some_iff.1 h
        have hmul := Nat.mul_le_mul_left ((hi - lo).toNat + 1) (Nat.succ_le_of_lt (ih hus))
        rw [Nat.mul_succ] at hmul
        simp only [turnsLeft]
        omega

theorem turnsLeft_next? {ranges : List (Int × Int)} {p q : List Int} (h : next? ranges p = some q) :
    turnsLeft ranges.reverse q.reverse < turnsLeft ranges.reverse p.reverse := by
  obtain ⟨vs, hvs, rfl⟩ := Option.map_eq_some_iff.1 h
  rw [List.reverse_reverse]
  exact turnsLeft_turn hvs

section Fill

variable {m : Type → Type} [Monad m]

def fillFrom (ranges : List (Int × Int)) (value : List Int → m α) (p : List Int)
    (es : Elements α) : m (Elements α) := do
  let es := es.insert p (← value p)
  match _h : next? ranges p with
  | none => return es
  | some q => fillFrom ranges value q es
termination_by turnsLeft ranges.reverse p.reverse
decreasing_by exact turnsLeft_next? ‹_›

/-- Stores what `value` says at every point of the padded bounds. The field is there afterwards even
if there are no points. -/
def fillM (g : Grid α) (name : String) (ds : List Dimension) (halo : Int)
    (value : List Int → m α) : m (Grid α) := do
  let ranges := g.padded ds halo
  let es := (g.fields.get? name).getD {}
  let es ←
    if ranges.any fun r => r.2 < r.1 then pure es
    else fillFrom ranges value (ranges.map Prod.fst) es
  return { g with fields := g.fields.insert name es }

end Fill

def fill (g : Grid α) (name : String) (ds : List Dimension) (halo : Int)
    (value : List Int → α) : Grid α :=
  Id.run (g.fillM name ds halo fun p => pure (value p))

end Grid

end Stencil
