import Stencil.Binary64.Basic
import Stencil.Table

/-!
Run-time arguments. Arrays, timers and routing tables are shared: an argument holds a reference to
storage, and whoever has the reference sees what is written there.
-/

namespace Stencil

@[ext] structure Ref (β : Type) where
  index : Nat

instance {β : Type} : DecidableEq (Ref β) := fun r s =>
  decidable_of_iff (r.index = s.index) Ref.ext_iff.symm

structure Cells (β : Type) where
  contents : List β := []

namespace Cells

variable {β : Type}

def new (c : Cells β) (v : β) : Ref β × Cells β := (⟨c.contents.length⟩, ⟨c.contents ++ [v]⟩)

def get? (c : Cells β) (r : Ref β) : Option β := c.contents[r.index]?

def update (c : Cells β) (r : Ref β) (f : β → β) : Cells β := ⟨c.contents.modify r.index f⟩

theorem get?_update (c : Cells β) (r s : Ref β) (f : β → β) :
    (c.update r f).get? s = if r = s then (c.get? s).map f else c.get? s := by
  cases r; cases s
  simp [update, get?, List.getElem?_modify]
  split <;> simp_all

theorem get?_new (c : Cells β) (v : β) (s : Ref β) :
    (c.new v).2.get? s = if (c.new v).1 = s then some v else c.get? s := by
  obtain ⟨s⟩ := s
  simp only [new, get?, Ref.mk.injEq]
  by_cases h : c.contents.length = s
  · simp [h.symm]
  · simp only [h, if_false]
    by_cases hl : s < c.contents.length
    · simp [List.getElem?_append_left hl]
    · rw [List.getElem?_eq_none (by simp; omega), List.getElem?_eq_none (by omega)]

end Cells

abbrev Timer := Table String Binary64

namespace Timer

def record (t : Timer) (section_ : String) (seconds : Binary64) : Timer :=
  t.update section_ .zero (Binary64.add · seconds)

/-- The sum of all counters; over no counters it is negative zero, the neutral element of
addition. -/
def total (t : Timer) : Binary64 := t.values.foldl Binary64.add .negativeZero

def cleared (t : Timer) : Timer := t.mapValues fun _ => .zero

end Timer

structure Ranks where
  source : Int
  target : Int
  deriving DecidableEq

/-- The rank of no process. What goes to it or comes from it is dropped. -/
def nullRank : Int := -2

abbrev Neighbours := Table String Int

structure Store where
  buffers : Cells (List Binary64) := {}
  timers : Cells Timer := {}
  neighbours : Cells Neighbours := {}
  messages : Cells Ranks := {}

inductive Argument where
  | int (value : Int)
  | float (value : Binary64)
  | buffer (data : Ref (List Binary64))
  | timer (counters : Ref Timer)
  | neighbours (ranks : Ref Neighbours)
  | messages (ranks : List (Ref Ranks))
  deriving DecidableEq

namespace Argument

def int? : Argument → Option Int
  | int v => some v
  | _ => none

def number? : Argument → Option Binary64
  | int v => some (.ofInt v)
  | float v => some v
  | _ => none

protected def beq : Argument → Argument → Bool
  | int a, int b => a == b
  | float a, float b => Binary64.equals a b
  | buffer a, buffer b => a == b
  | timer a, timer b => a == b
  | neighbours a, neighbours b => a == b
  | messages a, messages b => a == b
  | _, _ => false

instance : BEq Argument := ⟨Argument.beq⟩

end Argument

abbrev Arguments := Table String Argument

namespace Arguments

def int? (args : Arguments) (name : String) : Option Int := (args.get? name).bind Argument.int?

def scalars (args : Arguments) : Table String Binary64 :=
  ⟨args.entries.filterMap fun x => x.2.number?.map (x.1, ·)⟩

def insertInts (args : Arguments) (xs : List (String × Int)) : Arguments :=
  xs.foldl (fun args x => args.insert x.1 (.int x.2)) args

end Arguments

inductive Snapshot where
  | int (value : Int)
  | float (value : Binary64)
  | buffer (data : List Binary64)
  | timer (total : Binary64)
  | neighbours (ranks : Neighbours)
  | messages (ranks : List Ranks)

namespace Store

def newBuffer (s : Store) (data : List Binary64) : Argument × Store :=
  let (r, cells) := s.buffers.new data
  (.buffer r, { s with buffers := cells })

def newTimer (s : Store) (t : Timer) : Ref Timer × Store :=
  let (r, cells) := s.timers.new t
  (r, { s with timers := cells })

def newNeighbours (s : Store) (ranks : Neighbours) : Argument × Store :=
  let (r, cells) := s.neighbours.new ranks
  (.neighbours r, { s with neighbours := cells })

def newMessage (s : Store) (ranks : Ranks) : Ref Ranks × Store :=
  let (r, cells) := s.messages.new ranks
  (r, { s with messages := cells })

def writeBuffer (s : Store) (r : Ref (List Binary64)) (f : List Binary64 → List Binary64) : Store :=
  { s with buffers := s.buffers.update r f }

def copyBuffer (s : Store) (r : Ref (List Binary64)) : Argument × Store :=
  s.newBuffer ((s.buffers.get? r).getD [])

def clearTimer (s : Store) (r : Ref Timer) : Store :=
  { s with timers := s.timers.update r Timer.cleared }

def recordTime (s : Store) (r : Ref Timer) (section_ : String) (seconds : Binary64) : Store :=
  { s with timers := s.timers.update r (·.record section_ seconds) }

def elapsed (s : Store) (r : Ref Timer) : Binary64 := ((s.timers.get? r).getD .empty).total

def setNeighbour (s : Store) (r : Ref Neighbours) (field : String) (rank : Int) : Store :=
  { s with neighbours :=
      s.neighbours.update r fun t => if t.contains field then t.insert field rank else t }

def setRanks (s : Store) (r : Ref Ranks) (ranks : Ranks) : Store :=
  { s with messages := s.messages.update r fun _ => ranks }

def snapshot (s : Store) : Argument → Snapshot
  | .int v => .int v
  | .float v => .float v
  | .buffer r => .buffer ((s.buffers.get? r).getD [])
  | .timer r => .timer (s.elapsed r)
  | .neighbours r => .neighbours ((s.neighbours.get? r).getD .empty)
  | .messages rs => .messages (rs.filterMap s.messages.get?)

end Store

end Stencil
