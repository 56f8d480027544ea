import Stencil.Tuning.Candidates

namespace Stencil

structure SearchSpace where
  generators : List (List Binding) := []
  deriving DecidableEq

namespace SearchSpace

def add (s : SearchSpace) (g : List Binding) : SearchSpace :=
  if g.isEmpty then s else ⟨s.generators ++ [g]⟩

def product {β : Type} : List (List β) → List (List β)
  | [] => [[]]
  | g :: r => g.flatMap fun a => (product r).map (a :: ·)

/-- All runs in order. There is none if there are no candidates. -/
def runs (s : SearchSpace) : List Binding :=
  if s.generators.isEmpty then [] else (product s.generators).map List.flatten

def size (s : SearchSpace) : Nat :=
  if s.generators.isEmpty then 0
  else (s.generators.map List.length).foldl (· * ·) 1 % 18446744073709551616

end SearchSpace

structure Sweep where
  index : Nat := 0
  runs : Option (List Binding) := none
  deriving DecidableEq

namespace Sweep

def name : String := "grid"

def next (g : Sweep) (s : SearchSpace) : Option Binding × Sweep :=
  let runs := g.runs.getD s.runs
  match runs[g.index]? with
  | some b => (some b, ⟨g.index + 1, some runs⟩)
  | none => (none, ⟨g.index, some runs⟩)

def reset (_ : Sweep) : Sweep := {}

def rest (g : Sweep) (s : SearchSpace) : List Binding := (g.runs.getD s.runs).drop g.index

theorem rest_of_next_some {g g' : Sweep} {s : SearchSpace} {b : Binding}
    (h : g.next s = (some b, g')) : g.rest s = b :: g'.rest s := by
  simp only [next] at h
  split at h
  · rename_i b' hb
    obtain ⟨hb', rfl⟩ := Prod.mk.inj h
    obtain ⟨hlt, heq⟩ := List.getElem?_eq_some_iff.1 (hb.trans hb')
    rw [rest, List.drop_eq_getElem_cons hlt, heq]
    rfl
  · exact absurd (Prod.mk.inj h).1.symm (Option.some_ne_none b)

theorem length_rest_lt {g g' : Sweep} {s : SearchSpace} {b : Binding}
    (h : g.next s = (some b, g')) : (g'.rest s).length < (g.rest s).length := by
  rw [rest_of_next_some h]
  exact Nat.lt_succ_self _

theorem rest_of_next_none {g g' : Sweep} {s : SearchSpace} (h : g.next s = (none, g')) :
    g.rest s = [] := by
  simp only [next] at h
  split at h
  · exact absurd (Prod.mk.inj h).1 (Option.some_ne_none _)
  · rename_i hend
    exact List.drop_eq_nil_of_le (List.getElem?_eq_none_iff.1 hend)

end Sweep

end Stencil
