import Stencil.Proofs.Pass.Inputs
import Stencil.Proofs.Space.Footprint

/-!
The footprint that a cluster has recorded, and the part of each array that its assignments touch.
Passes keep what is recorded, or record anew what fills a new array, but they do not record that
the array is read afterwards.
-/

namespace Stencil

open Stencil.Expr

variable {α : Type} {name : String} {ds : Set Dimension} {D : Set (List Dimension)} {c : Cluster α}

namespace Cluster

def recorded (c : Cluster α) (name : String) (ds : Set Dimension) : Set (Expr α) :=
  {i | ∀ x, i = access x → x.field.name = name →
    ∃ b, c.footprint.parts.get? name = some b ∧ b.Admits c.space.box ds x}

/-- Whether the footprint of a cluster covers all of its accesses to an array. -/
def Accounts (name : String) (ds : Set Dimension) (c : Cluster α) : Prop :=
  ∀ a ∈ c.assignments, a.Confined (c.recorded name ds)

theorem Accounts.admits (h : c.Accounts name ds) {x : Access}
    (hx : x ∈ accessesTo name c.assignments) :
    ∃ b, c.footprint.parts.get? name = some b ∧ b.Admits c.space.box ds x := by
  obtain ⟨⟨a, ha, hside⟩, hname⟩ := mem_accessesTo.1 hx
  exact Assignment.confined_iff.1 (h a ha) _ hside x rfl hname

def subscripted (name : String) (D : Set (List Dimension)) : Set (Expr α) :=
  {i | ∀ x, i = access x → x.field.name = name → x.dimensions ∈ D}

abbrev alike (name : String) (ds : Set Dimension) : Set (Expr α) :=
  subscripted name {l | ∀ d, d ∈ l ↔ d ∈ ds}

abbrev foreign (name : String) : Set (Expr α) := subscripted name ∅

theorem accounts_of_parts
    (hparts : c.footprint.parts = (Footprint.ofAssignments c.assignments c.space).parts)
    (halike : ∀ a ∈ c.assignments, a.Confined (alike name ds)) : c.Accounts name ds := by
  have hds : ∀ x ∈ accessesTo name c.assignments, ∀ d, d ∈ x.dimensions ↔ d ∈ ds := by
    intro x hx
    obtain ⟨⟨a, ha, hside⟩, hname⟩ := mem_accessesTo.1 hx
    exact Assignment.confined_iff.1 (halike a ha) _ hside x rfl hname
  intro a ha
  rw [Assignment.confined_iff]
  rintro i hi x rfl hname
  rw [hparts]
  exact Footprint.exists_part hds (mem_accessesTo.2 ⟨⟨a, ha, hi⟩, hname⟩)

def Fills (T : Set String) (c : Cluster α) : Prop :=
  ∃ a ∈ c.assignments, ∃ x, a.lhs = access x ∧ x.field.name ∈ T

structure Lacks (name : String) (c : Cluster α) : Prop where
  confined : ∀ a ∈ c.assignments, a.Confined (foreign name)
  unrecorded : c.footprint.parts.get? name = none

/-- Whether the footprint covers all accesses to an array, if it has a part for it at all. -/
structure Tracks (name : String) (ds : Set Dimension) (c : Cluster α) : Prop where
  confined : ∀ a ∈ c.assignments, a.Confined (alike name ds)
  accounts : c.footprint.parts.get? name ≠ none → c.Accounts name ds

/-- Whether an array is filled and not read, and has been recorded. -/
structure Holds (name : String) (c : Cluster α) : Prop where
  fills : c.Fills {name}
  foreign : ∀ a ∈ c.assignments, ∀ i ∈ a.rhs.inputs, i ∈ foreign name
  recorded : c.footprint.parts.get? name ≠ none

theorem Holds.not_lacks (h : c.Holds name) : ¬ c.Lacks name := fun hl => h.recorded hl.unrecorded

end Cluster

namespace Names

def taken (g : Names) : Set String := {s | ∃ m < g.next, s = g.stem ++ toString m}

theorem taken_skip (g : Names) (k : Nat) : g.taken ⊆ (g.skip k).taken := by
  rintro s ⟨m, hm, rfl⟩
  exact ⟨m, Nat.lt_add_right k hm, rfl⟩

end Names

namespace Cluster

variable {g : Names}

/-- Whether an array is not there yet, or has its name from the run and is tracked. -/
def Follows (name : String) (g : Names) (c : Cluster α) : Prop :=
  c.Lacks name ∨ name ∈ g.taken ∧ ∃ ds, c.Tracks name ds

theorem Follows.mono (h : c.Follows name g) (k : Nat) : c.Follows name (g.skip k) :=
  h.imp_right fun h => ⟨g.taken_skip k h.1, h.2⟩

theorem Follows.taken (h : c.Follows name g) (hh : c.Holds name) : name ∈ g.taken :=
  (h.resolve_left hh.not_lacks).1

end Cluster

variable [Arithmetic α] {g : Names}

namespace AliasGroups

variable {as : List (Assignment α)}

theorem exists_of_mem_keys_classes {key : Expr α} (h : key ∈ (classes as).keys) :
    ∃ a ∈ as, ∃ s, key = a.rhs.displace s := by
  revert h
  unfold classes
  refine List.foldlRecOn (motive := fun t : Table (Expr α) (List (Expr α × Distance)) =>
    key ∈ t.keys → ∃ a ∈ as, ∃ s, key = a.rhs.displace s) _ _ ?_ ?_
  · exact fun h => absurd h List.not_mem_nil
  · intro t ih a ha h
    rcases Table.mem_keys_insert h with h | rfl
    · exact ih h
    · exact ⟨a, List.mem_of_mem_filter ha, _, rfl⟩

theorem exists_of_mem_classes {m : Expr α × Distance} (h : m ∈ (classes as).values.flatten) :
    ∃ a ∈ as, a.rhs = m.1 := by
  revert h
  unfold classes
  refine List.foldlRecOn (motive := fun t : Table (Expr α) (List (Expr α × Distance)) =>
    m ∈ t.values.flatten → ∃ a ∈ as, a.rhs = m.1) _ _ (fun h => absurd h List.not_mem_nil) ?_
  intro t ih a ha h
  rcases Table.mem_flatten_update (P := (· = (a.rhs, corner a.rhs))) (fun ms m hm =>
    mem_enlist hm) h with h | rfl
  · exact ih h
  · exact ⟨a, List.mem_of_mem_filter ha, rfl⟩

variable {x : AliasGroup α}

theorem exists_class (h : x ∈ (ofAssignments as).groups.values) :
    ∃ y ∈ (classes as).entries, x = group y.1 y.2 := by
  rw [groups_ofAssignments] at h
  obtain ⟨y, hy, rfl⟩ := Table.mem_values_ofList h
  obtain ⟨x, hx, rfl⟩ := List.mem_map.1 hy
  obtain ⟨z, hz, rfl⟩ := List.mem_map.1 hx
  exact ⟨z, hz, rfl⟩

theorem exists_origin (h : x ∈ (ofAssignments as).groups.values) :
    ∃ a ∈ as, ∃ s t, x.origin = (a.rhs.displace s).displace t := by
  obtain ⟨y, hy, rfl⟩ := exists_class h
  obtain ⟨a, ha, s, hs⟩ := exists_of_mem_keys_classes (List.mem_map_of_mem hy)
  exact ⟨a, ha, s, middle y.2, congrArg (displace _) hs⟩

theorem exists_rhs (h : x ∈ (ofAssignments as).groups.values) {m : Expr α × Distance}
    (hm : m ∈ x.members) : ∃ a ∈ as, a.rhs = m.1 := by
  obtain ⟨y, hy, rfl⟩ := exists_class h
  obtain ⟨m, hm', rfl⟩ := List.mem_map.1 hm
  obtain ⟨a, ha, hrhs⟩ :=
    exists_of_mem_classes (List.mem_flatten.2 ⟨y.2, List.mem_map_of_mem hy, hm'⟩)
  exact ⟨a, ha, hrhs⟩

end AliasGroups

namespace Lifting

variable {hs : Handles α} {xs : List (AliasGroup α × Field)} {x : AliasGroup α × Field}
  {s : IterationSpace} {S : Set (Expr α)} {config : Config}

section Other

variable (hname : name ∉ g.first (lifted config c).length)

include hname

end Other

end Lifting

end Stencil
