import Stencil.Proofs.Pass.Accounts
import Stencil.Proofs.Rational

namespace Stencil

open Stencil.Expr

variable {α : Type} {name : String} {ds : Set Dimension} {c : Cluster α}

variable [Arithmetic α] {g : Names}

namespace Pass

variable {p : Pass}

end Pass

namespace Cluster

omit [Arithmetic α] in
theorem Fills.mono {T T' : Set String} (h : c.Fills T) (hT : T ⊆ T') : c.Fills T' := by
  obtain ⟨a, ha, x, hl, hx⟩ := h
  exact ⟨a, ha, x, hl, hT hx⟩

theorem Fills.finalize {T : Set String} (h : c.Fills T) : (ScalarPass.finalize c).Fills T := by
  obtain ⟨a, ha, x, hl, hx⟩ := h
  exact ⟨_, List.mem_map_of_mem ha, x, hl, hx⟩

theorem Lacks.finalize (h : c.Lacks name) : (ScalarPass.finalize c).Lacks name :=
  ⟨ScalarPass.confined_finalize h.confined, h.unrecorded⟩

theorem Follows.finalize (h : c.Follows name g) : (ScalarPass.finalize c).Follows name g := by
  refine h.imp Lacks.finalize fun ⟨htaken, ds, h⟩ => ⟨htaken, ds, ?_, fun hne => ?_⟩
  · exact ScalarPass.confined_finalize h.confined
  · exact ScalarPass.confined_finalize (h.accounts hne)

theorem Holds.finalize (h : c.Holds name) : (ScalarPass.finalize c).Holds name where
  fills := h.fills.finalize
  foreign := List.forall_mem_map.2 fun a ha i hi => h.foreign a ha i (mem_inputs_expandPowers hi)
  recorded := h.recorded

end Cluster

namespace Pipeline

section Runs

variable {Q : Names → Cluster α → Prop} {R : Names → List (Cluster α) → Prop}
  {step : Cluster α → StateM Names (List (Cluster α))} {cs : List (Cluster α)}

section MapM

variable (hnew : ∀ c g, ∃ new, Introduces g ((step c).run g).2 [c] ((step c).run g).1 new)

include hnew

variable (hmono : ∀ c g k, Q g c → Q (g.skip k) c)

include hmono

end MapM

variable (hmono : ∀ g k cs, R g cs → R (g.skip k) cs)

include hmono

end Runs

/-- The names that arrays of a run may have: none, if nothing is lifted. -/
def lifted (ps : List Pass) (s : Pipeline α) : Set String :=
  {name | .aliases ∈ ps ∧ name ∈ s.names.taken}

end Pipeline

def Uniform (name : String) (as : List (Assignment α)) : Prop :=
  ∀ x ∈ accessesTo name as, ∀ y ∈ accessesTo name as, ∀ d, d ∈ x.dimensions ↔ d ∈ y.dimensions

omit [Arithmetic α] in
theorem Uniform.accounts {as : List (Assignment α)} (h : Uniform name as) (dims : List Dimension) :
    ∃ ds, (Cluster.ofAssignments as dims).Accounts name ds := by
  refine ⟨{d | ∃ x ∈ accessesTo name as, d ∈ x.dimensions}, Cluster.accounts_of_parts rfl ?_⟩
  intro a ha
  rw [Assignment.confined_iff]
  rintro i hi x rfl hname d
  have hx : x ∈ accessesTo name as := mem_accessesTo.2 ⟨⟨a, ha, hi⟩, hname⟩
  constructor
  · exact fun hd => ⟨x, hx, hd⟩
  · rintro ⟨y, hy, hd⟩
    exact (h y hy x hx d).1 hd

namespace Pipeline

section Search

omit [Arithmetic α]

variable {cs : List (Cluster α)}

end Search

end Pipeline

end Stencil
