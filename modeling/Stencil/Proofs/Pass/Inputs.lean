import Stencil.Proofs.Expr.Trigonometry
import Stencil.Proofs.Pass.Frozen

namespace Stencil

open Stencil.Expr

variable {α : Type}

def Assignment.Confined (S : Set (Expr α)) (a : Assignment α) : Prop :=
  (∀ i ∈ a.lhs.inputs, i ∈ S) ∧ ∀ i ∈ a.rhs.inputs, i ∈ S

theorem Assignment.confined_iff {S : Set (Expr α)} {a : Assignment α} :
    a.Confined S ↔ ∀ i, i ∈ a.lhs.inputs ∨ i ∈ a.rhs.inputs → i ∈ S := by
  simp only [Confined, or_imp, forall_and]

theorem Assignment.Confined.mono {S S' : Set (Expr α)} {a : Assignment α} (h : a.Confined S)
    (hS : S ⊆ S') : a.Confined S' :=
  ⟨fun i hi => hS (h.1 i hi), fun i hi => hS (h.2 i hi)⟩

variable [Arithmetic α] {S : Set (Expr α)}

namespace Expr

end Expr

section Scalars

variable {P : Expr α → Prop} (hP : Hereditary P) (hsym : ∀ s, P (sym s))

namespace Extraction

variable {p : Policy α} {g : Names} {F : Found α} {e : Expr α} {parts : List (Part α)}

include hP hsym

end Extraction

namespace Sharing

variable {g : Names}

include hP hsym

end Sharing

end Scalars

namespace ScalarPass

end ScalarPass

variable {as : List (Assignment α)}

theorem ScalarPass.confined_finalize {c : Cluster α} (h : ∀ a ∈ c.assignments, a.Confined S) :
    ∀ a ∈ (ScalarPass.finalize c).assignments, a.Confined S :=
  List.forall_mem_map.2 fun a ha => ⟨(h a ha).1, fun i hi =>
    (h a ha).2 i (mem_inputs_expandPowers hi)⟩

end Stencil
