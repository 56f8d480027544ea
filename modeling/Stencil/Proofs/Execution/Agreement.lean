import Stencil.Proofs.Execution.Effects

namespace Stencil

open Stencil.Expr Stencil.Flow Exec

variable {α : Type} {T : Set String} {g g' h : Grid α}

structure Grid.AgreeOff (T : Set String) (g h : Grid α) : Prop where
  params : h.params = g.params
  elements : ∀ n ∉ T, ∀ p, h.get? n p = g.get? n p

namespace Grid.AgreeOff

theorem refl (T : Set String) (g : Grid α) : AgreeOff T g g := ⟨rfl, fun _ _ _ => rfl⟩

theorem set_right (hgh : AgreeOff T g h) {n : String} (hn : n ∈ T) (p : List Int) (v : α) :
    AgreeOff T g (h.set n p v) where
  params := hgh.params
  elements m hm q := by
    have hne : n ≠ m := fun hnm => hm (hnm ▸ hn)
    rw [get?_set, if_neg fun hc => hne hc.1, hgh.elements m hm]

theorem set (hgh : AgreeOff T g h) (n : String) (p : List Int) (v : α) :
    AgreeOff T (g.set n p v) (h.set n p v) where
  params := hgh.params
  elements m hm q := by rw [get?_set, get?_set, hgh.elements m hm]

variable [Arithmetic α] {pos : Position} {sc sc' : Table String α} {as : List (Assignment α)}

theorem eval_input (hgh : AgreeOff T g h) {i : Expr α} (hi : i.isInput = true)
    (hT : ∀ y, i = access y → y.field.name ∉ T) :
    i.eval (env h pos sc) = i.eval (env g pos sc) := by
  cases i with
  | sym s => simp only [eval, env, hgh.params]
  | access y =>
    rw [eval, eval, resolve_env, resolve_env]
    simp only [env, hgh.elements _ (hT y rfl)]
  | _ => simp [isInput, isSymbol, isAccess] at hi

theorem replay (hgh : AgreeOff T g h) {W : List (Access × Bool × α)}
    (hW : ∀ w ∈ W, w.1.field.name ∉ T) (hrun : g.replay pos W = .ok g') :
    ∃ h', h.replay pos W = .ok h' ∧ AgreeOff T g' h' := by
  induction W generalizing g h with
  | nil =>
    obtain rfl : g = g' := by simpa [Grid.replay, pure, Except.pure] using hrun
    exact ⟨h, rfl, hgh⟩
  | cons w W ih =>
    obtain ⟨hw, hW⟩ := List.forall_mem_cons.1 hW
    obtain ⟨g₁, hperform, hrest⟩ := replay_cons.1 hrun
    have hstep : ∃ h₁, h.perform pos w = .ok h₁ ∧ AgreeOff T g₁ h₁ := by
      obtain ⟨p, hp, ⟨hinc, rfl⟩ | ⟨hinc, old, hold, rfl⟩⟩ := perform_eq_ok.1 hperform
      · exact ⟨_, perform_eq_ok.2 ⟨p, hp, .inl ⟨hinc, rfl⟩⟩, hgh.set _ _ _⟩
      · exact ⟨_, perform_eq_ok.2 ⟨p, hp, .inr ⟨hinc, old, hgh.elements _ hw p ▸ hold, rfl⟩⟩,
          hgh.set _ _ _⟩
    obtain ⟨h₁, hperform', hgh₁⟩ := hstep
    obtain ⟨h', hrest', hgh'⟩ := ih hgh₁ hW hrest
    exact ⟨h', replay_cons.2 ⟨h₁, hperform', hrest'⟩, hgh'⟩

theorem runs (hgh : AgreeOff T g h) (hT : ∀ a ∈ as, ∀ x, a.lhs = access x → x.field.name ∈ T)
    {h' : Grid α} (hrun : Runs pos as sc h sc' h') : AgreeOff T g h' := by
  induction as generalizing sc h with
  | nil => exact (runs_nil.1 hrun).2 ▸ hgh
  | cons a as ih =>
    obtain ⟨ha, hT⟩ := List.forall_mem_cons.1 hT
    obtain ⟨sc₁, h₁, hstep, hrest⟩ := runs_cons.1 hrun
    refine ih ?_ hT hrest
    obtain ⟨v, -, ⟨s, -, -, rfl⟩ | ⟨x, p, hl, -, -, rfl⟩⟩ := assign_eq_ok.1 hstep
    · exact hgh
    · exact hgh.set_right (ha x hl) p v

end Grid.AgreeOff

end Stencil
