import Stencil.Proofs.Expr.Values
import Stencil.Proofs.Rational

namespace Stencil

namespace Expr

variable {α : Type} [Arithmetic α] [AlgebraicField α] [Exact α] {env : Env α} {e : Expr α} {v : α}

theorem eval_collect (h : eval env e = .ok v) : eval env e.collect = .ok v :=
  eval_of_denote (fun ρ => denote_collect ρ e) h ((regroupable_evaluates env).collect ⟨v, h⟩)

theorem eval_collected (config : Config) (h : eval env e = .ok v) :
    eval env (ScalarPass.collected config e) = .ok v :=
  eval_of_denote (fun ρ => denote_collected ρ config e) h
    ((regroupable_evaluates env).collected config ⟨v, h⟩)

end Expr

namespace ScalarPass

variable {α : Type} [Arithmetic α]

theorem factorize_keeps_values [AlgebraicField α] [Exact α] (config : Config) (c : Cluster α) :
    List.Forall₂ (fun a b => b = a.withRhs b.rhs ∧
        (∀ env v, a.rhs.eval env = .ok v →
          a.rhs.collect.eval env = .ok v ∧ b.rhs.eval env = .ok v) ∧
        (b.rhs = a.rhs ∨ b.rhs.cost false < a.rhs.cost false))
      c.assignments (factorize config c).assignments := by
  refine List.forall₂_map_right_iff.2 (List.forall₂_same.2 fun a _ => ?_)
  dsimp only
  split
  · rename_i hcheaper
    exact ⟨rfl, fun env v h => ⟨Expr.eval_collect h, Expr.eval_collected config h⟩, .inr hcheaper⟩
  · exact ⟨rfl, fun env v h => ⟨Expr.eval_collect h, h⟩, .inl rfl⟩

/-- `p = a*b + a*s` with `a = 2`, `b = 3` and `s = 7`. -/
def sharedFactor : Cluster ℚ :=
  .ofAssignments [{
    lhs := .sym "p"
    rhs := .add [.mul [.sym "a", .sym "b"], .mul [.sym "a", .sym "s"]] }] [.space "x"]

def sharedEnv : Env ℚ where
  symbol s :=
    if s = "a" then some 2 else if s = "b" then some 3 else if s = "s" then some 7 else none
  position _ := none
  element _ _ := none

theorem factorize_keeps_values_shared :
    (∀ b ∈ (factorize {} sharedFactor).assignments, b.rhs.eval sharedEnv = .ok 20) ∧
      (sharedFactor.assignments.map fun a => a.rhs.cost false) = [3] ∧
      ((factorize {} sharedFactor).assignments.map fun b => b.rhs.cost false) = [2] := by
  refine ⟨fun b hb => ?_, by cbv, by cbv⟩
  have hall := factorize_keeps_values {} sharedFactor
  generalize (factorize {} sharedFactor).assignments = bs at hall hb
  cases hall with
  | cons hkeeps hnil =>
    cases hnil
    obtain rfl := List.mem_singleton.1 hb
    exact (hkeeps.2.1 sharedEnv 20 (by cbv)).2

end ScalarPass

end Stencil
