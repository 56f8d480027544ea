import Stencil.Pipeline
import Stencil.Proofs.Assignment.Extraction
import Stencil.Proofs.Assignment.Rounds
import Stencil.Proofs.Expr.Collection
import Stencil.Proofs.Expr.Powers
import Stencil.Proofs.Pass.Increments

namespace Stencil

open Stencil.Expr Stencil.Flow

variable {α : Type} [AlgebraicField α] [Arithmetic α]

namespace Rewrites

variable {f : Assignment α → Assignment α}

theorem pure (hf : Rewrites f) {a : Assignment α} (hu : Unary a.rhs) (hp : PureIncrement a) :
    PureIncrement (f a) := by
  intro x hl hinc hmem
  rw [hf.lhs] at hl
  rw [hf.increment] at hinc
  exact hp x hl hinc ((hf.within {i | i ∈ a.rhs.inputs} a ⟨hu, fun _ hi => hi⟩).inputs _ hmem)

theorem refines (hf : Rewrites f) (hc : ∀ a, Canonical a.rhs → Canonical (f a).rhs) {g : Supply}
    {as : List (Assignment α)} (ht : ∀ a ∈ as, Tidy g a) : Refines g g as (as.map f) where
  tidy a ha := by
    obtain ⟨b, hb, rfl⟩ := List.mem_map.1 ha
    have htb := ht b hb
    exact ⟨hc b htb.canonical, hf.within _ b htb.within, hf.lhs b ▸ htb.target,
      hf.pure htb.within.unary htb.pure⟩
  known := subset_rfl
  models _ _ _ _ _ h := hf.models (fun a ha => (ht a ha).within.unary) h

end Rewrites

namespace ScalarPass

variable [Exact α]

theorem rewrites_factorize (config : Config) : Rewrites fun a : Assignment α =>
    let e := collected config a.rhs
    if e.cost false < a.rhs.cost false then a.withRhs e else a where
  lhs a := by dsimp only; split <;> rfl
  increment a := by dsimp only; split <;> rfl
  denote ρ a := by
    dsimp only
    split
    · exact denote_collected ρ config a.rhs
    · rfl
  within S a h := by
    dsimp only
    split
    · exact (hereditary_within S).regroupable.collected config h
    · exact h

theorem factorize_refines (config : Config) {g : Supply} {c : Cluster α}
    (ht : ∀ a ∈ c.assignments, Tidy g a) :
    Refines g g c.assignments (factorize config c).assignments := by
  refine (rewrites_factorize config).refines (fun a ha => ?_) ht
  dsimp only
  split
  · exact hereditary_canonical.regroupable.collected config ha
  · exact ha

theorem rewrites_finalize :
    Rewrites fun a : Assignment α => (a.withRhs a.rhs.expandPowers).freeze where
  lhs _ := rfl
  increment _ := rfl
  denote ρ a := denote_expandPowers ρ a.rhs
  within _ _ := within_expandPowers

end ScalarPass

namespace Pass

def KeepsMeaning (p : Pass) : Prop := p ≠ .aliases ∧ p ≠ .trigonometry

instance (p : Pass) : Decidable p.KeepsMeaning := inferInstanceAs (Decidable (_ ∧ _))

variable [Exact α]

theorem run_refines {p : Pass} (hp : p.KeepsMeaning) (config : Config) (c : Cluster α)
    (g : Supply) : ∃ k as, (p.run config c).run g.toNames =
        ([c.withAssignments as], (g.skip k).toNames) ∧
      ((∀ a ∈ c.assignments, Tidy g a) → g.Room k → Refines g (g.skip k) c.assignments as) := by
  cases p with
  | sumsOfProducts => exact ⟨_, _, rfl, Extraction.apply_refines⟩
  | invariants => exact ⟨_, _, rfl, Extraction.apply_refines⟩
  | subexpressions => exact ⟨_, _, rfl, Sharing.eliminate_refines⟩
  | factorize => exact ⟨0, _, rfl, fun ht _ => ScalarPass.factorize_refines config ht⟩
  | increments =>
    refine ⟨ScalarPass.splitCount c.assignments, _, ?_, ScalarPass.splitIncrements_refines⟩
    have hrun := ScalarPass.extractIncrements_run c g.toNames
    rw [ScalarPass.splitIncrements_names] at hrun
    exact congrArg (fun r : Cluster α × Names => ([r.1], r.2)) hrun
  | aliases => exact absurd rfl hp.1
  | trigonometry => exact absurd rfl hp.2

end Pass

namespace Pipeline

variable [Exact α]

omit [AlgebraicField α] [Exact α] in
theorem apply_run (config : Config) (name : String)
    {step : Cluster α → StateM Names (List (Cluster α))} {s : Pipeline α}
    {produced : List (List (Cluster α))} {g : Names}
    (h : (s.clusters.mapM step).run s.names = (produced, g)) :
    (apply config name step s).clusters =
        (if produced.flatten.isEmpty then s.clusters else produced.flatten) ∧
      (apply config name step s).names = g := by
  simp only [apply, h]
  split <;> exact ⟨rfl, rfl⟩

omit [AlgebraicField α] [Exact α] in
theorem apply_one (config : Config) (name : String)
    (step : Cluster α → StateM Names (List (Cluster α))) {s : Pipeline α} {c c' : Cluster α}
    {g : Names} (hs : s.clusters = [c]) (hstep : (step c).run s.names = ([c'], g)) :
    (apply config name step s).clusters = [c'] ∧ (apply config name step s).names = g := by
  have hrun : (s.clusters.mapM step).run s.names = ([[c']], g) := by
    rw [hs, List.mapM_cons, List.mapM_nil]
    exact congrArg (fun r : List (Cluster α) × Names => ([r.1], r.2)) hstep
  exact apply_run config name hrun

theorem foldl_pass_refines {ps : List Pass} (hps : ∀ p ∈ ps, p.KeepsMeaning) (config : Config)
    {s : Pipeline α} {c : Cluster α} {g : Supply} (hs : s.clusters = [c])
    (hg : s.names = g.toNames) :
    ∃ k as, (ps.foldl (fun s p => pass config p s) s).clusters = [c.withAssignments as] ∧
      (ps.foldl (fun s p => pass config p s) s).names = (g.skip k).toNames ∧
      ((∀ a ∈ c.assignments, Tidy g a) → g.Room k → Refines g (g.skip k) c.assignments as) := by
  induction ps generalizing s c g with
  | nil =>
    refine ⟨0, c.assignments, hs, hg, fun ht _ => ⟨ht, subset_rfl, fun _ _ _ _ _ h => h⟩⟩
  | cons p ps ih =>
    obtain ⟨k, as, hrun, hrefines⟩ := Pass.run_refines (hps p List.mem_cons_self) config c g
    obtain ⟨hclusters, hnames⟩ :=
      apply_one config p.name (fun c => p.run config c) hs (hg ▸ hrun)
    obtain ⟨l, bs, hclusters', hnames', hrefines'⟩ :=
      ih (fun q hq => hps q (List.mem_cons_of_mem p hq)) hclusters hnames
    refine ⟨k + l, bs, hclusters', hnames'.trans (by rw [Supply.skip_skip]), fun ht hroom => ?_⟩
    have hfirst := hrefines ht (hroom.anti (Nat.le_add_right k l))
    have hrest := hrefines' hfirst.tidy (Supply.room_skip.2 hroom)
    rw [Supply.skip_skip] at hrest
    exact hfirst.trans hrest

end Pipeline

end Stencil
