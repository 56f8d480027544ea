import Stencil.Proofs.Execution.Effects
import Stencil.Proofs.Execution.Walk
import Stencil.Proofs.Pass.Scalar
import Stencil.Proofs.Rational

namespace Stencil

open Stencil.Expr Stencil.Flow Exec

variable {α : Type}

section Compact

variable [Arithmetic α] {a : Assignment α} {as : List (Assignment α)}

theorem Assignment.lhs_compact (a : Assignment α) : a.compact.lhs = a.lhs := by
  unfold compact
  split <;> rfl

theorem Assignment.increment_compact (a : Assignment α) : a.compact.increment = a.increment := by
  unfold compact
  split <;> rfl

theorem Expr.Hereditary.addition {P : Expr α → Prop} (hP : Hereditary P) (h : P a.rhs) :
    P a.addition := by
  unfold Assignment.addition
  split
  · rename_i args hrhs
    rw [hrhs] at h
    split
    · exact hP.sum fun e he => hP.args h e (List.mem_of_mem_filter he)
    · exact h
  · exact h

theorem Expr.Hereditary.compact {P : Expr α → Prop} (hP : Hereditary P) (h : P a.rhs) :
    P a.compact.rhs := by
  unfold Assignment.compact
  split
  · exact hP.addition h
  · exact h

theorem inputs_addition {i : Expr α} (hi : i ∈ a.addition.inputs) : i ∈ a.rhs.inputs :=
  (hereditary_inputs {i | i ∈ a.rhs.inputs}).addition (fun _ h => h) i hi

theorem inputs_compact {i : Expr α} (hi : i ∈ a.compact.rhs.inputs) : i ∈ a.rhs.inputs :=
  (hereditary_inputs {i | i ∈ a.rhs.inputs}).compact (fun _ h => h) i hi

theorem straightLine_compact (h : StraightLine as) :
    StraightLine (as.map Assignment.compact) where
  unary := by
    refine List.forall_mem_map.2 fun a ha => ?_
    exact ((hereditary_within Set.univ).compact ⟨h.unary a ha, fun _ _ => trivial⟩).unary
  plain := by
    refine List.forall_mem_map.2 fun a ha => ?_
    rw [a.lhs_compact, a.increment_compact]
    exact h.plain a ha
  once := by
    simpa only [List.pairwise_map, Assignment.lhs_compact] using h.once
  own := by
    refine List.forall_mem_map.2 fun a ha => ?_
    rw [a.lhs_compact]
    exact fun hs hi => h.own a ha hs (inputs_compact hi)
  later := by
    simp only [List.pairwise_map, Assignment.lhs_compact]
    exact h.later.imp fun hab hs hi => hab hs (inputs_compact hi)

theorem hazardFree_compact {pos : Position} (h : HazardFree pos as) :
    HazardFree pos (as.map Assignment.compact) := by
  simp only [HazardFree, List.pairwise_map, Assignment.lhs_compact]
  exact h.imp fun hab x y hx hy => hab x y hx (inputs_compact hy)

theorem assign_compact [LawfulBEq (Expr α)] {pos : Position} {sc sc' : Table String α}
    {g g' : Grid α} (hpure : PureIncrement a.compact)
    (hplain : a.lhs.isSymbol = true → a.increment = false)
    (h : (assign pos sc a).run g = .ok sc' g') : (assign pos sc a.compact).run g = .ok sc' g' := by
  cases hinc : a.increment with
  | false => rwa [Assignment.compact, hinc]
  | true =>
    obtain ⟨v, hv, htarget⟩ := assign_eq_ok.1 h
    obtain ⟨x, hl⟩ : ∃ x, a.lhs = access x := by
      rcases htarget with ⟨s, hl, -⟩ | ⟨x, -, hl, -⟩
      · simp [hl, hinc, isSymbol] at hplain
      · exact ⟨x, hl⟩
    have hcompact : a.compact.increment = true := a.increment_compact.trans hinc
    have haddition : a.compact.addition = a.addition := by
      rw [hpure.addition (a.lhs_compact.trans hl) hcompact, Assignment.compact, hinc]
      rfl
    rw [value_increment hinc] at hv
    rw [← a.lhs_compact, ← haddition, ← value_increment hcompact] at hv
    rw [← a.lhs_compact] at htarget
    exact assign_eq_ok.2 ⟨v, hv, htarget⟩

theorem Exec.Runs.compact [LawfulBEq (Expr α)] {pos : Position} {sc sc' : Table String α}
    {g g' : Grid α} (hpure : ∀ a ∈ as, PureIncrement a.compact)
    (hplain : ∀ a ∈ as, a.lhs.isSymbol = true → a.increment = false)
    (h : Runs pos as sc g sc' g') : Runs pos (as.map Assignment.compact) sc g sc' g' := by
  induction as generalizing sc g with
  | nil => exact h
  | cons a as ih =>
    obtain ⟨sc₁, g₁, hstep, hrest⟩ := runs_cons.1 h
    obtain ⟨hpurea, hpure⟩ := List.forall_mem_cons.1 hpure
    obtain ⟨hplaina, hplain⟩ := List.forall_mem_cons.1 hplain
    exact runs_cons.2 ⟨sc₁, g₁, assign_compact hpurea hplaina hstep, ih hpure hplain hrest⟩

end Compact

variable [AlgebraicField α] [Arithmetic α] [Exact α]

theorem Refines.runs {k k' : Supply} {as as' : List (Assignment α)} (h : Refines k k' as as')
    (ht : ∀ a ∈ as, Tidy k a) {f : Assignment α → Assignment α} (hf : Rewrites f)
    {pos : Position} {sc : Table String α} {g g' : Grid α} (hline : StraightLine as)
    (hhazard : HazardFree pos as) (hrun : Runs pos as .empty g sc g') :
    ∃ sc', Runs pos (as'.map f) .empty g sc' g' := by
  obtain ⟨P, β, W, hP, hsees, hmodels, hreplay⟩ :=
    models_of_runs hline (fun a ha => (ht a ha).pure) hhazard hrun
  have hknown : P ⊆ k.known := by
    intro i hi
    obtain ⟨a, ha, hia⟩ := hP i hi
    exact (ht a ha).within.inputs i hia
  have hunary : ∀ a ∈ as', Unary a.rhs := fun a ha => (h.tidy a ha).within.unary
  have hmodels' := hf.models hunary (h.models _ P β W hknown hmodels)
  refine runs_of_models ?_ ?_ hmodels' hsees hreplay
  · exact List.forall_mem_map.2 fun a ha => (hf.within _ a (h.tidy a ha).within).unary
  · exact List.forall_mem_map.2 fun a ha => hf.pure (hunary a ha) (h.tidy a ha).pure

namespace Exec

omit [AlgebraicField α] [Exact α] in
theorem final?_withAssignments {c : Cluster α} {as : List (Assignment α)} {g g' : Grid α}
    (hruns : ∀ pos ∈ Nest.points g.bounds.get? c, ∀ {h h' sc},
      Runs pos c.assignments .empty h sc h' → ∃ sc', Runs pos as .empty h sc' h')
    (h : final? [c] g = some g') : final? [c.withAssignments as] g = some g' := by
  rw [final?_eq_some] at h ⊢
  have hself : c.withAssignments c.assignments = c := rfl
  have hexecute : ∀ as, (execute [c.withAssignments as]).run g =
      (Nest.walk g.bounds.get? atPoint [c.withAssignments as]).run g := fun _ => rfl
  rw [← hself, hexecute, Nest.walk_withAssignments, bind_eq_ok] at h
  rw [hexecute, Nest.walk_withAssignments, bind_eq_ok]
  obtain ⟨⟨⟩, g₁, hpoints, hend⟩ := h
  refine ⟨(), g₁, forM_eq_ok (fun pos hpos u h h' hrun => ?_) hpoints, hend⟩
  obtain ⟨sc, hrun⟩ := atPoint_eq_ok.1 hrun
  exact atPoint_eq_ok.2 (hruns pos hpos hrun)

end Exec

namespace Pipeline

/-- The names that a run of passes takes, none of which is to occur in the cluster. -/
def FreshFor (g : Names) (n : Nat) (as : List (Assignment α)) : Prop :=
  ∀ m < n, ∀ a ∈ as, a.lhs ≠ sym (g.name m) ∧ sym (g.name m) ∉ a.rhs.inputs

/-- Wherever a cluster is executed, the rewritten one is, and with the same grid at the end,
provided that no increment reads its target other than as a term of its sum. -/
theorem final?_runPasses {ps : List Pass} (hps : ∀ p ∈ ps, p.KeepsMeaning) (config : Config)
    {c : Cluster α} {g g' : Grid α} (hcanonical : ∀ a ∈ c.assignments, Canonical a.rhs)
    (hline : StraightLine c.assignments)
    (hhazard : ∀ pos ∈ Nest.points g.bounds.get? c, HazardFree pos c.assignments)
    (hfresh : FreshFor ⟨config.stem, 0⟩ (runPasses config ps c).names.next c.assignments)
    (hpure : ∀ a ∈ c.assignments, PureIncrement a.compact)
    (h : final? [c] g = some g') : final? (runPasses config ps c).clusters g = some g' := by
  let compact := c.withAssignments (c.assignments.map Assignment.compact)
  let supply : Supply := ⟨⟨config.stem, 0⟩, (runPasses config ps c).names.next⟩
  obtain ⟨k, as, hclusters, hnames, hrefines⟩ :=
    foldl_pass_refines hps config (g := supply) (s := start config compact) rfl rfl
  obtain ⟨hfinal, htaken⟩ := apply_one config "finalize"
    (fun c => return [ScalarPass.finalize c]) hclusters rfl
  -- The names that the run takes are the ones that do not occur in the cluster.
  have hroom : supply.Room k := by
    have hnext : (runPasses config ps c).names.next = 0 + k :=
      congrArg Names.next (htaken.trans hnames)
    exact hnext.symm.le
  have hknown : ∀ i : Expr α, (∀ m < (runPasses config ps c).names.next,
      i ≠ sym ((⟨config.stem, 0⟩ : Names).name m)) → i ∈ supply.known := by
    intro i hi m hm
    refine hi m ?_
    unfold Supply.Room at hm
    simp only [supply] at hm
    omega
  have htidy : ∀ a ∈ compact.assignments, Tidy supply a := by
    refine List.forall_mem_map.2 fun a ha => ?_
    refine ⟨hereditary_canonical.compact (hcanonical a ha), ?_, ?_, hpure a ha⟩
    · refine (hereditary_within _).compact ⟨hline.unary a ha, fun i hi => ?_⟩
      exact hknown i fun m hm hs => (hfresh m hm a ha).2 (hs ▸ hi)
    · rw [a.lhs_compact]
      exact hknown _ fun m hm => (hfresh m hm a ha).1
  have hruns : ∀ pos ∈ Nest.points g.bounds.get? c, ∀ {h h' sc},
      Runs pos c.assignments .empty h sc h' →
      ∃ sc', Runs pos (ScalarPass.finalize (compact.withAssignments as)).assignments .empty
        h sc' h' := fun pos hpos h h' sc hrun =>
    (hrefines htidy hroom).runs htidy ScalarPass.rewrites_finalize (straightLine_compact hline)
      (hazardFree_compact (hhazard pos hpos)) (hrun.compact hpure hline.plain)
  have hexecute := final?_withAssignments hruns h
  rw [runPasses, finalize, hfinal]
  exact hexecute

/-- `p = 2*a + 2*s` and `u[x] += p`. -/
def doubled : Cluster ℚ :=
  let x : Dimension := .space "x"
  .ofAssignments [
    { lhs := sym "p", rhs := sum [product [num 2, sym "a"], product [num 2, sym "s"]] },
    { lhs := .access ⟨.input "u", [.affine x 0]⟩, rhs := sym "p", increment := true }] [x]

def smallGrid : Grid ℚ :=
  let x : Dimension := .space "x"
  let g := (({} : Grid ℚ).withBounds x 0 1).withParam "s" 1
  (g.withParam "a" 3).fill "u" [x] 0 fun _ => 10

theorem rhs_doubled {P : Expr ℚ → Prop} (hP : Hereditary P)
    (hleaf : ∀ e : Expr ℚ, e.isLeaf = true → P e) : ∀ a ∈ doubled.assignments, P a.rhs := by
  refine List.forall_mem_cons.2 ⟨hP.sum ?_, List.forall_mem_singleton.2 (hleaf _ rfl)⟩
  refine List.forall_mem_cons.2 ⟨?_, List.forall_mem_singleton.2 ?_⟩
  all_goals
    refine hP.product (List.forall_mem_cons.2 ⟨hleaf _ rfl, List.forall_mem_singleton.2 ?_⟩)
    exact hleaf _ rfl

theorem inputs_doubled :
    (sum [product [num 2, sym "a"], product [num 2, sym "s"]] : Expr ℚ).inputs =
      [sym "a", sym "s"] := by cbv

theorem straightLine_doubled : StraightLine doubled.assignments where
  unary a ha := (rhs_doubled (hereditary_within Set.univ)
    (fun _ he => ⟨unary_of_leaf he, fun _ _ => trivial⟩) a ha).unary
  plain := by simp [doubled, Cluster.ofAssignments, isSymbol]
  once := by simp [doubled, Cluster.ofAssignments]
  own := by simp [doubled, Cluster.ofAssignments, inputs_doubled, isSymbol]
  later := by simp [doubled, Cluster.ofAssignments, isSymbol]

theorem final?_runPasses_doubled :
    (final? (runPasses {} [.sumsOfProducts, .increments, .factorize, .invariants, .subexpressions]
      doubled).clusters smallGrid).bind (·.get? "u" [0]) = some 18 := by
  have hstart : (final? [doubled] smallGrid).bind (·.get? "u" [0]) = some 18 := by cbv
  obtain ⟨g, hg, hvalue⟩ := Option.bind_eq_some_iff.1 hstart
  have hname : ∀ m (s : String), s.toList.head? ≠ some 'r' → (⟨"r", 0⟩ : Names).name m ≠ s := by
    rintro m s hs rfl
    simp [Names.name] at hs
  rw [final?_runPasses (by decide) {} (rhs_doubled hereditary_canonical fun _ => canonical_of_isLeaf)
    straightLine_doubled ?_ ?_ ?_ hg]
  · exact hvalue
  · intro pos _
    simp [HazardFree, doubled, Cluster.ofAssignments]
  · intro m _
    have ha := hname m "a" (by decide)
    have hs := hname m "s" (by decide)
    have hp := hname m "p" (by decide)
    simp [doubled, Cluster.ofAssignments, inputs_doubled, inputs_of_isInput, isInput, isSymbol, ha,
      hs, hp, hp.symm]
  · refine List.forall_mem_cons.2 ⟨pureIncrement_of_plain rfl, List.forall_mem_singleton.2 ?_⟩
    intro y _ _ hy
    simp [Assignment.compact, Assignment.addition, Assignment.withRhs, inputs_of_isInput, isInput,
      isSymbol] at hy

/-- `u[x] += s + (2*a + 2*u[x])/2`. The target is not a term of the sum, but it becomes one when
the coefficient of the inner sum is taken out of it. -/
def hiddenTarget : Cluster ℚ :=
  let x : Dimension := .space "x"
  let u : Expr ℚ := .access ⟨.input "u", [.affine x 0]⟩
  let inner : Expr ℚ := sum [product [num 2, sym "a"], product [num 2, u]]
  .ofAssignments [{ lhs := u, rhs := sum [sym "s", product [num (1 / 2), inner]], increment := true }]
    [x]

theorem rhs_hiddenTarget {P : Expr ℚ → Prop} (hP : Hereditary P)
    (hleaf : ∀ e : Expr ℚ, e.isLeaf = true → P e) : ∀ a ∈ hiddenTarget.assignments, P a.rhs := by
  refine List.forall_mem_singleton.2 (hP.sum ?_)
  simp only [List.forall_mem_cons]
  refine ⟨hleaf _ rfl, hP.product ?_, by simp⟩
  simp only [List.forall_mem_cons]
  refine ⟨hleaf _ rfl, hP.sum ?_, by simp⟩
  simp only [List.forall_mem_cons]
  refine ⟨hP.product ?_, hP.product ?_, by simp⟩
  all_goals
    simp only [List.forall_mem_cons]
    exact ⟨hleaf _ rfl, hleaf _ rfl, by simp⟩

/-- Before its execution an increment leaves its target out of the sum once more, and by then the
target can have become one of the terms. -/
theorem factorize_drops_target :
    (∀ a ∈ hiddenTarget.assignments, Canonical a.rhs) ∧
      StraightLine hiddenTarget.assignments ∧
      (∀ pos ∈ Nest.points smallGrid.bounds.get? hiddenTarget,
        HazardFree pos hiddenTarget.assignments) ∧
      FreshFor ⟨"r", 0⟩ (runPasses {} [.factorize] hiddenTarget).names.next
        hiddenTarget.assignments ∧
      (final? [hiddenTarget] smallGrid).bind (·.get? "u" [0]) = some 24 ∧
      (final? (runPasses {} [.factorize] hiddenTarget).clusters smallGrid).bind
        (·.get? "u" [0]) = some 14 := by
  have hwithin := rhs_hiddenTarget (hereditary_within Set.univ) fun e he =>
    ⟨unary_of_leaf he, fun _ _ => trivial⟩
  have hnext : (runPasses {} [.factorize] hiddenTarget).names.next = 0 := by cbv
  refine ⟨rhs_hiddenTarget hereditary_canonical fun _ => canonical_of_isLeaf, ?_,
    fun _ _ => List.pairwise_singleton _ _, by simp [FreshFor, hnext], by cbv, by cbv⟩
  exact {
    unary := fun a ha => (hwithin a ha).unary
    plain := List.forall_mem_singleton.2 fun h => by simp [isSymbol] at h
    once := List.pairwise_singleton _ _
    own := List.forall_mem_singleton.2 fun h => by simp [isSymbol] at h
    later := List.pairwise_singleton _ _ }

end Pipeline

end Stencil
