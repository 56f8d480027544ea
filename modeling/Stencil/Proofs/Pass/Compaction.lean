import Stencil.Proofs.Execution.Outcome
import Stencil.Proofs.Pass.Run

namespace Stencil

open Stencil.Expr Exec

variable {α : Type} [AlgebraicField α] [Arithmetic α] [Exact α] {a : Assignment α}
  {as : List (Assignment α)} {T : Set String} {g : Names}

namespace Assignment

omit [AlgebraicField α] [Exact α] in
theorem addition_of_not_mem [LawfulBEq (Expr α)] (h : ∀ args, a.rhs = add args → a.lhs ∉ args) :
    a.addition = a.rhs := by
  unfold addition
  split
  · rename_i args hrhs
    rw [if_neg (by simpa using h args hrhs)]
    exact hrhs.symm
  · rfl

omit [AlgebraicField α] [Exact α] in
theorem not_mem_addition [LawfulBEq (Expr α)] [LawfulLiterals α] (hc : Canonical a.rhs)
    (hl : a.lhs.isNumber = false) {args : List (Expr α)} (h : a.addition = add args) :
    a.lhs ∉ args := by
  intro hmem
  unfold addition at h
  split at h
  · rename_i es hrhs
    split at h
    · have hflat : ∀ e ∈ es.filter (· != a.lhs), e.isSum = false := by
        intro e he
        rw [hrhs] at hc
        cases hc with
        | add _ hn _ => exact hn.flat e (List.mem_of_mem_filter he)
      rcases mem_of_sum_eq_add hflat h hmem with hnum | hmem
      · rw [hl] at hnum
        exact Bool.false_ne_true hnum
      · simpa using (List.mem_filter.1 hmem).2
    · rename_i hnot
      obtain rfl := add.inj h
      exact hnot (List.contains_iff_mem.2 hmem)
  · rename_i hadd
    exact hadd args h

theorem addition_compact (hc : Canonical a.rhs) (hl : a.lhs.isNumber = false)
    (hinc : a.increment = true) : a.compact.addition = a.addition := by
  have hcompact : a.compact = a.withRhs a.addition := by rw [compact, hinc]; rfl
  rw [hcompact]
  exact addition_of_not_mem fun args h => not_mem_addition hc hl h

end Assignment

namespace ScalarPass

def written (a : Assignment α) : Assignment α := (a.withRhs a.rhs.expandPowers).freeze

theorem addition_written_compact (hc : Canonical a.rhs) (hl : a.lhs.isInput = true)
    (hinc : a.increment = true) : (written a.compact).addition = a.addition.expandPowers := by
  have hleaf : a.lhs.isLeaf = true ∧ a.lhs.isNumber = false := by
    cases hl' : a.lhs <;> simp_all [isInput, isSymbol, isAccess, isLeaf, isNumber]
  have hwritten : written a.compact = (a.withRhs a.addition.expandPowers).freeze := by
    rw [written, Assignment.compact, hinc]
    rfl
  rw [hwritten]
  apply Assignment.addition_of_not_mem
  -- Writing out powers makes no leaf out of what is none, so the target was a term before.
  intro es hes hmem
  obtain ⟨args, hargs, rfl⟩ := expandPowers_eq_add hes
  obtain ⟨e, he, heq⟩ := List.mem_map.1 hmem
  obtain rfl := (expandPowers_eq_leaf hleaf.1).1 heq
  exact Assignment.not_mem_addition hc hleaf.2 hargs he

structure Clear (T : Set String) (a : Assignment α) : Prop where
  target : ∀ s ∈ T, a.lhs ≠ sym s
  reads : ∀ s ∈ T, sym s ∉ a.rhs.inputs

omit [AlgebraicField α] [Exact α] in
theorem Clear.addition (h : Clear T a) : ∀ s ∈ T, sym s ∉ a.addition.inputs :=
  fun s hs hmem => h.reads s hs (inputs_addition hmem)

omit [AlgebraicField α] [Arithmetic α] [Exact α] in
theorem Clear.lhs (h : Clear T a) (hl : a.lhs.isInput = true) : ∀ s ∈ T, sym s ∉ a.lhs.inputs := by
  intro s hs hmem
  rw [inputs_of_isInput hl, List.mem_singleton] at hmem
  exact h.target s hs hmem.symm

theorem value_written_compact {pos : Position} {gr : Grid α} {sc sc' : Table String α}
    (hc : Canonical a.rhs) (h : Clear T a) (hagree : AgreeOff T sc sc')
    (hl : a.lhs.isInput = true) :
    value (env gr pos sc') (written a.compact) = value (env gr pos sc) a := by
  have hlhs : (written a.compact).lhs = a.lhs := a.lhs_compact
  have hincrement : (written a.compact).increment = a.increment := a.increment_compact
  cases hinc : a.increment with
  | false =>
    have hrhs : (written a.compact).rhs = a.rhs.expandPowers := by
      rw [Assignment.compact, hinc]
      rfl
    rw [value_plain (hincrement.trans hinc), value_plain hinc, hrhs, eval_expandPowers]
    exact hagree.eval h.reads
  | true =>
    rw [value, value, hincrement, hinc, hlhs, addition_written_compact hc hl hinc,
      eval_expandPowers, hagree.eval (h.lhs hl), hagree.eval h.addition, if_pos rfl, if_pos rfl]

theorem replaces_written (hc : Canonical a.rhs) (h : Clear T a) :
    Replaces T a [written a.compact] := by
  intro pos sc sc' gr hagree
  have hlhs : (written a.compact).lhs = a.lhs := a.lhs_compact
  rw [List.foldlM_cons]
  simp only [List.foldlM_nil, bind_pure]
  apply alike_assign hagree hlhs
  intro hl v
  rw [value_written_compact hc h hagree hl]

theorem replaces_split (hc : Canonical a.rhs) (h : Clear T a) (hinc : a.increment = true)
    {x : Access} (hl : a.lhs = access x) {t : String} (ht : t ∈ T) :
    Replaces T a [written { lhs := sym t, rhs := a.compact.addition },
      written { lhs := a.lhs, rhs := sym t, increment := true }] := by
  intro pos sc sc' gr hagree
  have hl' : a.lhs.isInput = true := by rw [hl]; rfl
  have haddition : (written { lhs := (sym t : Expr α), rhs := a.compact.addition }).rhs.eval
      (env gr pos sc') = a.addition.eval (env gr pos sc) := by
    show a.compact.addition.expandPowers.eval _ = _
    rw [eval_expandPowers, Assignment.addition_compact hc (by rw [hl]; rfl) hinc,
      hagree.eval h.addition]
  simp only [List.foldlM_cons, List.foldlM_nil, bind_pure]
  cases hw : a.addition.eval (env gr pos sc) with
  | ok w =>
    have hfirst : (assign pos sc' (written { lhs := (sym t : Expr α), rhs := a.compact.addition })).run
        gr = .ok (sc'.insert t w) gr :=
      (assign_scalar rfl rfl (haddition.trans hw)).2 ⟨rfl, rfl⟩
    rw [run_bind_of_ok hfirst]
    have hagree' := hagree.insert_right ht w
    have hlhs : (written { lhs := a.lhs, rhs := sym t, increment := true }).lhs = a.lhs := rfl
    apply alike_assign hagree' hlhs
    intro _ v
    have hread : (sym t : Expr α).eval (env gr pos (sc'.insert t w)) = .ok w := by
      rw [eval_sym_eq_ok, symbol_insert, if_pos rfl]
    have hsecond : (written { lhs := a.lhs, rhs := sym t, increment := true }).addition.eval
        (env gr pos (sc'.insert t w)) = .ok w := hread
    have hold : (written { lhs := a.lhs, rhs := sym t, increment := true }).lhs.eval
        (env gr pos (sc'.insert t w)) = a.lhs.eval (env gr pos sc) := hagree'.eval (h.lhs hl')
    rw [value_increment hinc, value_increment rfl, hold, hsecond, hw]
  | error e =>
    -- Neither comes to write: the increment needs the addition, and the temporary is it.
    obtain ⟨e₁, he₁⟩ : ∃ e', (assign pos sc a).run gr = .error e' gr := by
      apply exists_assign_error
      intro v hv
      obtain ⟨old, w, -, hw', -⟩ := (value_increment hinc).1 hv
      rw [hw] at hw'
      cases hw'
    obtain ⟨e₂, he₂⟩ : ∃ e', (assign pos sc'
        (written { lhs := (sym t : Expr α), rhs := a.compact.addition })).run gr = .error e' gr := by
      apply exists_assign_error
      intro v hv
      rw [value_plain rfl, haddition, hw] at hv
      cases hv
    rw [he₁, run_bind_of_error he₂]
    exact .error e₁ e₂ gr

theorem exists_pieces (g : Names) (hc : ∀ a ∈ as, Canonical a.rhs)
    (hT : g.first (splitCount (as.map Assignment.compact)) ⊆ T) (h : ∀ a ∈ as, Clear T a) :
    ∃ bss, ((splitIncrements g (as.map Assignment.compact)).1.map written) = bss.flatten ∧
      List.Forall₂ (Replaces T) as bss := by
  induction as generalizing g with
  | nil => exact ⟨[], rfl, .nil⟩
  | cons a as ih =>
    obtain ⟨hca, hc⟩ := List.forall_mem_cons.1 hc
    obtain ⟨ha, h⟩ := List.forall_mem_cons.1 h
    rw [List.map_cons] at hT ⊢
    rw [splitIncrements]
    split
    · rename_i hif
      rw [splitCount_split hif] at hT
      have hrest := (g.first_skip 1 (splitCount (as.map Assignment.compact))).trans hT
      obtain ⟨bss, hbss, hreplaces⟩ := ih (g.skip 1) hc hrest h
      obtain ⟨hinc, x, hl⟩ := exists_access_of_split hif
      rw [a.increment_compact] at hinc
      rw [a.lhs_compact] at hl
      have ht : g.name 0 ∈ T := hT ⟨0, by omega, rfl⟩
      refine ⟨_ :: bss, ?_, .cons (replaces_split hca ha hinc hl ht) hreplaces⟩
      rw [List.map_cons, List.map_cons, hbss, a.lhs_compact]
      rfl
    · rename_i hif
      rw [splitCount_other hif] at hT
      obtain ⟨bss, hbss, hreplaces⟩ := ih g hc hT h
      refine ⟨_ :: bss, ?_, .cons (replaces_written hca ha) hreplaces⟩
      rw [List.map_cons, hbss]
      rfl

end ScalarPass

namespace Pipeline

open ScalarPass

theorem outcome_noop (config : Config) {c : Cluster α}
    (hc : ∀ a ∈ c.assignments, Canonical a.rhs) (gr : Grid α) :
    outcome (execute (run config .noop c).clusters) gr = outcome (execute [c]) gr := by
  let compact := c.withAssignments (c.assignments.map Assignment.compact)
  obtain ⟨hfinal, -⟩ := apply_one config "finalize"
    (fun c => return [ScalarPass.finalize c]) (s := start config compact) rfl rfl
  have hpieces : List.Forall₂ (Replaces ∅) c.assignments
      (c.assignments.map fun a => [written a.compact]) := by
    rw [List.forall₂_map_right_iff, List.forall₂_same]
    exact fun a ha => replaces_written (hc a ha) ⟨fun s hs => hs.elim, fun s hs => hs.elim⟩
  have hflat : (c.assignments.map fun a => [written a.compact]).flatten =
      (c.assignments.map Assignment.compact).map written := by
    rw [List.map_map, ← List.flatMap_def, List.map_eq_flatMap]
    rfl
  have hkeeps := outcome_of_replaces hpieces gr
  rw [hflat] at hkeeps
  rw [show (run config .noop c).clusters = [ScalarPass.finalize compact] from hfinal]
  exact hkeeps

theorem outcome_basic (config : Config) {c : Cluster α}
    (hc : ∀ a ∈ c.assignments, Canonical a.rhs)
    (hfresh : FreshFor ⟨config.stem, 0⟩ (run config .basic c).names.next c.assignments)
    (gr : Grid α) :
    outcome (execute (run config .basic c).clusters) gr = outcome (execute [c]) gr := by
  let compact := c.withAssignments (c.assignments.map Assignment.compact)
  let names : Names := ⟨config.stem, 0⟩
  let k := splitCount compact.assignments
  have hpass : (Pass.increments.run config compact).run names =
      ([compact.withAssignments (splitIncrements names compact.assignments).1], names.skip k) := by
    have hrun := extractIncrements_run compact names
    rw [splitIncrements_names] at hrun
    exact congrArg (fun r : Cluster α × Names => ([r.1], r.2)) hrun
  obtain ⟨hsplit, htaken⟩ := apply_one config Pass.increments.name
    (fun c => Pass.increments.run config c) (s := start config compact) rfl hpass
  obtain ⟨hfinal, hnames⟩ := apply_one config "finalize"
    (fun c => return [ScalarPass.finalize c]) hsplit rfl
  have hnext : (run config .basic c).names.next = k :=
    (congrArg Names.next (hnames.trans htaken)).trans (Nat.zero_add k)
  have hclear : ∀ a ∈ c.assignments, Clear (names.first k) a := by
    intro a ha
    constructor
    · rintro s ⟨m, hm, rfl⟩
      exact (hfresh m (hnext ▸ hm) a ha).1
    · rintro s ⟨m, hm, rfl⟩
      exact (hfresh m (hnext ▸ hm) a ha).2
  obtain ⟨bss, hbss, hpieces⟩ := exists_pieces names hc subset_rfl hclear
  have hkeeps := outcome_of_replaces hpieces gr
  rw [← hbss] at hkeeps
  rw [show (run config .basic c).clusters = [ScalarPass.finalize _] from hfinal]
  exact hkeeps

/-- What `noop` and `basic` leave behind is executed with the outcome of the cluster, whatever its
assignments read and write, also where that is an error. -/
theorem run_keeps_outcome (config : Config) {c : Cluster α}
    (hc : ∀ a ∈ c.assignments, Canonical a.rhs)
    (hfresh : FreshFor ⟨config.stem, 0⟩ (run config .basic c).names.next c.assignments)
    (gr : Grid α) :
    outcome (execute (run config .noop c).clusters) gr = outcome (execute [c]) gr ∧
      outcome (execute (run config .basic c).clusters) gr = outcome (execute [c]) gr := by
  constructor
  · exact outcome_noop config hc gr
  · exact outcome_basic config hc hfresh gr

/-- `u[x] += u[x] + s^2`. -/
def restated : Cluster ℚ :=
  let x : Dimension := .space "x"
  let u : Expr ℚ := .access ⟨.input "u", [.affine x 0]⟩
  .ofAssignments [{ lhs := u, rhs := sum [u, power (sym "s") (num 2)], increment := true }] [x]

def shortGrid : Grid ℚ :=
  let x : Dimension := .space "x"
  let g := (({} : Grid ℚ).withParam "s" 3).withBounds x 0 0
  (g.fill "u" [x] 0 fun _ => 10).withBounds x 0 1

theorem run_restated_fails :
    (outcome (execute (run {} .noop restated).clusters) shortGrid).1 = false ∧
      (outcome (execute (run {} .noop restated).clusters) shortGrid).2.get? "u" [0] = some 19 ∧
      (outcome (execute (run {} .basic restated).clusters) shortGrid).1 = false ∧
      (outcome (execute (run {} .basic restated).clusters) shortGrid).2.get? "u" [0] = some 19 := by
  have hcanonical : ∀ a ∈ restated.assignments, Canonical a.rhs := by
    refine List.forall_mem_singleton.2 (canonical_sum ?_)
    refine List.forall_mem_cons.2 ⟨canonical_of_isLeaf rfl, List.forall_mem_singleton.2 ?_⟩
    exact canonical_power (canonical_of_isLeaf rfl) (canonical_of_isLeaf rfl)
  have hfresh : FreshFor ⟨"r", 0⟩ (run {} .basic restated).names.next restated.assignments := by
    have hname : ∀ m, (⟨"r", 0⟩ : Names).name m ≠ "s" := by
      intro m hm
      have hhead := congrArg (fun s => s.toList.head?) hm
      simp [Names.name] at hhead
    have hinputs : (sum [.access ⟨.input "u", [.affine (.space "x") 0]⟩, power (sym "s") (num 2)] :
        Expr ℚ).inputs = [.access ⟨.input "u", [.affine (.space "x") 0]⟩, sym "s"] := by cbv
    intro m _
    simp [restated, Cluster.ofAssignments, hinputs, hname m]
  have hfails : (outcome (execute [restated]) shortGrid).1 = false := by cbv
  have hleft : (outcome (execute [restated]) shortGrid).2.get? "u" [0] = some 19 := by cbv
  obtain ⟨hnoop, hbasic⟩ := run_keeps_outcome {} hcanonical hfresh shortGrid
  rw [hnoop, hbasic]
  exact ⟨hfails, hleft, hfails, hleft⟩

end Pipeline

end Stencil
