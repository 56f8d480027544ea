import Stencil.Proofs.Pass.Splicing

namespace Stencil

open Stencil.Expr

variable {α : Type} {T : Set String}

def Reworks (R : Expr α → Expr α → Prop) (a a' : Assignment α) : Prop :=
  a' = a.withRhs a'.rhs ∧ R a.rhs a'.rhs

def Descends (T : Set String) (R : Expr α → Expr α → Prop) (as : List (Assignment α))
    (a' : Assignment α) : Prop :=
  ∃ a ∈ as, a.frozen = true ∧ a'.increment = a.increment ∧ Spliced T a.lhs a'.lhs ∧ R a.rhs a'.rhs

section Descends

variable {R : Expr α → Expr α → Prop} {as as' ds : List (Assignment α)} {a a' : Assignment α}
  {g : Names}

theorem Reworks.descends (h : Reworks R a a') (ha : a ∈ as) (hf : a'.frozen = true) :
    Descends T R as a' := by
  obtain ⟨heq, hrhs⟩ := h
  rw [heq] at hf
  refine ⟨a, ha, hf, ?_, ?_, hrhs⟩
  · rw [heq]
    rfl
  · rw [heq]
    exact .refl a.lhs

theorem descends_schedule {exprs : List (Assignment α)}
    (hnamed : ds.map (·.lhs) = (List.range ds.length).map fun n => sym (g.name n))
    (hthawed : ∀ d ∈ ds, d.frozen = false) (h : List.Forall₂ (Reworks R) as exprs) :
    ∀ a' ∈ Schedule.schedule ds exprs, a'.frozen = true → Descends T R as a' := by
  intro a' ha' hf
  rcases List.mem_append.1 ((schedule_perm_of_named exprs hnamed).subset ha') with ha' | ha'
  · obtain ⟨a, ha, hreworks⟩ := forall₂_mem_right h a' ha'
    exact hreworks.descends ha hf
  · exact absurd hf (by simp [hthawed a' ha'])

end Descends

variable [Arithmetic α] {g : Names} {as : List (Assignment α)}

namespace Extraction

theorem extractAll_rebuilt (p : Policy α) (as : List (Assignment α)) (F : Found α) :
    Yields (Numbered g.name) F (extractAll p g.name as) fun F' as' =>
      List.Forall₂ (Reworks (Rebuilt (taken g F'))) as as' := by
  have has : List.Forall₂ Eq as as := List.forall₂_same.2 fun a _ => rfl
  apply Yields.mapM (P := fun a F' a' => Reworks (Rebuilt (taken g F')) a a') _ has
  · rintro a _ rfl F' -
    exact (runRoot_rebuilt a.rhs F').bind fun F₁ e _ he => .pure ⟨rfl, he⟩
  · exact fun a F F' a' hF ha => ⟨ha.1, Rebuilt.mono ha.2 (taken_mono hF)⟩

theorem exists_apply (p : Policy α) (g : Names) (as : List (Assignment α)) :
    ∃ exprs, (apply p g.name as).assignments = Schedule.schedule (apply p g.name as).found exprs ∧
      (apply p g.name as).found.map (·.lhs) =
        (List.range (apply p g.name as).found.length).map (fun n => sym (g.name n)) ∧
      (∀ d ∈ (apply p g.name as).found, d.frozen = false) ∧
      List.Forall₂ (Reworks (Rebuilt (g.first (apply p g.name as).found.length))) as exprs := by
  rw [apply_eq]
  obtain ⟨hF, -, hreworks⟩ := extractAll_rebuilt p as (.empty : Found α) rfl
  generalize (extractAll p g.name as).run .empty = r at hF hreworks
  have hlen : (Found.defs r.2).length = r.2.size := List.length_map _
  refine ⟨r.1, rfl, ?_, List.forall_mem_map.2 fun x _ => rfl, ?_⟩
  · rw [hlen, Found.defs, List.map_map]
    exact hF
  · rwa [hlen]

theorem descends_apply (p : Policy α) :
    ∀ a' ∈ (apply p g.name as).assignments, a'.frozen = true →
      Descends T (Rebuilt (g.first (apply p g.name as).found.length)) as a' := by
  obtain ⟨exprs, happly, hnamed, hthawed, hreworks⟩ := exists_apply p g as
  rw [happly]
  exact descends_schedule hnamed hthawed hreworks

theorem apply_perm_of_canonical [AlgebraicField α] [Exact α] {p : Policy α}
    (hfound : (apply p g.name as).found = []) (hc : ∀ a ∈ as, Canonical a.rhs) :
    (apply p g.name as).assignments.Perm as := by
  obtain ⟨exprs, happly, hnamed, -, hreworks⟩ := exists_apply p g as
  have hnone : g.first (apply p g.name as).found.length = ∅ := by
    rw [hfound, Set.eq_empty_iff_forall_notMem]
    rintro s ⟨m, hm, -⟩
    exact m.not_lt_zero hm
  have hsame : exprs = as := by
    have hall : List.Forall₂ Eq as exprs := by
      refine ((List.forall₂_and_left _ _).2 ⟨hc, hreworks⟩).imp fun a a' ha => ?_
      obtain ⟨hca, heq, hrebuilt⟩ := ha
      rw [hnone] at hrebuilt
      rw [heq, hrebuilt.eq hca]
      rfl
    rw [List.forall₂_eq_eq_eq] at hall
    exact hall.symm
  have hperm := schedule_perm_of_named exprs hnamed
  rwa [← happly, hfound, List.append_nil, hsame] at hperm

end Extraction

namespace Sharing

open Relation

def targets (as : List (Assignment α)) : Set String := {s | ∃ a ∈ as, a.lhs = sym s}

theorem reuseFrom_reworks {S : Set String} (hS : targets as ⊆ S) {known : Substitution α}
    (hknown : ∀ t ∈ known.values, Named S t) :
    List.Forall₂ (Reworks (ReflTransGen (Rebuilt S))) as (reuseFrom known as) := by
  induction as generalizing known with
  | nil => exact .nil
  | cons a as ih =>
    refine .cons ?_ (ih ?_ ?_)
    · unfold reused
      split
      · exact ⟨rfl, .refl⟩
      · exact ⟨rfl, .single (rebuilt_replace hknown a.rhs)⟩
    · rintro s ⟨b, hb, hs⟩
      exact hS ⟨b, List.mem_cons_of_mem a hb, hs⟩
    · refine forall_values_learn hknown fun hsymbol => ?_
      rw [reused_lhs] at hsymbol ⊢
      cases hl : a.lhs with
      | sym s => exact ⟨s, hS ⟨a, List.mem_cons_self, hl⟩, rfl⟩
      | _ => simp [hl, isSymbol] at hsymbol

structure Shortened (g : Names) (as : List (Assignment α)) (s : State α) : Prop where
  thawed : ∀ d ∈ s.defs, d.frozen = false
  reworks : List.Forall₂
    (Reworks (ReflTransGen (Rebuilt (g.first s.defs.length ∪ targets as)))) as s.assignments

theorem shortened_start : Shortened g as ⟨[], reuse as⟩ where
  thawed d hd := absurd hd List.not_mem_nil
  reworks := by
    rw [reuse_eq]
    exact reuseFrom_reworks Set.subset_union_right fun t ht => absurd ht List.not_mem_nil

theorem named_table {s : State α} {keys : List (Expr α)} :
    ∀ t ∈ (s.table g.name keys).values, Named (g.first (s.defs.length + keys.length)) t := by
  intro t ht
  obtain ⟨n, hn, rfl⟩ := State.values_table ht
  exact ⟨_, ⟨s.defs.length + n, by omega, rfl⟩, rfl⟩

theorem Shortened.round {s s' : State α} (h : Shortened g as s) (hr : s.round? g.name = some s') :
    Shortened g as s' := by
  obtain ⟨-, rfl⟩ := State.round?_eq_some.1 hr
  constructor
  · intro d hd
    rcases State.mem_defs_advance.1 hd with ⟨b, hb, rfl⟩ | ⟨n, k, -, rfl⟩
    · exact h.thawed b hb
    · rfl
  · rw [State.length_defs_advance, State.advance, List.forall₂_map_right_iff]
    -- The round builds anew what earlier rounds have built, with more names taken.
    refine h.reworks.imp fun a a' ha => ⟨?_, ?_⟩
    · have hshorten := congrArg (shorten (s.table g.name s.chosen)) ha.1
      exact hshorten
    · have hmono : g.first s.defs.length ∪ targets as ⊆
          g.first (s.defs.length + s.chosen.length) ∪ targets as :=
        Set.union_subset_union_left _ (g.first_mono (Nat.le_add_right _ _))
      have hbefore := ReflTransGen.mono (fun _ _ h => Rebuilt.mono h hmono) _ _ ha.2
      have hnamed : ∀ t ∈ (s.table g.name s.chosen).values,
          Named (g.first (s.defs.length + s.chosen.length) ∪ targets as) t :=
        fun t ht => (named_table t ht).mono Set.subset_union_left
      exact hbefore.tail (rebuilt_replace hnamed a'.rhs)

theorem descends_eliminate :
    ∀ a' ∈ eliminate g.name as, a'.frozen = true →
      Descends T (ReflTransGen (Rebuilt
        (g.first (eliminated g.name as).defs.length ∪ targets as))) as a' := by
  have h : Shortened g as (eliminated g.name as) := by
    obtain ⟨n, hn⟩ := exists_rounds g.name as
    rw [hn]
    exact State.rounds_induct (fun _ _ h => h.round) shortened_start n
  exact descends_schedule (numbered_eliminated g as).named h.thawed h.reworks

end Sharing

namespace ScalarPass

theorem mem_of_frozen_splitIncrements {a' : Assignment α} (hf : a'.frozen = true)
    (h : a' ∈ (splitIncrements g as).1) : a' ∈ as := by
  induction as generalizing g with
  | nil => exact h
  | cons a as ih =>
    rw [splitIncrements] at h
    split at h
    · rcases List.mem_cons.1 h with rfl | h
      · exact absurd hf Bool.false_ne_true
      · rcases List.mem_cons.1 h with rfl | h
        · exact absurd hf Bool.false_ne_true
        · exact List.mem_cons_of_mem a (ih h)
    · rcases List.mem_cons.1 h with rfl | h
      · exact List.mem_cons_self
      · exact List.mem_cons_of_mem a (ih h)

end ScalarPass

namespace Lifting

theorem descends_replace {as : List (Assignment α)} {a : Assignment α} {t : Substitution α}
    (ht : ∀ e ∈ t.values, Named T e) (ha : a ∈ as) (hf : (a.replace t).frozen = true) :
    Descends T (fun e e' => Spliced T e e' ∧ ((∀ i ∈ e'.subterms, ¬ Named T i) → e' = e)) as
      (a.replace t) := by
  have hspliced : ∀ {e e' : Expr α}, Spliced T e e' →
      Spliced T e e' ∧ ((∀ i ∈ e'.subterms, ¬ Named T i) → e' = e) := fun h => ⟨h, h.eq⟩
  unfold Assignment.replace at hf ⊢
  split
  · rename_i hempty
    rw [if_pos hempty] at hf
    exact ⟨a, ha, hf, rfl, .refl _, hspliced (.refl _)⟩
  · rename_i hempty
    rw [if_neg hempty] at hf
    split
    · rename_i hfrozen
      exact ⟨a, ha, hfrozen, rfl, spliced_replaceRaw ht _, hspliced (spliced_replaceRaw ht _)⟩
    · rename_i hthawed
      rw [if_neg hthawed] at hf
      exact absurd hf hthawed

end Lifting

namespace Pass

/-- What a pass may make of a frozen right-hand side in a cluster, where `T` are the names that it
takes. -/
def Treats (config : Config) (c : Cluster α) (T : Set String) (e e' : Expr α) : Pass → Prop
  | increments => e' = e
  | aliases => Spliced T e e' ∧ ((∀ i ∈ e'.subterms, ¬ Named T i) → e' = e)
  | sumsOfProducts | invariants => Rebuilt T e e'
  | subexpressions => Relation.ReflTransGen (Rebuilt (T ∪ Sharing.targets c.assignments)) e e'
  | factorize => e' = e ∨ e' = ScalarPass.collected config e ∧ e'.cost false < e.cost false
  | trigonometry => e' = e.approximateTrigonometry

/-- Every frozen assignment after a pass comes from one before it. Only `gcse` and
`extract_increments` look at whether it is frozen: they keep its tree but for temporaries in the
place of subtrees, while other passes treat it as they treat all assignments. -/
theorem run_frozen (p : Pass) (config : Config) (c : Cluster α) (g : Names) :
    ∃ n, ((p.run config c).run g).2 = g.skip n ∧
      ∀ c' ∈ ((p.run config c).run g).1, ∀ a' ∈ c'.assignments, a'.frozen = true →
        Descends (g.first n) (fun e e' => p.Treats config c (g.first n) e e') c.assignments a' := by
  cases p with
  | sumsOfProducts =>
    exact ⟨_, rfl, List.forall_mem_singleton.2 (Extraction.descends_apply _)⟩
  | invariants =>
    exact ⟨_, rfl, List.forall_mem_singleton.2 (Extraction.descends_apply _)⟩
  | subexpressions =>
    exact ⟨_, rfl, List.forall_mem_singleton.2 Sharing.descends_eliminate⟩
  | trigonometry =>
    refine ⟨0, rfl, List.forall_mem_singleton.2 (List.forall_mem_map.2 fun a ha hf => ?_)⟩
    exact ⟨a, ha, hf, rfl, .refl _, rfl⟩
  | factorize =>
    refine ⟨0, rfl, List.forall_mem_singleton.2 (List.forall_mem_map.2 fun a ha hf => ?_)⟩
    dsimp only at hf ⊢
    split at hf
    · rename_i hcost
      rw [if_pos hcost]
      exact ⟨a, ha, hf, rfl, .refl _, .inr ⟨rfl, hcost⟩⟩
    · rename_i hcost
      rw [if_neg hcost]
      exact ⟨a, ha, hf, rfl, .refl _, .inl rfl⟩
  | aliases =>
    obtain ⟨k, l, hnumbered, hrun⟩ := Lifting.run_lift_numbered config c g
    have hrun' : (Pass.aliases.run config c).run g = _ := hrun
    rw [hrun']
    refine ⟨k, rfl, fun c' hc' a' ha' hf => ?_⟩
    -- What fills an array is new and not frozen, so that it is the reader that `a'` is in.
    rcases List.mem_append.1 hc' with hc' | hc'
    · exact absurd hf (by simp [hnumbered.thawed c' hc' a' ha'])
    · obtain rfl := List.mem_singleton.1 hc'
      obtain ⟨a, ha, rfl⟩ := List.mem_map.1 ha'
      exact Lifting.descends_replace hnumbered.table (List.mem_of_mem_filter ha) hf
  | increments =>
    have hrun := ScalarPass.extractIncrements_run c g
    rw [ScalarPass.splitIncrements_names] at hrun
    have hrun' : (Pass.increments.run config c).run g =
        ([c.withAssignments (ScalarPass.splitIncrements g c.assignments).1],
          g.skip (ScalarPass.splitCount c.assignments)) :=
      congrArg (fun r : Cluster α × Names => ([r.1], r.2)) hrun
    rw [hrun']
    refine ⟨_, rfl, List.forall_mem_singleton.2 fun a' ha' hf => ?_⟩
    exact ⟨a', ScalarPass.mem_of_frozen_splitIncrements hf ha', hf, rfl, .refl _, rfl⟩

/-- `u[x] = b*c + a^2`, which becomes `b*c + a*a` at the end of a run and is frozen then. -/
def powered : Cluster ℚ :=
  let x : Dimension := .space "x"
  .ofAssignments [
    { lhs := .access ⟨.input "u", [.affine x 0]⟩
      rhs := sum [product [sym "b", sym "c"], power (sym "a") (num 2)] }] [x]

/-- Nothing is extracted from the frozen sum, and its terms change places all the same. -/
theorem sumsOfProducts_reorders_frozen :
    let c := ScalarPass.finalize powered
    let r := (Pass.sumsOfProducts.run {} c).run ⟨"r", 0⟩
    let e : Expr ℚ := add [mul [sym "b", sym "c"], mul [sym "a", sym "a"]]
    let e' : Expr ℚ := add [mul [sym "a", sym "a"], mul [sym "b", sym "c"]]
    c.assignments.map (fun a => (a.frozen, a.rhs)) = [(true, e)] ∧ r.2.next = 0 ∧
      r.1.flatMap (fun c => c.assignments.map fun a => (a.frozen, a.rhs)) = [(true, e')] ∧
      ¬ Spliced ∅ e e' := by
  intro c r e e'
  refine ⟨by cbv, by cbv, by cbv, fun h => ?_⟩
  have heq : e' = e := by
    apply h.eq
    rintro t - ⟨s, hs, -⟩
    exact hs
  simp [e, e'] at heq

end Pass

end Stencil
