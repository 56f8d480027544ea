import Stencil.Proofs.Assignment.Naming
import Stencil.Proofs.Pass.Run

/-!
Elimination of common subexpressions at one point. The temporaries and the scalars that are reused
stand for values of an earlier time, so that every scalar and every element ends as before only if
what they were computed from has not changed since.
-/

namespace Stencil

open Stencil.Expr Stencil.Flow Schedule Exec Pipeline

variable {α : Type} [AlgebraicField α] [Arithmetic α] [Exact α] {as : List (Assignment α)}

omit [AlgebraicField α] [Exact α] in
theorem Pipeline.FreshFor.tidy {g : Names} {n : Nat} (h : FreshFor g n as)
    (hcanonical : ∀ a ∈ as, Canonical a.rhs) (hunary : ∀ a ∈ as, Unary a.rhs)
    (hpure : ∀ a ∈ as, PureIncrement a) : ∀ a ∈ as, Tidy ⟨g, g.next + n⟩ a := by
  have hlt : ∀ {m}, Supply.Room ⟨g, g.next + n⟩ (m + 1) → m < n := fun hm => by
    simp only [Supply.Room] at hm
    omega
  intro a ha
  refine ⟨hcanonical a ha, ⟨hunary a ha, fun i hi m hm hname => ?_⟩, fun m hm hname => ?_,
    hpure a ha⟩
  · exact (h m (hlt hm) a ha).2 (hname ▸ hi)
  · exact (h m (hlt hm) a ha).1 hname

namespace Sharing

omit [AlgebraicField α] [Exact α] in
theorem targets_live {g : Supply} {s : State α} {reach : String → Leaves α}
    {weight : String → Nat} (h : Outlined g (reuse as) s.assignments s.defs reach weight)
    {live dead : List (Assignment α)} (hsched : schedule s.defs s.assignments = live ++ dead)
    (hdead : ∀ a ∈ dead, a ∈ s.defs) {a : Assignment α} (ha : a ∈ as) {t : String}
    (hl : a.lhs = sym t) (ht : a.lhs ∈ g.known) :
    (∃ b ∈ live, b.lhs = sym t) ∧ ∀ b ∈ dead, b.lhs ≠ sym t := by
  have hlater : ∀ b ∈ dead, b.lhs ≠ sym t := fun b hb hbt =>
    h.fresh t ⟨b, hdead b hb, hbt⟩ (hl ▸ ht)
  have hlhs : s.assignments.map (·.lhs) = as.map (·.lhs) := by
    have hmap := List.forall₂_map_left_iff.2 (List.forall₂_map_right_iff.2
      (h.assignments.imp fun _ _ ha => ha.1.symm))
    rw [List.forall₂_eq_eq_eq] at hmap
    exact hmap.symm.trans (map_lhs_reuse as)
  obtain ⟨b, hb, hbt⟩ := List.mem_map.1 (hlhs ▸ List.mem_map_of_mem ha : a.lhs ∈ _)
  have hperm := schedule_perm h.acyclic.scalar h.acyclic.nodup s.assignments
  have hmem := hperm.mem_iff.2 (List.mem_append_left _ hb)
  rw [hsched] at hmem
  have hbt : b.lhs = sym t := hbt.trans hl
  exact ⟨⟨b, (List.mem_append.1 hmem).resolve_right fun hb => hlater b hb hbt, hbt⟩, hlater⟩

/-- Where assignments run that read every location with one value only, their elimination does,
and leaves the same elements and the same scalars. -/
theorem runs_eliminate {g : Names} {pos : Position} {sc : Table String α} {G G' : Grid α}
    (hcanonical : ∀ a ∈ as, Canonical a.rhs) (hpure : ∀ a ∈ as, PureIncrement a)
    (hline : StraightLine as) (hhazard : HazardFree pos as)
    (hfresh : FreshFor g (eliminated g.name as).defs.length as)
    (hrun : Runs pos as .empty G sc G') :
    ∃ sc', Runs pos (eliminate g.name as) .empty G sc' G' ∧
      ∀ a ∈ as, ∀ s, a.lhs = sym s → sc'.get? s = sc.get? s := by
  let supply : Supply := ⟨g, g.next + (eliminated g.name as).defs.length⟩
  have hroom : supply.Room (eliminated supply.name as).defs.length := le_rfl
  have ht : ∀ a ∈ as, Tidy supply a := hfresh.tidy hcanonical hline.unary hpure
  obtain ⟨P, ρ, hP, hsees, hready, hsettled, hreplay⟩ := settled_of_runs hline hpure hhazard hrun
  have hvalue : ∀ a ∈ as, ∀ s, a.lhs = sym s → sc.get? s = some (ρ (sym s)) := fun a ha s hl =>
    hrun.get?_target hline.unary hpure hsettled hready hsees (.inr ⟨a, ha, hl⟩)
  have hknown : P ⊆ supply.known := fun i hi => by
    obtain ⟨a, ha, hia⟩ := hP i hi
    exact (ht a ha).within.inputs i hia
  -- Scalars in the place of operations have the same values,
  have hreused : (∀ a ∈ reuse as, Settled ρ a) ∧ effects ρ (reuse as) = effects ρ as := by
    rw [reuse_eq]
    exact reuseFrom_settled (fun k e he => by simp [Table.empty, Table.get?, Table.find?] at he)
      hsettled
  have hready' : Ready (Clash pos) P (reuse as) := by
    rw [reuse_eq]
    exact reuseFrom_ready (.empty P) hline.unary hready
  have htidy := (reuse_refines ht).tidy
  -- and so have the temporaries.
  obtain ⟨T, weight, -, hm, h⟩ := sound_eliminated ht hroom
  obtain ⟨live, dead, hsched, hsplit, hstores, hmem, hdead⟩ :=
    h.split (List.append_nil _).symm ⟨hready', trivial, by simp⟩ hknown
      fun a ha => (htidy a ha).target
  obtain ⟨ρ', hagree, hdefs, hvals⟩ := hm.values hm.plain h.fresh ρ
  have hsees' : Sees ρ' P (env G pos .empty) := fun i hi =>
    ⟨(hsees i hi).1, (hsees i hi).2.trans (congrArg _ (hagree i (hknown hi)).symm)⟩
  have hsettled' : ∀ a ∈ live ++ dead, Settled ρ' a := by
    intro a ha
    rcases hmem a ha with ha | ha
    · exact settled_of_forall₂ h.assignments hvals
        (fun b hb => hagree b.lhs (htidy b hb).target) hreused.1 a ha
    · exact hdefs a ha
  have heffects : effects ρ' (live ++ dead) = effects ρ as := by
    rw [effects_of_stores ρ' hstores, effects_of_forall₂ h.assignments hvals, hreused.2]
  have htidy' : ∀ a ∈ live ++ dead, Tidy (supply.skip (eliminated g.name as).defs.length) a :=
    hsched ▸ (eliminate_refines ht hroom).tidy
  obtain ⟨sc', hruns, hscalars⟩ := runs_of_split (fun a ha => (htidy' a ha).within.unary)
    (fun a ha => (htidy' a ha).pure) hsplit hsettled' hsees' (heffects ▸ hreplay)
  have heliminate : eliminate g.name as = live ++ dead := hsched
  refine ⟨sc', heliminate ▸ hruns, fun a ha s hl => ?_⟩
  obtain ⟨hnow, hlater⟩ := targets_live h hsched
    (fun b hb => (hdead b hb).resolve_left (by simp)) ha hl (ht a ha).target
  rw [hscalars s hnow hlater, hvalue a ha s hl, hagree _ (hl ▸ (ht a ha).target)]

section Examples

def plus : Expr ℚ := sum [sym "a", sym "b"]

def times : Expr ℚ := product [sym "a", sym "b"]

def element (name : String) : Expr ℚ := .access ⟨.input name, [.affine (.space "x") 0]⟩

/-- `s = a + b`, `u[x] = a*b`, `u[x] += a*b` and `v[x] = a + b`. -/
def repeating : List (Assignment ℚ) :=
  [{ lhs := sym "s", rhs := plus }, { lhs := element "u", rhs := times },
    { lhs := element "u", rhs := times, increment := true }, { lhs := element "v", rhs := plus }]

/-- `a = 1`, `s = a*b`, `a = 2` and `u[x] = a*b`. -/
def redefining : Cluster ℚ :=
  .ofAssignments [{ lhs := sym "a", rhs := num 1 }, { lhs := sym "s", rhs := times },
    { lhs := sym "a", rhs := num 2 }, { lhs := element "u", rhs := times }] [.space "x"]

def origin : Grid ℚ := (({} : Grid ℚ).withBounds (.space "x") 0 0).withParam "b" 3

theorem rhs_repeating {P : Expr ℚ → Prop} (hP : Hereditary P)
    (hleaf : ∀ e : Expr ℚ, e.isLeaf = true → P e) : ∀ a ∈ repeating, P a.rhs := by
  have hab : ∀ e ∈ [(sym "a" : Expr ℚ), sym "b"], P e :=
    List.forall_mem_cons.2 ⟨hleaf _ rfl, List.forall_mem_singleton.2 (hleaf _ rfl)⟩
  simp only [repeating, List.forall_mem_cons]
  exact ⟨hP.sum hab, hP.product hab, hP.product hab, hP.sum hab, by simp⟩

theorem inputs_plus : plus.inputs = [sym "a", sym "b"] := by cbv

theorem inputs_times : times.inputs = [sym "a", sym "b"] := by cbv

theorem straightLine_repeating : StraightLine repeating where
  unary a ha := (rhs_repeating (hereditary_within Set.univ)
    (fun _ he => ⟨unary_of_leaf he, fun _ _ => trivial⟩) a ha).unary
  plain := by simp [repeating, isSymbol, element]
  once := by simp [repeating, isSymbol, element]
  own := by simp [repeating, inputs_plus, isSymbol, element]
  later := by simp [repeating, isSymbol, element]

theorem runs_eliminate_repeating :
    ∃ sc G' sc', Runs ⟨[("x", 0)]⟩ repeating .empty (origin.withParam "a" 2) sc G' ∧
      Runs ⟨[("x", 0)]⟩ (eliminate (⟨"r", 0⟩ : Names).name repeating) .empty
        (origin.withParam "a" 2) sc' G' ∧ sc'.get? "s" = some 5 := by
  have hvalue : (match (repeating.foldlM (assign ⟨[("x", 0)]⟩) .empty).run
      (origin.withParam "a" 2) with
    | .ok sc _ => sc.get? "s"
    | .error _ _ => none) = some 5 := by cbv
  split at hvalue
  · rename_i sc G' hrun
    have hdefs : (eliminated (⟨"r", 0⟩ : Names).name repeating).defs.length = 1 := by cbv
    have hname : (⟨"r", 0⟩ : Names).name 0 = "r0" := by decide
    have hpure : ∀ a ∈ repeating, PureIncrement a := by
      simp [repeating, PureIncrement, inputs_times]
    have hhazard : HazardFree ⟨[("x", 0)]⟩ repeating := by
      simp [HazardFree, repeating, inputs_plus, inputs_times]
    have hfresh : FreshFor ⟨"r", 0⟩ (eliminated (⟨"r", 0⟩ : Names).name repeating).defs.length
        repeating := by
      rw [hdefs]
      intro m hm
      obtain rfl : m = 0 := by omega
      simp [hname, repeating, inputs_plus, inputs_times, element]
    obtain ⟨sc', hruns, hscalars⟩ := runs_eliminate
      (rhs_repeating hereditary_canonical fun _ => canonical_of_isLeaf) hpure straightLine_repeating
      hhazard hfresh hrun
    exact ⟨sc, G', sc', hrun, hruns, (hscalars _ List.mem_cons_self "s" rfl).trans hvalue⟩
  · simp at hvalue

/-- Only what was computed before is reused, also if what it was computed from has changed. -/
theorem eliminate_reuses_stale :
    FreshFor ⟨"r", 0⟩ (eliminated (⟨"r", 0⟩ : Names).name redefining.assignments).defs.length
        redefining.assignments ∧
      (final? [redefining] origin).bind (·.get? "u" [0]) = some 6 ∧
      (final? [redefining.withAssignments
        (eliminate (⟨"r", 0⟩ : Names).name redefining.assignments)] origin).bind
          (·.get? "u" [0]) = some 3 := by
  have hdefs : (eliminated (⟨"r", 0⟩ : Names).name redefining.assignments).defs.length = 0 := by
    cbv
  exact ⟨by simp [FreshFor, hdefs], by cbv, by cbv⟩

end Examples

end Sharing

end Stencil
