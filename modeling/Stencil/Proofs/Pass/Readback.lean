import Mathlib.Data.List.Pairwise
import Stencil.Proofs.Execution.Agreement
import Stencil.Proofs.Expr.Insertion
import Stencil.Proofs.Pass.Lifted

namespace Stencil

open Stencil.Expr Stencil.Flow Exec

section Replace

variable {α : Type} [Arithmetic α] [AlgebraicField α] [Exact α]

theorem Assignment.exists_replace (s : Substitution α) (a : Assignment α) :
    ∃ build, Faithful build ∧ a.replace s =
      { a with lhs := a.lhs.replaceBy build s, rhs := a.rhs.replaceBy build s } := by
  obtain ⟨build, rfl | rfl, heq⟩ := a.exists_build s
  · exact ⟨rebuild, faithful_rebuild, heq⟩
  · exact ⟨rebuildRaw, faithful_rebuildRaw, heq⟩

omit [AlgebraicField α] [Exact α] in
theorem Expr.replaceBy_of_isInput {build : Expr α → List (Expr α) → Expr α} {s : Substitution α}
    {e : Expr α} (hin : e.isInput = true) (hs : s.get? e = none) : e.replaceBy build s = e := by
  rw [replaceBy_eq, hs]
  have hargs : e.args.isEmpty = true := by
    cases e <;> simp_all [isInput, isSymbol, isAccess, args]
  simp [hargs]

theorem Assignment.replace_spec {s : Substitution α} {a : Assignment α} {ρ ρ' : Expr α → α}
    (hin : a.lhs.isInput = true) (hlhs : s.get? a.lhs = none) (hu : Unary a.rhs)
    (hs : ∀ k e, s.get? k = some e → e.isInput = true ∧ denote ρ' e = denote ρ k)
    (hold : ∀ i ∈ a.rhs.inputs, ρ' i = ρ i) :
    (a.replace s).lhs = a.lhs ∧ (a.replace s).increment = a.increment ∧
      denote ρ' (a.replace s).rhs = denote ρ a.rhs ∧
      Within {i | (∃ k, s.get? k = some i) ∨ i ∈ a.rhs.inputs ∧ s.get? i = none}
        (a.replace s).rhs := by
  obtain ⟨build, hbuild, heq⟩ := a.exists_replace s
  rw [heq]
  refine ⟨?_, rfl, ?_, ?_⟩
  · exact replaceBy_of_isInput hin hlhs
  · exact denote_replaceBy hbuild (fun k _ e hk => (hs k e hk).2) fun i hi _ => hold i hi
  · exact within_replaceBy hbuild hu
      (fun k _ e hk => within_of_isInput (hs k e hk).1 (.inl ⟨k, hk⟩)) fun i hi hnone =>
        .inr ⟨hi, hnone⟩

end Replace

namespace Lifting

variable {α : Type} [Arithmetic α] [AlgebraicField α] [Exact α] {config : Config} {c : Cluster α}
  {names : Names}

def temporaries (config : Config) (c : Cluster α) (names : Names) : Set String :=
  {n | ∃ m < (lifted config c).length, n = names.name m}

omit [AlgebraicField α] [Exact α] in
theorem name_mem_temporaries {x : AliasGroup α × Field}
    (hx : x ∈ arrays c.space names (lifted config c)) : x.2.name ∈ temporaries config c names :=
  name_mem_first hx

section Reader

variable (hc : Liftable names (lifted config c).length c)

include hc

omit [AlgebraicField α] [Exact α] in
theorem Liftable.not_temporary {a : Assignment α} (ha : a ∈ c.assignments) {x : Access}
    (hx : a.lhs = access x ∨ access x ∈ a.rhs.inputs) : x.field.name ∉ temporaries config c names := by
  rintro ⟨m, hm, heq⟩
  exact hc.arrays m hm a ha x hx heq

omit [AlgebraicField α] [Exact α] in
theorem Liftable.pureIncrement [AlgebraicField α] {a : Assignment α} (ha : a ∈ c.assignments) :
    PureIncrement a :=
  fun x hl _ hmem => hc.readOnly a ha a ha x x hl hmem rfl

omit [AlgebraicField α] [Exact α] in
theorem Liftable.hazardFree (pos : Position) : HazardFree pos c.assignments :=
  List.pairwise_of_forall_mem_list fun a ha b hb x y hl hy hclash =>
    hc.readOnly a ha b hb x y hl hy hclash.1

theorem get?_readings_lhs {a : Assignment α} (ha : a ∈ c.assignments)
    (hkeep : candidate config c a = false) (hin : a.lhs.isInput = true) :
    (readings config c names).get? a.lhs = none := by
  by_contra hne
  obtain ⟨e, he⟩ := Option.ne_none_iff_exists'.1 hne
  obtain ⟨x, hx, m, hm, -, heq | ⟨k, hmem, heq⟩⟩ := exists_stands he
  · have hg := isGroup_of_mem_lifted hc.canonical (fst_mem_of_mem_arrays hx)
    cases hl : a.lhs with
    | sym n => exact hg.ne_sym hm n ((beq_iff_eq.1 heq).trans hl)
    | access y =>
      obtain ⟨b, hb, hrhs⟩ := hg.exists_rhs hm
      refine hc.readOnly a ha b hb y y hl ?_ rfl
      rw [hrhs, beq_iff_eq.1 heq, hl, inputs_of_isInput rfl]
      exact List.mem_singleton_self _
    | _ => simp [hl, isInput, isSymbol, isAccess] at hin
  · obtain ⟨b, hb, hcand, -, rfl⟩ := mem_handles.1 hmem
    have hlhs := beq_iff_eq.1 heq
    have hne : a ≠ b := fun hab => by simp [hab, hcand] at hkeep
    obtain ⟨n, hl⟩ := exists_lhs_of_candidate hcand
    have hsymm : Std.Symm fun a b : Assignment α => a.lhs.isSymbol = true → a.lhs ≠ b.lhs :=
      ⟨fun a b h hs hab => h (hab ▸ hs) hab.symm⟩
    exact hc.line.once.forall ha hb hne (by rw [← hlhs, hl]; rfl) hlhs.symm

def Filled (config : Config) (c : Cluster α) (names : Names) (pos : Position) (g h : Grid α) :
    Prop :=
  ∀ x ∈ arrays c.space names (lifted config c), ∀ m ∈ x.1.members, ∀ v,
    m.1.eval (env g pos .empty) = .ok v →
      (element x.2 (storage c.space x.1) m.2.shift).eval (env h pos .empty) = .ok v

variable {pos : Position} {g g' h : Grid α} {sc : Table String α}

theorem eval_readings {P : Leaves α} {ρ : Expr α → α} (hsees : Sees ρ P (env g pos .empty))
    {clash : Access → Access → Prop} (hready : Ready clash P c.assignments)
    (hsettled : ∀ a ∈ c.assignments, Settled ρ a) (hfilled : Filled config c names pos g h)
    {k e : Expr α} (hk : (readings config c names).get? k = some e) :
    ∃ y, e = access y ∧ y.field.name ∈ temporaries config c names ∧
      e.eval (env h pos .empty) = .ok (denote ρ k) := by
  obtain ⟨x, hx, m, hm, rfl, hkm⟩ := exists_stands hk
  have hg := isGroup_of_mem_lifted hc.canonical (fst_mem_of_mem_arrays hx)
  obtain ⟨b, hb, hrhs⟩ := hg.exists_rhs hm
  have hinputs : ∀ i ∈ m.1.inputs, i ∈ P := by
    intro i hi
    refine (hready.mem_or_target hb (hrhs ▸ hi)).resolve_right ?_
    rintro ⟨a, ha, rfl, hsym⟩
    cases hl : a.lhs with
    | sym n => exact hg.sym_not_mem hm (hl ▸ hi) a ha hl
    | _ => simp [hl, isSymbol] at hsym
  have hvalue := hsees.eval (hrhs ▸ hc.line.unary b hb) hinputs
  have hdenote : denote ρ k = denote ρ m.1 := by
    rcases hkm with heq | ⟨k', hmem, heq⟩
    · rw [beq_iff_eq.1 heq]
    · obtain ⟨a, ha, hcand, harhs, rfl⟩ := mem_handles.1 hmem
      obtain ⟨n, hl⟩ := exists_lhs_of_candidate hcand
      rw [← beq_iff_eq.1 heq, ← beq_iff_eq.1 harhs, hl, denote_sym, ((hsettled a ha).scalar n hl).2]
  exact ⟨_, rfl, name_mem_temporaries hx, hdenote ▸ hfilled x hx m hm _ hvalue⟩

structure Recalling (config : Config) (c : Cluster α) (names : Names) (pos : Position) (h : Grid α)
    (ρ ρ' : Expr α → α) : Prop where
  known : ∀ a ∈ c.assignments, ∀ i ∈ a.rhs.inputs, ρ' i = ρ i
  scalar : ∀ s, ρ' (sym s) = ρ (sym s)
  read : ∀ k e, (readings config c names).get? k = some e → ∃ y, e = access y ∧
    y.field.name ∈ temporaries config c names ∧ denote ρ' e = denote ρ k ∧
      e.eval (env h pos .empty) = .ok (denote ρ k)

theorem exists_recalling {P : Leaves α} {ρ : Expr α → α} (hsees : Sees ρ P (env g pos .empty))
    {clash : Access → Access → Prop} (hready : Ready clash P c.assignments)
    (hsettled : ∀ a ∈ c.assignments, Settled ρ a) (hfilled : Filled config c names pos g h) :
    ∃ ρ', Recalling config c names pos h ρ ρ' := by
  classical
  refine ⟨fun i => if ∃ y, i = access y ∧ y.field.name ∈ temporaries config c names then
    (i.eval (env h pos .empty)).toOption.getD 0 else ρ i, fun a ha i hi => if_neg ?_,
      fun s => if_neg (by simp), fun k e hk => ?_⟩
  · rintro ⟨y, rfl, hy⟩
    exact hc.not_temporary ha (.inr hi) hy
  · obtain ⟨y, rfl, hy, hval⟩ := eval_readings hc hsees hready hsettled hfilled hk
    refine ⟨y, rfl, hy, ?_, hval⟩
    rw [denote_access, if_pos ⟨y, rfl, hy⟩, hval]
    rfl

def available (P : Leaves α) (t : Substitution α) : Leaves α :=
  {i | i ∈ P ∧ t.get? i = none ∨ ∃ k, t.get? k = some i}

section Recalling

variable {P : Leaves α} {ρ ρ' : Expr α → α} (hρ : Recalling config c names pos h ρ ρ')

include hρ

theorem Recalling.replace_spec (hsettled : ∀ a ∈ c.assignments, Settled ρ a) {a : Assignment α}
    (ha : a ∈ c.assignments) (hkeep : (!candidate config c a) = true) :
    (a.replace (readings config c names)).lhs = a.lhs ∧
      (a.replace (readings config c names)).increment = a.increment ∧
      denote ρ' (a.replace (readings config c names)).rhs = denote ρ a.rhs ∧
      Within {i | (∃ k, (readings config c names).get? k = some i) ∨
        i ∈ a.rhs.inputs ∧ (readings config c names).get? i = none}
          (a.replace (readings config c names)).rhs := by
  have htarget := (hsettled a ha).target
  refine Assignment.replace_spec htarget (get?_readings_lhs hc ha (by simpa using hkeep) htarget)
    (hc.line.unary a ha) (fun k e hk => ?_) (hρ.known a ha)
  obtain ⟨y, rfl, -, hdenote, -⟩ := hρ.read k e hk
  exact ⟨rfl, hdenote⟩

omit [Exact α] in
theorem Recalling.sees (hP : ∀ i ∈ P, ∃ a ∈ c.assignments, i ∈ a.rhs.inputs)
    (hsees : Sees ρ P (env g pos .empty))
    (hgh : Grid.AgreeOff (temporaries config c names) g h) :
    Sees ρ' (available P (readings config c names)) (env h pos .empty) := by
  rintro i (⟨hi, -⟩ | ⟨k, hk⟩)
  · obtain ⟨a, ha, hai⟩ := hP i hi
    obtain ⟨hin, hval⟩ := hsees i hi
    refine ⟨hin, ?_⟩
    rw [hρ.known a ha i hai, hgh.eval_input hin fun y hy hT => ?_, hval]
    exact hc.not_temporary ha (.inr (hy ▸ hai)) hT
  · obtain ⟨y, rfl, -, hdenote, hval⟩ := hρ.read k i hk
    exact ⟨rfl, hval.trans (congrArg _ hdenote.symm)⟩

variable (hI : 1 ≤ config.minInvariant) (hsettled : ∀ a ∈ c.assignments, Settled ρ a)

include hI hsettled

theorem Recalling.ready (hready : Ready (Clash pos) P c.assignments) :
    Ready (Clash pos) (available P (readings config c names))
      (reader config c names).assignments := by
  refine ready_filter_map (E := {e | ∃ k, (readings config c names).get? k = some e})
    (K := {i | (readings config c names).get? i ≠ none}) hready
    (fun i hi hK => .inl ⟨hi, not_not.1 hK⟩) (fun i hi => .inr hi) (fun a ha hdrop => ?_)
    (fun a ha hkeep => ?_) fun a ha x y hl hy hclash => ?_
  · have hcand : candidate config c a = true := by simpa using hdrop
    obtain ⟨n, hl⟩ := exists_lhs_of_candidate hcand
    exact ⟨n, hl, Option.isSome_iff_ne_none.1 (hl ▸ isSome_readings_lhs hc.canonical hI ha hcand)⟩
  · obtain ⟨hlhs, -, -, hwithin⟩ := hρ.replace_spec hc hsettled ha hkeep
    exact ⟨hlhs, fun i hi => (hwithin.inputs i hi).imp_right fun h => ⟨h.1, not_not.2 h.2⟩⟩
  · obtain ⟨k, hk⟩ := hy
    obtain ⟨z, hz, hzT, -⟩ := hρ.read k _ hk
    rw [← access.inj hz, ← hclash.1] at hzT
    exact hc.not_temporary ha (.inl hl) hzT

omit hI in
theorem Recalling.effects :
    effects ρ' (reader config c names).assignments = effects ρ c.assignments := by
  refine effects_filter_map (fun a _ hdrop => ?_) fun a ha hkeep => ?_
  · obtain ⟨n, hl⟩ := exists_lhs_of_candidate (a := a) (by simpa using hdrop)
    rw [hl]
    rfl
  · obtain ⟨hlhs, hinc, hrhs, -⟩ := hρ.replace_spec hc hsettled ha hkeep
    exact ⟨hlhs, hinc, hrhs⟩

end Recalling

theorem runs_reader (hI : 1 ≤ config.minInvariant)
    (hgh : Grid.AgreeOff (temporaries config c names) g h)
    (hfilled : Filled config c names pos g h) (hrun : Runs pos c.assignments .empty g sc g') :
    ∃ sc' h', Runs pos (reader config c names).assignments .empty h sc' h' ∧
      Grid.AgreeOff (temporaries config c names) g' h' := by
  obtain ⟨P, ρ, hP, hsees, hready, hsettled, hreplay⟩ :=
    settled_of_runs hc.line (fun a ha => hc.pureIncrement ha) (hc.hazardFree pos) hrun
  obtain ⟨ρ', hρ⟩ := exists_recalling hc hsees hready hsettled hfilled
  obtain ⟨h', hreplay', hgh'⟩ := hgh.replay (fun w hw => by
    obtain ⟨a, ha, hl⟩ := mem_effects hw
    exact hc.not_temporary ha (.inl hl)) hreplay
  suffices hrun' : ∃ sc', Runs pos (reader config c names).assignments .empty h sc' h' by
    obtain ⟨sc', hrun'⟩ := hrun'
    exact ⟨sc', h', hrun', hgh'⟩
  rw [← hρ.effects hc hsettled] at hreplay'
  refine runs_of_effects (fun b hb => ?_) (fun b hb => ?_) (fun b hb => ?_)
    (hρ.ready hc hI hsettled hready) (hρ.sees hc hP hsees hgh) hreplay'
  all_goals
    obtain ⟨a, ha, rfl⟩ := List.mem_map.1 hb
    obtain ⟨ha, hkeep⟩ := List.mem_filter.1 ha
    obtain ⟨hlhs, hinc, hrhs, hwithin⟩ := hρ.replace_spec hc hsettled ha hkeep
  · exact hwithin.unary
  · intro x hl _ hx
    rw [hlhs] at hl
    rcases hwithin.inputs _ hx with ⟨k, hk⟩ | ⟨hx, -⟩
    · obtain ⟨y, hy, hyT, -⟩ := hρ.read k _ hk
      exact hc.not_temporary ha (.inl hl) (access.inj hy ▸ hyT)
    · exact hc.readOnly a ha a ha x x hl hx rfl
  · refine ⟨hlhs ▸ (hsettled a ha).target, fun s hs => ?_⟩
    rw [hlhs] at hs
    rw [hinc, hrhs, hρ.scalar]
    exact (hsettled a ha).scalar s hs

end Reader

end Lifting

end Stencil
