import Stencil.Proofs.Assignment.Inlining
import Stencil.Proofs.Pass.Refines

namespace Stencil

open Stencil.Expr Stencil.Flow Schedule

variable {α : Type}

structure Outlined (g : Supply) (as as' defs : List (Assignment α)) (reach : String → Leaves α)
    (weight : String → Nat) : Prop where
  acyclic : Acyclic defs reach weight
  assignments : List.Forall₂ (fun a a' => a'.lhs = a.lhs ∧ a'.increment = a.increment ∧
    Deep defs reach {i | i ∈ a.rhs.inputs} a'.rhs) as as'
  needed : ∀ d ∈ defs, ∀ t, sym t ∈ d.rhs.inputs → Temp defs t → Needed defs as' t
  origin : ∀ t, Temp defs t → ∃ a ∈ as, reach t ⊆ {i | i ∈ a.rhs.inputs}
  fresh : ∀ t, Temp defs t → (sym t : Expr α) ∉ g.known

variable {g g' : Supply} {as as' defs : List (Assignment α)} {reach : String → Leaves α}
  {weight : String → Nat} {clash : Access → Access → Prop} {P : Leaves α}

theorem Flow.Ready.mem_afterAll_never (h : Ready never P as) {a : Assignment α} (ha : a ∈ as)
    {i : Expr α} (hi : i ∈ a.rhs.inputs) : i ∈ afterAll never P as := by
  induction as generalizing P with
  | nil => simp at ha
  | cons b as ih =>
    rcases List.mem_cons.1 ha with rfl | ha
    · rw [afterAll_cons]
      exact Flow.mem_afterAll_never (mem_after_never (h.1 i hi))
    · exact ih h.2 ha

theorem deepReady_of_forall₂
    (h : List.Forall₂ (fun a a' => a'.lhs = a.lhs ∧ a'.increment = a.increment ∧
      Deep defs reach {i | i ∈ a.rhs.inputs} a'.rhs) as as') (hr : Ready clash P as) :
    DeepReady defs reach clash P as' := by
  induction h generalizing P with
  | nil => trivial
  | cons ha _ ih =>
    refine ⟨ha.2.2.mono hr.1, ?_⟩
    rw [after_congr ha.1]
    exact ih hr.2

theorem afterAll_of_forall₂ (h : List.Forall₂ (fun a a' => a'.lhs = a.lhs) as as') :
    afterAll clash P as' = afterAll clash P as := by
  induction h generalizing P with
  | nil => rfl
  | cons ha _ ih => rw [afterAll_cons, afterAll_cons, after_congr ha, ih]

theorem forall₂_append_left {β γ : Type} {R : β → γ → Prop} {xs xs' : List β} {ys : List γ}
    (h : List.Forall₂ R (xs ++ xs') ys) :
    ∃ zs zs', ys = zs ++ zs' ∧ List.Forall₂ R xs zs ∧ List.Forall₂ R xs' zs' := by
  induction xs generalizing ys with
  | nil => exact ⟨[], ys, rfl, .nil, h⟩
  | cons x xs ih =>
    obtain ⟨y, ys, hxy, htail, rfl⟩ := List.forall₂_cons_left_iff.1 h
    obtain ⟨zs, zs', rfl, h₁, h₂⟩ := ih htail
    exact ⟨y :: zs, zs', rfl, .cons hxy h₁, h₂⟩

theorem settled_of_forall₂ [AlgebraicField α] [Arithmetic α] {ρ ρ' : Expr α → α}
    (h : List.Forall₂ (fun a a' => a'.lhs = a.lhs ∧ a'.increment = a.increment ∧
      Deep defs reach {i | i ∈ a.rhs.inputs} a'.rhs) as as')
    (hv : List.Forall₂ (fun a a' => denote ρ' a'.rhs = denote ρ a.rhs) as as')
    (htarget : ∀ a ∈ as, ρ' a.lhs = ρ a.lhs) (hs : ∀ a ∈ as, Settled ρ a) :
    ∀ a ∈ as', Settled ρ' a := by
  induction h with
  | nil => simp
  | @cons a a' as as' ha _ ih =>
    obtain ⟨hav, hv⟩ := List.forall₂_cons.1 hv
    have hsa := hs a List.mem_cons_self
    intro b hb
    rcases List.mem_cons.1 hb with rfl | hb
    · refine ⟨ha.1 ▸ hsa.target, fun s hl => ?_⟩
      rw [ha.1] at hl
      have hta := htarget a List.mem_cons_self
      rw [hl] at hta
      rw [ha.2.1, hav, hta]
      exact hsa.scalar s hl
    · exact ih hv (fun c hc => htarget c (List.mem_cons_of_mem a hc))
        (fun c hc => hs c (List.mem_cons_of_mem a hc)) b hb

theorem effects_of_forall₂ [AlgebraicField α] [Arithmetic α] {ρ ρ' : Expr α → α}
    (h : List.Forall₂ (fun a a' => a'.lhs = a.lhs ∧ a'.increment = a.increment ∧
      Deep defs reach {i | i ∈ a.rhs.inputs} a'.rhs) as as')
    (hv : List.Forall₂ (fun a a' => denote ρ' a'.rhs = denote ρ a.rhs) as as') :
    effects ρ' as' = effects ρ as := by
  induction h with
  | nil => rfl
  | cons ha _ ih =>
    obtain ⟨hav, hv⟩ := List.forall₂_cons.1 hv
    have htail := ih hv
    unfold effects at htail ⊢
    rw [List.filterMap_cons, List.filterMap_cons, ha.1, ha.2.1, hav, htail]

theorem Outlined.pure (h : Outlined g as as' defs reach weight) (hp : ∀ a ∈ as, PureIncrement a) :
    ∀ a ∈ as', PureIncrement a := by
  intro a' ha' x hl hinc hmem
  obtain ⟨a, ha, hlhs, hincr, hdeep⟩ := forall₂_mem_right h.assignments a' ha'
  exact hp a ha x (hlhs ▸ hl) (hincr ▸ hinc) (hdeep.others _ hmem fun t ht => by simp at ht)

theorem Outlined.split (h : Outlined g as as' defs reach weight) {live dead : List (Assignment α)}
    (hlive : as = live ++ dead) (hs : Split clash P live dead) (hP : P ⊆ g.known)
    (htarget : ∀ a ∈ as, a.lhs ∈ g.known) :
    ∃ live' dead', schedule defs as' = live' ++ dead' ∧ Split clash P live' dead' ∧
      (live' ++ dead').filter (·.lhs.isAccess) = as'.filter (·.lhs.isAccess) ∧
      (∀ a ∈ live' ++ dead', a ∈ as' ∨ a ∈ defs) ∧
      ∀ a ∈ dead', (∃ b ∈ dead, a.lhs = b.lhs) ∨ a ∈ defs := by
  subst hlive
  obtain ⟨lives, deads, rfl, h₁, h₂⟩ := forall₂_append_left h.assignments
  have hlhs₁ := h₁.imp fun _ _ ha => ha.1
  have hlhs₂ := h₂.imp fun _ _ ha => ha.1
  have hready : Ready never P (live ++ dead) := ready_append.2 ⟨hs.ready.weaken, hs.rest⟩
  have hrest : DeepReady defs reach never (afterAll never P lives) deads := by
    rw [afterAll_of_forall₂ hlhs₁]
    exact deepReady_of_forall₂ h₂ hs.rest
  have hscalars : ∀ a ∈ deads, a.lhs.isSymbol = true := by
    intro a ha
    obtain ⟨b, hb, hab⟩ := forall₂_mem_right hlhs₂ a ha
    exact hab ▸ hs.scalars b hb
  have hreach : ∀ t, Temp defs t → reach t ⊆ afterAll never P (lives ++ deads) := by
    intro t htemp i hi
    obtain ⟨a, ha, hsub⟩ := h.origin t htemp
    rw [afterAll_append, afterAll_of_forall₂ hlhs₁, afterAll_of_forall₂ hlhs₂, ← afterAll_append]
    exact hready.mem_afterAll_never ha (hsub hi)
  have hfresh : ∀ t, Temp defs t → sym t ∉ P ∧ ∀ a ∈ lives ++ deads, a.lhs ≠ sym t := by
    refine fun t htemp => ⟨fun hmem => h.fresh t htemp (hP hmem), fun a ha heq => ?_⟩
    obtain ⟨b, hb, hab⟩ := forall₂_mem_right h.assignments a ha
    exact h.fresh t htemp (heq ▸ hab.1 ▸ htarget b hb)
  obtain ⟨live', dead', hsched, hsplit, hstores, hmem, hdead⟩ := schedule_split h.acyclic
    (deepReady_of_forall₂ h₁ hs.ready) hrest hscalars h.needed hreach hfresh
  refine ⟨live', dead', hsched, hsplit, hstores, hmem, fun a ha => (hdead a ha).imp_left fun ha => ?_⟩
  exact forall₂_mem_right hlhs₂ a ha

theorem Outlined.refines [AlgebraicField α] [Arithmetic α]
    (h : Outlined g as as' defs reach weight) (ht : ∀ a ∈ as, Tidy g a)
    (hknown : (g.known : Leaves α) ⊆ g'.known) (ht' : ∀ a ∈ as', Tidy g' a)
    (hd : ∀ d ∈ defs, Tidy g' d)
    (hvalue : ∀ ρ : Expr α → α, ∃ ρ' : Expr α → α, (∀ i ∈ g.known, ρ' i = ρ i) ∧
      (∀ d ∈ defs, Settled ρ' d) ∧
      List.Forall₂ (fun a a' => denote ρ' a'.rhs = denote ρ a.rhs) as as') :
    Refines g g' as (schedule defs as') := by
  refine ⟨?_, hknown, fun clash P β W hP hm => ?_⟩
  · have hready : Ready never g.known as := ready_never fun a ha => (ht a ha).within.inputs
    have hsplit : Split never g.known as [] := ⟨hready, trivial, by simp⟩
    obtain ⟨live', dead', hsched, -, -, hmem, -⟩ :=
      h.split (List.append_nil as).symm hsplit subset_rfl fun a ha => (ht a ha).target
    intro a ha
    rcases hmem a (hsched ▸ ha) with ha | ha
    · exact ht' a ha
    · exact hd a ha
  · obtain ⟨ρ, live, dead, hlive, hsplit, hβ, hs, hW⟩ := hm.exists_split
    obtain ⟨live', dead', hsched, hsplit', hstores, hmem, -⟩ :=
      h.split hlive hsplit hP fun a ha => (ht a ha).target
    obtain ⟨ρ', hρ', hdefs, hvals⟩ := hvalue ρ
    refine ⟨ρ', live', dead', hsched, hsplit', fun i hi => (hρ' i (hP hi)).trans (hβ i hi), ?_, ?_⟩
    · intro a ha
      rcases hmem a (hsched ▸ ha) with ha | ha
      · exact settled_of_forall₂ h.assignments hvals
          (fun b hb => hρ' b.lhs (ht b hb).target) hs a ha
      · exact hdefs a ha
    · rw [hsched, effects_of_stores ρ' hstores, effects_of_forall₂ h.assignments hvals, hW]

section Spelled

variable [AlgebraicField α] [Arithmetic α] {T : String → Option (Expr α)} {x e : Expr α}

def spell (T : String → Option (Expr α)) (ρ : Expr α → α) : Expr α → α
  | sym t => (T t).elim (ρ (sym t)) (denote ρ)
  | i => ρ i

def meaning (T : String → Option (Expr α)) (t : String) : Leaves α :=
  {i | ∃ k, T t = some k ∧ i ∈ k.inputs}

variable [Exact α]

theorem denote_spell (ρ : Expr α → α) (x : Expr α) :
    denote (spell T ρ) x = denote ρ (expand T x) := by
  induction x using inductArgs with
  | node x ih =>
    by_cases hleaf : x.isLeaf = true
    · cases x with
      | sym t =>
        rw [denote_sym, spell, expand_sym]
        cases T t <;> rfl
      | num | access => rfl
      | _ => simp [isLeaf] at hleaf
    · rw [Bool.not_eq_true] at hleaf
      have hinput := isInput_of_isLeaf hleaf
      have hsym : x.isSymbol = false := by cases x <;> simp_all [isLeaf, isSymbol]
      rw [denote_of_not_isInput hinput, expand_of_not_symbol hsym,
        denote_rebuild ρ hleaf (List.length_map _), List.map_map]
      exact congrArg _ (List.map_congr_left ih)

theorem Expr.Abbreviates.denote_eq (h : Abbreviates T x e) (ρ : Expr α → α) :
    denote (spell T ρ) x = denote ρ e := by
  rw [denote_spell, beq_iff_eq.1 h.value]

variable {S : Leaves α}

theorem Expr.Abbreviates.deep (hs : Spelled T as as' defs) (h : Abbreviates T x e)
    (hS : ∀ i ∈ e.inputs, i ∈ S) : Deep defs (meaning T) S x where
  temps t ht _ := by
    rintro i ⟨k, hT, hi⟩
    refine hS i (h.mem_inputs.2 ⟨sym t, ht, ?_⟩)
    rwa [expand_sym, hT]
  others i hi hnot := by
    refine hS i (h.mem_inputs.2 ⟨i, hi, ?_⟩)
    have hinput := (Expr.mem_inputs.1 hi).2
    have hself : expand T i = i := by
      cases i with
      | sym t => rw [expand_sym, hs.others t (hnot t rfl), Option.getD_none]
      | access => rfl
      | _ => simp [isInput, isSymbol, isAccess] at hinput
    rw [hself, inputs_of_isInput hinput]
    exact List.mem_singleton_self i

theorem Schedule.Spelled.outlined (hs : Spelled T as as' defs) (ho : Orderly defs as' weight)
    (horigin : ∀ t k, T t = some k → ∃ a ∈ as, ∀ i ∈ k.inputs, i ∈ a.rhs.inputs)
    (hfresh : ∀ t, Temp defs t → (sym t : Expr α) ∉ g.known) :
    Outlined g as as' defs (meaning T) weight where
  acyclic := by
    refine ⟨ho.scalar, ho.nodup, fun d hd t hl => ?_, ho.lighter⟩
    obtain ⟨t', k, hl', hT, hk⟩ := hs.definition d hd
    obtain rfl := sym.inj (hl.symm.trans hl')
    exact hk.deep hs fun i hi => ⟨k, hT, hi⟩
  assignments := hs.assignments.imp fun a b hab =>
    ⟨by rw [hab.1]; rfl, by rw [hab.1]; rfl, hab.2.deep hs fun _ hi => hi⟩
  needed := ho.needed
  origin t htemp := by
    obtain ⟨d, hd, hl⟩ := htemp
    obtain ⟨t', k, hl', hT, -⟩ := hs.definition d hd
    obtain rfl := sym.inj (hl.symm.trans hl')
    obtain ⟨a, ha, hsub⟩ := horigin t k hT
    refine ⟨a, ha, ?_⟩
    rintro i ⟨k', hT', hi⟩
    obtain rfl := Option.some.inj (hT.symm.trans hT')
    exact hsub i hi
  fresh := hfresh

theorem Schedule.Spelled.values (hs : Spelled T as as' defs) (hplain : ∀ d ∈ defs, d.increment = false)
    (hfresh : ∀ t, Temp defs t → (sym t : Expr α) ∉ g.known) (ρ : Expr α → α) :
    ∃ ρ' : Expr α → α, (∀ i ∈ g.known, ρ' i = ρ i) ∧ (∀ d ∈ defs, Settled ρ' d) ∧
      List.Forall₂ (fun a a' => denote ρ' a'.rhs = denote ρ a.rhs) as as' := by
  refine ⟨spell T ρ, fun i hi => ?_, fun d hd => ?_,
    hs.assignments.imp fun a b hab => hab.2.denote_eq ρ⟩
  · cases i with
    | sym t =>
      rw [spell, hs.others t fun htemp => hfresh t htemp hi]
      rfl
    | _ => rfl
  · obtain ⟨t, k, hl, hT, hk⟩ := hs.definition d hd
    refine ⟨by rw [hl]; rfl, fun t' hl' => ⟨hplain d hd, ?_⟩⟩
    obtain rfl := sym.inj (hl.symm.trans hl')
    rw [hk.denote_eq, spell, hT, Option.elim_some]

end Spelled

end Stencil
