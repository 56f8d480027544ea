import Stencil.Pass.Scalar
import Stencil.Proofs.Pass.Refines

namespace Stencil.ScalarPass

open Stencil.Expr Stencil.Flow

variable {α : Type} [Arithmetic α]

def splitIncrements (g : Names) : List (Assignment α) → List (Assignment α) × Names
  | [] => ([], g)
  | a :: as =>
    if a.increment && a.writesData then
      let t : Expr α := .sym (g.name 0)
      let r := splitIncrements (g.skip 1) as
      ({ lhs := t, rhs := a.addition } :: { lhs := a.lhs, rhs := t, increment := true } :: r.1, r.2)
    else
      let r := splitIncrements g as
      (a :: r.1, r.2)

theorem extractIncrements_run (c : Cluster α) (g : Names) :
    (extractIncrements c).run g =
      (c.withAssignments (splitIncrements g c.assignments).1, (splitIncrements g c.assignments).2) := by
  have hmap : ∀ (as : List (Assignment α)) (g : Names),
      (fun r => (r.1.flatten, r.2)) ((as.mapM fun a => (do
        if a.increment && a.writesData then
          let t : Expr α := .sym (← Names.take)
          return [{ lhs := t, rhs := a.addition }, { lhs := a.lhs, rhs := t, increment := true }]
        else return [a] : StateM Names (List (Assignment α)))).run g) = splitIncrements g as := by
    intro as
    induction as with
    | nil => exact fun g => rfl
    | cons a as ih =>
      intro g
      rw [List.mapM_cons, splitIncrements]
      split
      · rw [← ih (g.skip 1)]
        rfl
      · rw [← ih g]
        rfl
  rw [← hmap c.assignments g]
  rfl

theorem splitIncrements_scalars (g : Names) {live dead : List (Assignment α)}
    (h : ∀ a ∈ dead, a.lhs.isSymbol = true) :
    splitIncrements g (live ++ dead) =
      ((splitIncrements g live).1 ++ dead, (splitIncrements g live).2) := by
  induction live generalizing g with
  | nil =>
    induction dead with
    | nil => rfl
    | cons a as ih =>
      have hdata : a.writesData = false := by
        have hsym := h a List.mem_cons_self
        cases hl : a.lhs <;> simp_all [isSymbol, Assignment.writesData, access?]
      have htail := ih fun b hb => h b (List.mem_cons_of_mem a hb)
      simp only [List.nil_append, splitIncrements] at htail ⊢
      simp [hdata, htail]
  | cons a as ih =>
    rw [List.cons_append, splitIncrements, splitIncrements]
    split
    · simp [ih (g.skip 1)]
    · simp [ih g]

variable [AlgebraicField α]

omit [AlgebraicField α] in
def splitCount (as : List (Assignment α)) : Nat :=
  as.countP fun a => a.increment && a.writesData

omit [Arithmetic α] [AlgebraicField α] in
theorem splitCount_split {a : Assignment α} (h : (a.increment && a.writesData) = true)
    (as : List (Assignment α)) : splitCount (a :: as) = 1 + splitCount as := by
  simp [splitCount, h, Nat.add_comm]

omit [Arithmetic α] [AlgebraicField α] in
theorem splitCount_other {a : Assignment α} (h : ¬ (a.increment && a.writesData) = true)
    (as : List (Assignment α)) : splitCount (a :: as) = splitCount as := by
  simp [splitCount, h]

omit [AlgebraicField α] in
theorem splitIncrements_names (g : Names) (as : List (Assignment α)) :
    (splitIncrements g as).2 = g.skip (splitCount as) := by
  induction as generalizing g with
  | nil => rfl
  | cons a as ih =>
    rw [splitIncrements]
    split
    · rename_i hif
      simp only [ih, splitCount_split hif, Names.skip, Nat.add_assoc]
    · rename_i hif
      simp only [ih, splitCount_other hif]

omit [Arithmetic α] [AlgebraicField α] in
theorem exists_access_of_split {a : Assignment α} (h : (a.increment && a.writesData) = true) :
    a.increment = true ∧ ∃ x, a.lhs = access x := by
  obtain ⟨hinc, hdata⟩ := Bool.and_eq_true_iff.1 h
  refine ⟨hinc, ?_⟩
  cases hl : a.lhs <;> simp_all [Assignment.writesData, access?]

variable [LawfulBEq (Expr α)]

omit [AlgebraicField α] in
theorem splitIncrements_tidy {g : Supply} {as : List (Assignment α)} (ht : ∀ a ∈ as, Tidy g a) :
    ∀ a ∈ (splitIncrements g.toNames as).1, Tidy (g.skip (splitCount as)) a := by
  induction as generalizing g with
  | nil => simp [splitIncrements]
  | cons a as ih =>
    have ha := ht a List.mem_cons_self
    have hmono := ha.mono (g.known_skip (splitCount (a :: as)))
    rw [splitIncrements]
    split
    · rename_i hif
      obtain ⟨hinc, x, hx⟩ := exists_access_of_split hif
      have hname : (sym (g.name 0) : Expr α) ∈ (g.skip (splitCount (a :: as))).known :=
        Supply.name_mem_known (by rw [splitCount_split hif]; omega)
      have htail := ih (g := g.skip 1) fun b hb =>
        (ht b (List.mem_cons_of_mem a hb)).mono (g.known_skip 1)
      rw [Supply.skip_skip, ← splitCount_split hif] at htail
      intro b hb
      rcases List.mem_cons.1 hb with rfl | hb
      · have hadd := ha.pure.addition hx hinc
        exact ⟨hadd ▸ hmono.canonical, hadd ▸ hmono.within, hname, pureIncrement_of_plain rfl⟩
      · rcases List.mem_cons.1 hb with rfl | hb
        · refine ⟨.sym _, within_of_isInput rfl hname, hmono.target, fun y _ _ hmem => ?_⟩
          simp [inputs_of_isInput, isInput, isSymbol] at hmem
        · exact htail b hb
    · rename_i hif
      have htail := ih fun b hb => ht b (List.mem_cons_of_mem a hb)
      rw [← splitCount_other hif] at htail
      intro b hb
      rcases List.mem_cons.1 hb with rfl | hb
      · exact hmono
      · exact htail b hb

theorem splitIncrements_live {g : Supply} {clash : Access → Access → Prop} {P : Leaves α}
    {ρ : Expr α → α} {as : List (Assignment α)} (ht : ∀ a ∈ as, Tidy g a)
    (hroom : g.Room (splitCount as)) (hr : Ready clash P as) (hs : ∀ a ∈ as, Settled ρ a) :
    ∃ ρ' : Expr α → α, (∀ i ∈ g.known, ρ' i = ρ i) ∧
      Ready clash P (splitIncrements g.toNames as).1 ∧
      (∀ a ∈ (splitIncrements g.toNames as).1, Settled ρ' a) ∧
      effects ρ' (splitIncrements g.toNames as).1 = effects ρ as ∧
      ∀ a ∈ as, ∃ b ∈ (splitIncrements g.toNames as).1, b.lhs = a.lhs := by
  induction as generalizing g P ρ with
  | nil => exact ⟨ρ, fun _ _ => rfl, trivial, by simp [splitIncrements], rfl, by simp⟩
  | cons a as ih =>
    have ha := ht a List.mem_cons_self
    have hsa := hs a List.mem_cons_self
    have ht' : ∀ b ∈ as, Tidy g b := fun b hb => ht b (List.mem_cons_of_mem a hb)
    have hs' : ∀ b ∈ as, Settled ρ b := fun b hb => hs b (List.mem_cons_of_mem a hb)
    rw [splitIncrements]
    split
    · rename_i hif
      obtain ⟨hinc, x, hx⟩ := exists_access_of_split hif
      rw [splitCount_split hif] at hroom
      -- The new scalar holds what the increment adds, by the values before the store.
      have hadd := ha.pure.addition hx hinc
      let ρ₀ := g.extend ρ fun _ => denote ρ a.rhs
      have hρ₀ : ∀ i ∈ g.known, ρ₀ i = ρ i := fun i hi => Supply.extend_of_mem_known hi
      obtain ⟨ρ', hρ', hready, hsettled, heffects, htargets⟩ := ih (g := g.skip 1) (ρ := ρ₀)
        (fun b hb => (ht' b hb).mono (g.known_skip 1)) (Supply.room_skip.2 hroom) hr.2
        (fun b hb => (ht' b hb).settled hρ₀ (hs' b hb))
      have hagree : ∀ i ∈ g.known, ρ' i = ρ i := fun i hi =>
        (hρ' i (g.known_skip 1 hi)).trans (hρ₀ i hi)
      have hname : ρ' (sym (g.name 0)) = denote ρ a.rhs :=
        (hρ' _ (Supply.name_mem_known Nat.one_pos)).trans
          (g.extend_name ρ _ (hroom.anti (Nat.le_add_right 1 _)))
      refine ⟨ρ', hagree, ?_, ?_, ?_, ?_⟩
      · refine ⟨fun i hi => hr.1 i (hadd ▸ hi), fun i hi => ?_, ?_⟩
        · rw [inputs_of_isInput rfl, List.mem_singleton] at hi
          exact hi ▸ target_mem_after rfl
        · rw [after_congr (a := a)
            (b := { lhs := a.lhs, rhs := sym (g.name 0), increment := true }) rfl]
          exact hready.mono (after_mono fun i hi => mem_after_scalar rfl hi)
      · intro b hb
        rcases List.mem_cons.1 hb with rfl | hb
        · refine ⟨rfl, fun s hl => ⟨rfl, ?_⟩⟩
          obtain rfl := sym.inj hl
          rw [hname, hadd, denote_agree hagree ha.within]
        · rcases List.mem_cons.1 hb with rfl | hb
          · exact ⟨hsa.target, fun s hl => by rw [hx] at hl; simp at hl⟩
          · exact hsettled b hb
      · have hhead : effects ρ' ({ lhs := sym (g.name 0), rhs := a.addition } ::
            { lhs := a.lhs, rhs := sym (g.name 0), increment := true } ::
            (splitIncrements (g.skip 1).toNames as).1) =
            (x, true, denote ρ a.rhs) ::
              effects ρ' (splitIncrements (g.skip 1).toNames as).1 := by
          simp [effects, access?, hx, hname]
        have hcons : effects ρ (a :: as) = (x, true, denote ρ a.rhs) :: effects ρ as := by
          simp [effects, access?, hx, hinc]
        rw [hcons, ← effects_agree ht' hρ₀, ← heffects, ← hhead]
        rfl
      · intro b hb
        rcases List.mem_cons.1 hb with rfl | hb
        · exact ⟨_, List.mem_cons_of_mem _ List.mem_cons_self, rfl⟩
        · obtain ⟨c, hc, hlhs⟩ := htargets b hb
          exact ⟨c, List.mem_cons_of_mem _ (List.mem_cons_of_mem _ hc), hlhs⟩
    · rename_i hif
      rw [splitCount_other hif] at hroom
      obtain ⟨ρ', hρ', hready, hsettled, heffects, htargets⟩ := ih ht' hroom hr.2 hs'
      refine ⟨ρ', hρ', ⟨hr.1, hready⟩, ?_, ?_, ?_⟩
      · intro b hb
        rcases List.mem_cons.1 hb with rfl | hb
        · exact ha.settled hρ' hsa
        · exact hsettled b hb
      · have hcons : ∀ (ρ : Expr α → α) (bs : List (Assignment α)),
            effects ρ (a :: bs) = effects ρ [a] ++ effects ρ bs := fun ρ bs =>
          @effects_append _ [a] bs _ _ ρ
        rw [hcons ρ', hcons ρ, heffects, effects_agree (fun b hb => List.mem_singleton.1 hb ▸ ha) hρ']
      · intro b hb
        rcases List.mem_cons.1 hb with rfl | hb
        · exact ⟨b, List.mem_cons_self, rfl⟩
        · obtain ⟨c, hc, hlhs⟩ := htargets b hb
          exact ⟨c, List.mem_cons_of_mem _ hc, hlhs⟩

theorem splitIncrements_refines {g : Supply} {as : List (Assignment α)}
    (ht : ∀ a ∈ as, Tidy g a) (hroom : g.Room (splitCount as)) :
    Refines g (g.skip (splitCount as)) as (splitIncrements g.toNames as).1 := by
  refine ⟨splitIncrements_tidy ht, g.known_skip _, fun clash P β W hP h => ?_⟩
  obtain ⟨ρ, live, dead, rfl, hsplit, hβ, hs, hW⟩ := h.exists_split
  have hlive : live ⊆ live ++ dead := List.subset_append_left _ _
  have hdead : dead ⊆ live ++ dead := List.subset_append_right _ _
  have hcount : splitCount live ≤ splitCount (live ++ dead) := by
    rw [splitCount, splitCount, List.countP_append]
    exact Nat.le_add_right _ _
  obtain ⟨ρ', hρ', hready, hsettled, heffects, htargets⟩ :=
    splitIncrements_live (fun a ha => ht a (hlive ha)) (hroom.anti hcount) hsplit.ready
      (fun a ha => hs a (hlive ha))
  rw [splitIncrements_scalars g.toNames hsplit.scalars]
  refine ⟨ρ', _, dead, rfl, ⟨hready, ?_, hsplit.scalars⟩, ?_, ?_, ?_⟩
  · refine hsplit.rest.mono fun i hi => ?_
    rcases mem_afterAll hi with hi | ⟨a, ha, rfl, hsym⟩
    · exact mem_afterAll_never hi
    · obtain ⟨b, hb, hlhs⟩ := htargets a ha
      cases hl : a.lhs with
      | sym s => exact target_mem_afterAll hb (hlhs.trans hl)
      | _ => simp [hl, isSymbol] at hsym
  · exact fun i hi => (hρ' i (hP hi)).trans (hβ i hi)
  · intro a ha
    rcases List.mem_append.1 ha with ha | ha
    · exact hsettled a ha
    · exact (ht a (hdead ha)).settled hρ' (hs a (hdead ha))
  · rw [effects_append, heffects, effects_scalars hsplit.scalars, ← hW, effects_append,
      effects_scalars hsplit.scalars]

end Stencil.ScalarPass
