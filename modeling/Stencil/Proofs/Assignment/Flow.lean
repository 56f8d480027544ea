import Mathlib.Data.Set.Insert
import Stencil.Assignment.Basic
import Stencil.Proofs.Expr.Hereditary

namespace Stencil

abbrev Leaves (α : Type) := Set (Expr α)

namespace Flow

open Stencil.Expr

variable {α : Type}

/-- What is available after an assignment. `clash x y` says that a store to `x` overwrites the
element that `y` reads. -/
def after (clash : Access → Access → Prop) (P : Leaves α) (a : Assignment α) : Leaves α :=
  match a.lhs with
  | .sym s => insert (.sym s) P
  | .access x => {i | i ∈ P ∧ ∀ y, i = .access y → ¬ clash x y}
  | _ => P

def afterAll (clash : Access → Access → Prop) (P : Leaves α) (as : List (Assignment α)) :
    Leaves α := as.foldl (after clash) P

def Ready (clash : Access → Access → Prop) (P : Leaves α) : List (Assignment α) → Prop
  | [] => True
  | a :: as => (∀ i ∈ a.rhs.inputs, i ∈ P) ∧ Ready clash (after clash P a) as

def never (_ _ : Access) : Prop := False

variable {clash : Access → Access → Prop} {P P' : Leaves α} {a : Assignment α}
  {as bs : List (Assignment α)}

theorem afterAll_cons : afterAll clash P (a :: as) = afterAll clash (after clash P a) as := rfl

theorem afterAll_append :
    afterAll clash P (as ++ bs) = afterAll clash (afterAll clash P as) bs := List.foldl_append

theorem ready_append :
    Ready clash P (as ++ bs) ↔ Ready clash P as ∧ Ready clash (afterAll clash P as) bs := by
  induction as generalizing P with
  | nil => simp [Ready, afterAll]
  | cons a as ih => simp only [List.cons_append, Ready, ih, and_assoc, afterAll_cons]

theorem after_congr {b : Assignment α} (h : b.lhs = a.lhs) : after clash P b = after clash P a := by
  simp only [after, h]

theorem after_mono (h : P ⊆ P') : after clash P a ⊆ after clash P' a := by
  unfold after
  split
  · exact Set.insert_subset_insert h
  · exact fun i hi => ⟨h hi.1, hi.2⟩
  · exact h

theorem Ready.mono (h : P ⊆ P') (hr : Ready clash P as) : Ready clash P' as := by
  induction as generalizing P P' with
  | nil => trivial
  | cons a as ih => exact ⟨fun i hi => h (hr.1 i hi), ih (after_mono h) hr.2⟩

theorem sym_mem_after {s : String} (h : sym s ∈ P) : sym s ∈ after clash P a := by
  unfold after
  split
  · exact Set.mem_insert_of_mem _ h
  · exact ⟨h, fun y hy => by simp at hy⟩
  · exact h

theorem sym_mem_afterAll {s : String} (h : sym s ∈ P) : sym s ∈ afterAll clash P as := by
  induction as generalizing P with
  | nil => exact h
  | cons a as ih => exact ih (sym_mem_after h)

theorem target_mem_after {s : String} (h : a.lhs = sym s) : sym s ∈ after clash P a := by
  simp [after, h]

theorem target_mem_afterAll {s : String} (ha : a ∈ as) (h : a.lhs = sym s) :
    sym s ∈ afterAll clash P as := by
  induction as generalizing P with
  | nil => simp at ha
  | cons b as ih =>
    rcases List.mem_cons.1 ha with rfl | ha
    · rw [afterAll_cons]
      exact sym_mem_afterAll (target_mem_after h)
    · exact ih ha

theorem mem_afterAll {i : Expr α} (h : i ∈ afterAll clash P as) :
    i ∈ P ∨ ∃ a ∈ as, a.lhs = i ∧ i.isSymbol = true := by
  induction as generalizing P with
  | nil => exact .inl h
  | cons a as ih =>
    rcases ih h with h | ⟨b, hb, hbi⟩
    · unfold after at h
      split at h
      · rename_i s hs
        rcases h with rfl | h
        · exact .inr ⟨a, List.mem_cons_self, hs, rfl⟩
        · exact .inl h
      · exact .inl h.1
      · exact .inl h
    · exact .inr ⟨b, List.mem_cons_of_mem a hb, hbi⟩

theorem after_subset_never : after clash P a ⊆ after never P a := by
  unfold after
  split
  · exact subset_rfl
  · exact fun i hi => ⟨hi.1, fun _ _ h => h⟩
  · exact subset_rfl

theorem mem_after_never {i : Expr α} (h : i ∈ P) : i ∈ after never P a := by
  unfold after
  split
  · exact Set.mem_insert_of_mem _ h
  · exact ⟨h, fun _ _ h => h⟩
  · exact h

theorem mem_afterAll_never {i : Expr α} (h : i ∈ P) : i ∈ afterAll never P as := by
  induction as generalizing P with
  | nil => exact h
  | cons a as ih => exact ih (mem_after_never h)

theorem Ready.weaken (hr : Ready clash P as) : Ready never P as := by
  induction as generalizing P with
  | nil => trivial
  | cons a as ih => exact ⟨hr.1, (ih hr.2).mono after_subset_never⟩

theorem ready_never (h : ∀ a ∈ as, ∀ i ∈ a.rhs.inputs, i ∈ P) : Ready never P as := by
  induction as generalizing P with
  | nil => trivial
  | cons a as ih =>
    refine ⟨h a List.mem_cons_self, ih fun b hb i hi => ?_⟩
    exact mem_after_never (h b (List.mem_cons_of_mem a hb) i hi)

theorem afterAll_never_subset (h : P ⊆ P') (hs : as ⊆ bs) :
    afterAll never P as ⊆ afterAll never P' bs := by
  intro i hi
  rcases mem_afterAll hi with hi | ⟨a, ha, rfl, hsym⟩
  · exact mem_afterAll_never (h hi)
  · cases hl : a.lhs with
    | sym s => exact target_mem_afterAll (hs ha) hl
    | _ => simp [hl, isSymbol] at hsym

theorem mem_after_scalar {i : Expr α} (ha : a.lhs.isSymbol = true) (h : i ∈ P) :
    i ∈ after clash P a := by
  unfold after
  split
  · exact Set.mem_insert_of_mem _ h
  · rename_i hx
    simp [hx, isSymbol] at ha
  · exact h

theorem mem_afterAll_scalars {i : Expr α} (has : ∀ a ∈ as, a.lhs.isSymbol = true) (h : i ∈ P) :
    i ∈ afterAll clash P as := by
  induction as generalizing P with
  | nil => exact h
  | cons a as ih =>
    exact ih (fun b hb => has b (List.mem_cons_of_mem a hb))
      (mem_after_scalar (has a List.mem_cons_self) h)

theorem Ready.sym_mem_afterAll {s : String} (hr : Ready clash P as) (ha : a ∈ as)
    (hs : sym s ∈ a.rhs.inputs) : sym s ∈ afterAll clash P as := by
  induction as generalizing P with
  | nil => simp at ha
  | cons b as ih =>
    rcases List.mem_cons.1 ha with rfl | ha
    · rw [afterAll_cons]
      exact Flow.sym_mem_afterAll (sym_mem_after (hr.1 _ hs))
    · exact ih hr.2 ha

theorem Ready.mem_or_target {i : Expr α} (hr : Ready clash P as) (ha : a ∈ as)
    (hi : i ∈ a.rhs.inputs) : i ∈ P ∨ ∃ b ∈ as, b.lhs = i ∧ i.isSymbol = true := by
  obtain ⟨l, r, rfl⟩ := List.append_of_mem ha
  obtain ⟨-, hready, -⟩ := ready_append.1 hr
  refine (mem_afterAll (hready i hi)).imp_right ?_
  rintro ⟨b, hb, h⟩
  exact ⟨b, List.mem_append_left _ hb, h⟩

theorem ready_filter_map {keep : Assignment α → Bool} {f : Assignment α → Assignment α}
    {E K : Leaves α} (hr : Ready clash P as) (hP : ∀ i ∈ P, i ∉ K → i ∈ P') (hE : E ⊆ P')
    (hdrop : ∀ a ∈ as, keep a = false → ∃ s, a.lhs = sym s ∧ sym s ∈ K)
    (hkeep : ∀ a ∈ as, keep a = true → (f a).lhs = a.lhs ∧
      ∀ i ∈ (f a).rhs.inputs, i ∈ E ∨ i ∈ a.rhs.inputs ∧ i ∉ K)
    (hclash : ∀ a ∈ as, ∀ x y, a.lhs = access x → access y ∈ E → ¬ clash x y) :
    Ready clash P' ((as.filter keep).map f) := by
  induction as generalizing P P' with
  | nil => trivial
  | cons a as ih =>
    obtain ⟨hdropa, hdrop⟩ := List.forall_mem_cons.1 hdrop
    obtain ⟨hkeepa, hkeep⟩ := List.forall_mem_cons.1 hkeep
    obtain ⟨hclasha, hclash⟩ := List.forall_mem_cons.1 hclash
    by_cases ha : keep a = true
    · obtain ⟨hlhs, hinputs⟩ := hkeepa ha
      rw [List.filter_cons_of_pos ha]
      refine ⟨fun i hi => ?_, ?_⟩
      · rcases hinputs i hi with hi | ⟨hi, hK⟩
        · exact hE hi
        · exact hP i (hr.1 i hi) hK
      · rw [after_congr hlhs]
        refine ih hr.2 (fun i hi hK => ?_) (fun i hi => ?_) hdrop hkeep hclash
        · unfold after at hi ⊢
          split at hi
          · exact hi.imp_right fun hi => hP i hi hK
          · exact ⟨hP i hi.1 hK, hi.2⟩
          · exact hP i hi hK
        · unfold after
          split
          · exact .inr (hE hi)
          · rename_i x hx
            exact ⟨hE hi, fun y hy => hclasha x y hx (hy ▸ hi)⟩
          · exact hE hi
    · rw [Bool.not_eq_true] at ha
      obtain ⟨s, hs, hK⟩ := hdropa ha
      rw [List.filter_cons_of_neg (by simp [ha])]
      refine ih hr.2 (fun i hi hiK => ?_) hE hdrop hkeep hclash
      unfold after at hi
      rw [hs] at hi
      rcases hi with rfl | hi
      · exact absurd hK hiK
      · exact hP i hi hiK

variable [AlgebraicField α] [Arithmetic α]

def effects (ρ : Expr α → α) (as : List (Assignment α)) : List (Access × Bool × α) :=
  as.filterMap fun a => a.lhs.access?.map fun x => (x, a.increment, denote ρ a.rhs)

structure Settled (ρ : Expr α → α) (a : Assignment α) : Prop where
  target : a.lhs.isInput = true
  scalar : ∀ s, a.lhs = sym s → a.increment = false ∧ ρ (sym s) = denote ρ a.rhs

/-- Assignments in two parts: those that have an effect, which see the right values, and scalars
that nobody needs, for which it is enough that all that they read has some value. -/
structure Split (clash : Access → Access → Prop) (P : Leaves α) (live dead : List (Assignment α)) :
    Prop where
  ready : Ready clash P live
  rest : Ready never (afterAll never P live) dead
  scalars : ∀ a ∈ dead, a.lhs.isSymbol = true

structure Models (clash : Access → Access → Prop) (P : Leaves α) (β : Expr α → α)
    (W : List (Access × Bool × α)) (as : List (Assignment α)) : Prop where
  exists_split : ∃ (ρ : Expr α → α) (live dead : List (Assignment α)), as = live ++ dead ∧
    Split clash P live dead ∧ (∀ i ∈ P, ρ i = β i) ∧ (∀ a ∈ as, Settled ρ a) ∧ effects ρ as = W

theorem effects_append (ρ : Expr α → α) :
    effects ρ (as ++ bs) = effects ρ as ++ effects ρ bs := List.filterMap_append

theorem effects_scalars {ρ : Expr α → α} (h : ∀ a ∈ as, a.lhs.isSymbol = true) :
    effects ρ as = [] := by
  rw [effects, List.filterMap_eq_nil_iff]
  intro a ha
  have := h a ha
  cases hl : a.lhs <;> simp_all [isSymbol, access?]

theorem mem_effects {ρ : Expr α → α} {w : Access × Bool × α} (h : w ∈ effects ρ as) :
    ∃ a ∈ as, a.lhs = access w.1 := by
  obtain ⟨a, ha, hw⟩ := List.mem_filterMap.1 h
  refine ⟨a, ha, ?_⟩
  cases hl : a.lhs with
  | access x =>
    rw [hl] at hw
    rw [← Option.some.inj hw]
  | _ => simp [hl, access?] at hw

theorem effects_filter_map {keep : Assignment α → Bool} {f : Assignment α → Assignment α}
    {ρ ρ' : Expr α → α} (hdrop : ∀ a ∈ as, keep a = false → a.lhs.isSymbol = true)
    (hkeep : ∀ a ∈ as, keep a = true → (f a).lhs = a.lhs ∧ (f a).increment = a.increment ∧
      denote ρ' (f a).rhs = denote ρ a.rhs) :
    effects ρ' ((as.filter keep).map f) = effects ρ as := by
  induction as with
  | nil => rfl
  | cons a as ih =>
    obtain ⟨hdropa, hdrop⟩ := List.forall_mem_cons.1 hdrop
    obtain ⟨hkeepa, hkeep⟩ := List.forall_mem_cons.1 hkeep
    have hcons (ρ : Expr α → α) (a : Assignment α) (as : List (Assignment α)) :
        effects ρ (a :: as) = effects ρ [a] ++ effects ρ as := by
      rw [← effects_append, List.singleton_append]
    by_cases ha : keep a = true
    · obtain ⟨hlhs, hinc, hrhs⟩ := hkeepa ha
      have hone : effects ρ' [f a] = effects ρ [a] := by
        simp only [effects, List.filterMap_cons, List.filterMap_nil, hlhs, hinc, hrhs]
      rw [List.filter_cons_of_pos ha, List.map_cons, hcons, hone, ih hdrop hkeep, ← hcons]
    · rw [Bool.not_eq_true] at ha
      rw [List.filter_cons_of_neg (by simp [ha]), ih hdrop hkeep, hcons ρ a,
        effects_scalars (List.forall_mem_singleton.2 (hdropa ha)), List.nil_append]

end Flow

end Stencil
