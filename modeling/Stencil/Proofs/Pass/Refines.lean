import Std.Data.String.ToNat
import Stencil.Pass.Config
import Stencil.Proofs.Assignment.Flow

namespace Stencil

open Stencil.Expr Stencil.Flow

variable {α : Type}

theorem Names.name_injective (g : Names) {m n : Nat} (h : g.name m = g.name n) : m = n := by
  have hnat := Nat.repr_injective ((String.append_right_inj g.stem).1 h)
  omega

theorem Names.name_skip (g : Names) (k n : Nat) : (g.skip k).name n = g.name (k + n) := by
  simp only [Names.name, Names.skip, Nat.add_assoc]

theorem Names.map_range_add {β : Type} (f : String → β) (g : Names) (k n : Nat) :
    (List.range (k + n)).map (fun m => f (g.name m)) =
      (List.range k).map (fun m => f (g.name m)) ++
        (List.range n).map fun m => f ((g.skip k).name m) := by
  rw [List.range_add, List.map_append, List.map_map]
  congr 1
  exact List.map_congr_left fun m _ => congrArg f (g.name_skip k m).symm

def Names.first (g : Names) (n : Nat) : Set String := {s | ∃ m < n, s = g.name m}

theorem Names.first_mono (g : Names) {m n : Nat} (h : m ≤ n) : g.first m ⊆ g.first n := by
  rintro s ⟨k, hk, rfl⟩
  exact ⟨k, hk.trans_le h, rfl⟩

theorem Names.first_skip (g : Names) (k n : Nat) : (g.skip k).first n ⊆ g.first (k + n) := by
  rintro s ⟨m, hm, rfl⟩
  exact ⟨k + m, Nat.add_lt_add_left hm k, g.name_skip k m⟩

structure Supply extends Names where
  top : Nat

namespace Supply

def skip (k : Nat) (g : Supply) : Supply := { g with toNames := g.toNames.skip k }

theorem name_skip (g : Supply) (k n : Nat) : (g.skip k).name n = g.name (k + n) :=
  g.toNames.name_skip k n

theorem skip_skip (g : Supply) (k l : Nat) : (g.skip k).skip l = g.skip (k + l) := by
  simp only [skip, Names.skip, Nat.add_assoc]

def Room (g : Supply) (k : Nat) : Prop := g.next + k ≤ g.top

theorem Room.anti {g : Supply} {k l : Nat} (h : g.Room l) (hkl : k ≤ l) : g.Room k := by
  unfold Room at *
  omega

theorem room_skip {g : Supply} {k l : Nat} : (g.skip k).Room l ↔ g.Room (k + l) := by
  simp only [Room, skip, Names.skip, Nat.add_assoc]

def known (g : Supply) : Leaves α := {i | ∀ n, g.Room (n + 1) → i ≠ sym (g.name n)}

theorem known_skip (g : Supply) (k : Nat) : (g.known : Leaves α) ⊆ (g.skip k).known := by
  intro i hi n hn
  rw [name_skip]
  exact hi (k + n) (by simpa [room_skip, Nat.add_assoc] using hn)

theorem name_mem_known {g : Supply} {m k : Nat} (h : m < k) :
    (sym (g.name m) : Expr α) ∈ (g.skip k).known := by
  intro n _ hn
  rw [name_skip, sym.injEq] at hn
  have := g.name_injective hn
  omega

open Classical in
noncomputable def assign {β : Type} (g : Supply) (f : String → β) (value : Nat → β) (s : String) :
    β :=
  if h : ∃ n, g.Room (n + 1) ∧ s = g.name n then value h.choose else f s

theorem assign_name {β : Type} (g : Supply) (f : String → β) (value : Nat → β) {n : Nat}
    (hn : g.Room (n + 1)) : g.assign f value (g.name n) = value n := by
  have h : ∃ m, g.Room (m + 1) ∧ g.name n = g.name m := ⟨n, hn, rfl⟩
  rw [assign, dif_pos h, ← g.name_injective h.choose_spec.2]

theorem assign_of_mem_known {β : Type} {g : Supply} {f : String → β} {value : Nat → β} {s : String}
    (h : (sym s : Expr α) ∈ g.known) : g.assign f value s = f s := by
  rw [assign, dif_neg fun ⟨n, hroom, hn⟩ => h n hroom (hn ▸ rfl)]

noncomputable def extend (g : Supply) (ρ : Expr α → α) (value : Nat → α) (i : Expr α) : α :=
  match i with
  | .sym s => g.assign (fun s => ρ (.sym s)) value s
  | i => ρ i

theorem extend_name (g : Supply) (ρ : Expr α → α) (value : Nat → α) {n : Nat}
    (hn : g.Room (n + 1)) : g.extend ρ value (sym (g.name n)) = value n :=
  g.assign_name (fun s => ρ (sym s)) value hn

theorem extend_of_mem_known {g : Supply} {ρ : Expr α → α} {value : Nat → α} {i : Expr α}
    (h : i ∈ g.known) : g.extend ρ value i = ρ i := by
  cases i with
  | sym s => exact assign_of_mem_known (f := fun s => ρ (sym s)) h
  | _ => rfl

end Supply

variable [AlgebraicField α] [Arithmetic α]

/-- An increment of an element is not to read the element. -/
def PureIncrement (a : Assignment α) : Prop :=
  ∀ x, a.lhs = access x → a.increment = true → access x ∉ a.rhs.inputs

omit [AlgebraicField α] [Arithmetic α] in
theorem pureIncrement_of_plain {a : Assignment α} (h : a.increment = false) : PureIncrement a :=
  fun _ _ hinc => absurd (h.symm.trans hinc) Bool.false_ne_true

omit [AlgebraicField α] in
theorem PureIncrement.addition [LawfulBEq (Expr α)] {a : Assignment α} (h : PureIncrement a)
    {x : Access} (hl : a.lhs = access x) (hinc : a.increment = true) : a.addition = a.rhs := by
  have hpure := h x hl hinc
  unfold Assignment.addition
  split
  · rename_i args hrhs
    rw [hrhs] at hpure ⊢
    rw [if_neg]
    rw [List.contains_iff_mem, hl]
    intro hmem
    refine hpure (mem_inputs_args ⟨access x, hmem, ?_⟩)
    simp [inputs_of_isInput, isInput, isAccess]
  · rfl

structure Tidy (g : Supply) (a : Assignment α) : Prop where
  canonical : Canonical a.rhs
  within : Within g.known a.rhs
  target : a.lhs ∈ g.known
  pure : PureIncrement a

section Agree

variable {g : Supply} {ρ ρ' : Expr α → α} {as : List (Assignment α)}

theorem denote_agree (h : ∀ i ∈ g.known, ρ' i = ρ i) {e : Expr α} (he : Within g.known e) :
    denote ρ' e = denote ρ e :=
  denote_congr fun i hi => h i (he.inputs i hi)

theorem Tidy.settled {a : Assignment α} (ha : Tidy g a) (h : ∀ i ∈ g.known, ρ' i = ρ i)
    (hs : Settled ρ a) : Settled ρ' a where
  target := hs.target
  scalar s hl := by
    rw [denote_agree h ha.within, h _ (hl ▸ ha.target)]
    exact hs.scalar s hl

theorem effects_agree (ha : ∀ a ∈ as, Tidy g a) (h : ∀ i ∈ g.known, ρ' i = ρ i) :
    effects ρ' as = effects ρ as := by
  refine List.filterMap_congr fun a hm => ?_
  rw [denote_agree h (ha a hm).within]

omit [AlgebraicField α] in
theorem Tidy.mono {g g' : Supply} (hg : (g.known : Leaves α) ⊆ g'.known) {a : Assignment α}
    (ha : Tidy g a) : Tidy g' a :=
  ⟨ha.canonical, ha.within.mono fun _ _ hi => hg hi, hg ha.target, ha.pure⟩

end Agree

/-- Tidy assignments that have the same effects as others wherever these are executed. -/
structure Refines (g g' : Supply) (as as' : List (Assignment α)) : Prop where
  tidy : ∀ a ∈ as', Tidy g' a
  known : (g.known : Leaves α) ⊆ g'.known
  models : ∀ (clash : Access → Access → Prop) (P : Leaves α) (β : Expr α → α)
    (W : List (Access × Bool × α)), P ⊆ g.known → Models clash P β W as → Models clash P β W as'

theorem Refines.trans {g₁ g₂ g₃ : Supply} {as bs cs : List (Assignment α)}
    (h₁ : Refines g₁ g₂ as bs) (h₂ : Refines g₂ g₃ bs cs) : Refines g₁ g₃ as cs where
  tidy := h₂.tidy
  known := h₁.known.trans h₂.known
  models clash P β W hP h := h₂.models clash P β W (hP.trans h₁.known) (h₁.models clash P β W hP h)

structure Rewrites (f : Assignment α → Assignment α) : Prop where
  lhs : ∀ a, (f a).lhs = a.lhs
  increment : ∀ a, (f a).increment = a.increment
  denote : ∀ (ρ : Expr α → α) a, denote ρ (f a).rhs = Expr.denote ρ a.rhs
  within : ∀ (S : Leaves α) a, Within S a.rhs → Within S (f a).rhs

namespace Rewrites

variable {f : Assignment α → Assignment α} {clash : Access → Access → Prop} {P : Leaves α}
  {as : List (Assignment α)}

theorem afterAll_map (hf : Rewrites f) : afterAll clash P (as.map f) = afterAll clash P as := by
  induction as generalizing P with
  | nil => rfl
  | cons a as ih =>
    rw [List.map_cons, afterAll_cons, afterAll_cons, after_congr (hf.lhs a), ih]

theorem ready_map (hf : Rewrites f) (hu : ∀ a ∈ as, Unary a.rhs) (h : Ready clash P as) :
    Ready clash P (as.map f) := by
  induction as generalizing P with
  | nil => trivial
  | cons a as ih =>
    refine ⟨(hf.within P a ⟨hu a List.mem_cons_self, h.1⟩).inputs, ?_⟩
    rw [after_congr (hf.lhs a)]
    exact ih (fun b hb => hu b (List.mem_cons_of_mem a hb)) h.2

theorem effects_map (hf : Rewrites f) (ρ : Expr α → α) :
    effects ρ (as.map f) = effects ρ as := by
  rw [effects, List.filterMap_map, effects]
  congr 1
  funext a
  simp only [Function.comp_apply, hf.lhs, hf.increment, hf.denote]

theorem settled (hf : Rewrites f) {ρ : Expr α → α} {a : Assignment α} (h : Settled ρ a) :
    Settled ρ (f a) where
  target := by
    rw [hf.lhs]
    exact h.target
  scalar s hs := by
    rw [hf.lhs] at hs
    rw [hf.increment, hf.denote]
    exact h.scalar s hs

theorem models (hf : Rewrites f) {β : Expr α → α} {W : List (Access × Bool × α)}
    (hu : ∀ a ∈ as, Unary a.rhs) (h : Models clash P β W as) :
    Models clash P β W (as.map f) := by
  obtain ⟨ρ, live, dead, rfl, hsplit, hβ, hs, hW⟩ := h.exists_split
  refine ⟨ρ, live.map f, dead.map f, List.map_append, ⟨?_, ?_, ?_⟩, hβ, ?_, ?_⟩
  · exact hf.ready_map (fun a ha => hu a (List.mem_append_left _ ha)) hsplit.ready
  · rw [hf.afterAll_map]
    exact hf.ready_map (fun a ha => hu a (List.mem_append_right _ ha)) hsplit.rest
  · intro a ha
    obtain ⟨b, hb, rfl⟩ := List.mem_map.1 ha
    rw [hf.lhs]
    exact hsplit.scalars b hb
  · intro a ha
    obtain ⟨b, hb, rfl⟩ := List.mem_map.1 ha
    exact hf.settled (hs b hb)
  · rw [hf.effects_map, hW]

end Rewrites

end Stencil
