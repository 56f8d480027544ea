import Stencil.Assignment.Sharing
import Stencil.Proofs.Pass.Refines
import Stencil.Proofs.Table

namespace Stencil

namespace Table

theorem get?_insertIfNew {κ ν : Type} [BEq κ] [EquivBEq κ] (t : Table κ ν) (k k' : κ) (v : ν) :
    (t.insertIfNew k v).get? k' = (t.get? k').or (if k == k' then some v else none) := by
  unfold insertIfNew
  split
  · rename_i h
    by_cases heq : (k == k') = true
    · obtain ⟨w, hw⟩ := Option.isSome_iff_exists.1 h
      rw [← get?_congr t heq, hw]
      rfl
    · simp [heq]
  · rename_i h
    rw [get?_insert]
    split
    · rename_i heq
      rw [← get?_congr t heq, Option.not_isSome_iff_eq_none.1 h]
      rfl
    · simp

end Table

namespace Sharing

open Stencil.Expr Stencil.Flow

variable {α : Type} [Arithmetic α]

def reused (known : Substitution α) (a : Assignment α) : Assignment α :=
  if known.isEmpty then a else a.withRhs (a.rhs.replace known)

def learn (known : Substitution α) (a : Assignment α) : Substitution α :=
  if a.lhs.isSymbol && a.rhs.isOperation then known.insertIfNew a.rhs a.lhs else known

def reuseFrom (known : Substitution α) : List (Assignment α) → List (Assignment α)
  | [] => []
  | a :: as => reused known a :: reuseFrom (learn known (reused known a)) as

def learnAll (known : Substitution α) (as : List (Assignment α)) : Substitution α :=
  as.foldl (fun known a => learn known (reused known a)) known

theorem reuse_eq (as : List (Assignment α)) : reuse as = reuseFrom .empty as := by
  have hloop : ∀ (as out : List (Assignment α)) (known : Substitution α),
      (as.foldl (fun (known, out) a =>
        let a := if known.isEmpty then a else a.withRhs (a.rhs.replace known)
        let known :=
          if a.lhs.isSymbol && a.rhs.isOperation then known.insertIfNew a.rhs a.lhs else known
        (known, out ++ [a])) (known, out)).2 = out ++ reuseFrom known as := by
    intro as
    induction as with
    | nil => exact fun out known => (List.append_nil out).symm
    | cons a as ih =>
      intro out known
      rw [List.foldl_cons, reuseFrom]
      refine (ih (out ++ [reused known a]) (learn known (reused known a))).trans ?_
      rw [List.append_assoc, List.singleton_append]
  exact hloop as [] .empty

theorem reuseFrom_append (known : Substitution α) (as bs : List (Assignment α)) :
    reuseFrom known (as ++ bs) = reuseFrom known as ++ reuseFrom (learnAll known as) bs := by
  induction as generalizing known with
  | nil => rfl
  | cons a as ih => rw [List.cons_append, reuseFrom, reuseFrom, ih, List.cons_append]; rfl

theorem length_reuseFrom (known : Substitution α) (as : List (Assignment α)) :
    (reuseFrom known as).length = as.length := by
  induction as generalizing known with
  | nil => rfl
  | cons a as ih => rw [reuseFrom, List.length_cons, List.length_cons, ih]

theorem learn_eq (known : Substitution α) (a : Assignment α) : learn known a = known ∨
    a.lhs.isSymbol = true ∧ a.rhs.isOperation = true ∧
      learn known a = known.insert a.rhs a.lhs := by
  unfold learn
  split
  · rename_i hif
    obtain ⟨hsym, hop⟩ := Bool.and_eq_true_iff.1 hif
    unfold Table.insertIfNew
    split
    · exact .inl rfl
    · exact .inr ⟨hsym, hop, rfl⟩
  · exact .inl rfl

theorem forall_values_learn {P : Expr α → Prop} {known : Substitution α} {a : Assignment α}
    (hk : ∀ t ∈ known.values, P t) (ha : a.lhs.isSymbol = true → P a.lhs) :
    ∀ t ∈ (learn known a).values, P t := by
  rcases learn_eq known a with heq | ⟨hsym, -, heq⟩
  · rwa [heq]
  · rw [heq]
    intro t ht
    rcases Table.mem_values_insert ht with ht | rfl
    · exact hk t ht
    · exact ha hsym

def Scalars (S : Leaves α) (known : Substitution α) : Prop :=
  ∀ k e, known.get? k = some e → e.isSymbol = true ∧ e ∈ S

theorem Scalars.empty (S : Leaves α) : Scalars S .empty := fun _ _ h => by
  simp [Table.empty, Table.get?, Table.find?] at h

theorem Scalars.mono {S S' : Leaves α} {known : Substitution α} (h : Scalars S known)
    (hS : ∀ s, sym s ∈ S → sym s ∈ S') : Scalars S' known := by
  intro k e he
  obtain ⟨hsym, hmem⟩ := h k e he
  cases e <;> first | exact ⟨rfl, hS _ hmem⟩ | simp [isSymbol] at hsym

theorem reused_lhs (known : Substitution α) (a : Assignment α) : (reused known a).lhs = a.lhs := by
  unfold reused
  split <;> rfl

theorem map_lhs_reuse (as : List (Assignment α)) : (reuse as).map (·.lhs) = as.map (·.lhs) := by
  rw [reuse_eq]
  generalize (.empty : Substitution α) = known
  induction as generalizing known with
  | nil => rfl
  | cons a as ih => rw [reuseFrom, List.map_cons, List.map_cons, reused_lhs, ih]

theorem reused_increment (known : Substitution α) (a : Assignment α) :
    (reused known a).increment = a.increment := by
  unfold reused
  split <;> rfl

theorem Hereditary.reused {P : Expr α → Prop} (hP : Hereditary P) {known : Substitution α}
    (hk : ∀ k e, known.get? k = some e → P e) {a : Assignment α} (ha : P a.rhs) :
    P (reused known a).rhs := by
  unfold Sharing.reused
  split
  · exact ha
  · exact hP.replace ha fun k _ e => hk k e

theorem forall_reuseFrom {P : Expr α → Prop} (hP : Hereditary P) {as : List (Assignment α)}
    (htarget : ∀ a ∈ as, a.lhs.isSymbol = true → P a.lhs) (h : ∀ a ∈ as, P a.rhs)
    {known : Substitution α} (hk : ∀ t ∈ known.values, P t) :
    ∀ a ∈ reuseFrom known as, P a.rhs := by
  induction as generalizing known with
  | nil => exact fun a ha => absurd ha List.not_mem_nil
  | cons a as ih =>
    obtain ⟨ha, has⟩ := List.forall_mem_cons.1 h
    obtain ⟨hta, htas⟩ := List.forall_mem_cons.1 htarget
    have hrhs : P (reused known a).rhs :=
      Hereditary.reused hP (fun k e he => hk e (Table.mem_values_of_get? he)) ha
    refine List.forall_mem_cons.2 ⟨hrhs, ih htas has (forall_values_learn hk ?_)⟩
    rwa [reused_lhs]

theorem Scalars.within {S : Leaves α} {known : Substitution α} (h : Scalars S known)
    (k e : Expr α) (he : known.get? k = some e) : Within S e := by
  obtain ⟨hsym, hmem⟩ := h k e he
  exact within_of_isInput (by simp [isInput, hsym]) hmem

theorem reused_pure {S : Leaves α} {known : Substitution α} (h : Scalars S known)
    {a : Assignment α} (hu : Unary a.rhs) (hp : PureIncrement a) :
    PureIncrement (reused known a) := by
  intro x hl hinc hmem
  rw [reused_lhs] at hl
  rw [reused_increment] at hinc
  have hw : Within {i | i ∈ a.rhs.inputs ∨ i.isSymbol = true} (reused known a).rhs :=
    Hereditary.reused (hereditary_within _)
      (fun k e he => within_of_isInput (by simp [isInput, (h k e he).1]) (.inr (h k e he).1))
      ⟨hu, fun _ hi => .inl hi⟩
  rcases hw.inputs _ hmem with hin | hsym
  · exact hp x hl hinc hin
  · simp [isSymbol] at hsym

variable [LawfulBEq (Expr α)]

theorem learn_cases {known : Substitution α} {a : Assignment α} {k e : Expr α}
    (h : (learn known a).get? k = some e) :
    known.get? k = some e ∨ a.lhs.isSymbol = true ∧ a.rhs = k ∧ a.lhs = e := by
  unfold learn at h
  split at h
  · rename_i hif
    rw [Table.get?_insertIfNew, Option.or_eq_some_iff] at h
    refine h.imp_right fun ⟨_, h⟩ => ⟨(Bool.and_eq_true_iff.1 hif).1, ?_⟩
    split at h
    · rename_i heq
      exact ⟨beq_iff_eq.1 heq, Option.some.inj h⟩
    · simp at h
  · exact .inl h

theorem Scalars.learn {clash : Access → Access → Prop} {P : Leaves α} {known : Substitution α}
    (h : Scalars P known) (a : Assignment α) :
    Scalars (after clash P a) (learn known (reused known a)) := by
  intro k e he
  rcases learn_cases he with he | ⟨hsym, -, rfl⟩
  · exact h.mono (fun s => sym_mem_after) k e he
  · rw [reused_lhs] at hsym ⊢
    refine ⟨hsym, ?_⟩
    cases hl : a.lhs with
    | sym s => exact target_mem_after hl
    | _ => simp [hl, isSymbol] at hsym

theorem Scalars.learnAll {clash : Access → Access → Prop} {P : Leaves α}
    {known : Substitution α} (h : Scalars P known) (as : List (Assignment α)) :
    Scalars (afterAll clash P as) (learnAll known as) := by
  induction as generalizing P known with
  | nil => exact h
  | cons a as ih => exact ih (h.learn a)

theorem reuseFrom_ready {clash : Access → Access → Prop} {P : Leaves α} {known : Substitution α}
    {as : List (Assignment α)} (hk : Scalars P known) (hu : ∀ a ∈ as, Unary a.rhs)
    (hr : Ready clash P as) : Ready clash P (reuseFrom known as) := by
  induction as generalizing P known with
  | nil => trivial
  | cons a as ih =>
    have hw : Within P a.rhs := ⟨hu a List.mem_cons_self, hr.1⟩
    refine ⟨(Hereditary.reused (hereditary_within P) hk.within hw).inputs, ?_⟩
    rw [after_congr (reused_lhs known a)]
    exact ih (hk.learn a) (fun b hb => hu b (List.mem_cons_of_mem a hb)) hr.2

omit [LawfulBEq (Expr α)] in
theorem afterAll_reuseFrom (clash : Access → Access → Prop) (P : Leaves α)
    (known : Substitution α) (as : List (Assignment α)) :
    afterAll clash P (reuseFrom known as) = afterAll clash P as := by
  induction as generalizing P known with
  | nil => rfl
  | cons a as ih =>
    rw [reuseFrom, afterAll_cons, afterAll_cons, after_congr (reused_lhs known a), ih]

omit [LawfulBEq (Expr α)] in
theorem scalars_reuseFrom {known : Substitution α} {as : List (Assignment α)}
    (h : ∀ a ∈ as, a.lhs.isSymbol = true) : ∀ a ∈ reuseFrom known as, a.lhs.isSymbol = true := by
  induction as generalizing known with
  | nil => simp [reuseFrom]
  | cons a as ih =>
    intro b hb
    rcases List.mem_cons.1 hb with rfl | hb
    · exact reused_lhs known a ▸ h a List.mem_cons_self
    · exact ih (fun c hc => h c (List.mem_cons_of_mem a hc)) b hb

theorem reuseFrom_tidy [LawfulLiterals α] {g : Supply} {known : Substitution α}
    {as : List (Assignment α)} (hk : Scalars g.known known) (ht : ∀ a ∈ as, Tidy g a) :
    ∀ a ∈ reuseFrom known as, Tidy g a := by
  induction as generalizing known with
  | nil => simp [reuseFrom]
  | cons a as ih =>
    have ha := ht a List.mem_cons_self
    have hcan : ∀ k e, known.get? k = some e → Canonical e := by
      intro k e he
      obtain ⟨hsym, -⟩ := hk k e he
      cases e <;> first | exact .sym _ | simp [isSymbol] at hsym
    have hknown : Scalars g.known (learn known (reused known a)) := by
      intro k e he
      rcases learn_cases he with he | ⟨hsym, -, rfl⟩
      · exact hk k e he
      · exact ⟨hsym, reused_lhs known a ▸ ha.target⟩
    intro b hb
    rcases List.mem_cons.1 hb with rfl | hb
    · exact ⟨Hereditary.reused hereditary_canonical hcan ha.canonical,
        Hereditary.reused (hereditary_within _) hk.within ha.within,
        reused_lhs known a ▸ ha.target, reused_pure hk ha.within.unary ha.pure⟩
    · exact ih hknown (fun c hc => ht c (List.mem_cons_of_mem a hc)) b hb

section Values

variable [AlgebraicField α] [Exact α] {ρ : Expr α → α}

omit [LawfulBEq (Expr α)] in
theorem denote_reused {known : Substitution α}
    (hk : ∀ k e, known.get? k = some e → denote ρ e = denote ρ k) (a : Assignment α) :
    denote ρ (reused known a).rhs = denote ρ a.rhs := by
  unfold reused
  split
  · rfl
  · exact denote_replace fun k _ e => hk k e

theorem reuseFrom_settled {known : Substitution α} {as : List (Assignment α)}
    (hk : ∀ k e, known.get? k = some e → denote ρ e = denote ρ k)
    (hs : ∀ a ∈ as, Settled ρ a) :
    (∀ a ∈ reuseFrom known as, Settled ρ a) ∧ effects ρ (reuseFrom known as) = effects ρ as := by
  induction as generalizing known with
  | nil => exact ⟨by simp [reuseFrom], rfl⟩
  | cons a as ih =>
    have hval := denote_reused hk a
    have hsa : Settled ρ (reused known a) := by
      refine ⟨reused_lhs known a ▸ (hs a List.mem_cons_self).target, fun s hl => ?_⟩
      rw [reused_lhs] at hl
      rw [reused_increment, hval]
      exact (hs a List.mem_cons_self).scalar s hl
    have hlearn : ∀ k e, (learn known (reused known a)).get? k = some e →
        denote ρ e = denote ρ k := by
      intro k e he
      rcases learn_cases he with he | ⟨hsym, rfl, rfl⟩
      · exact hk k e he
      · cases hl : (reused known a).lhs with
        | sym s => exact (hsa.scalar s hl).2
        | _ => simp [hl, isSymbol] at hsym
    obtain ⟨htail, heff⟩ := ih hlearn fun b hb => hs b (List.mem_cons_of_mem a hb)
    refine ⟨fun b hb => ?_, ?_⟩
    · rcases List.mem_cons.1 hb with rfl | hb
      · exact hsa
      · exact htail b hb
    · unfold effects at heff ⊢
      rw [reuseFrom, List.filterMap_cons, List.filterMap_cons, reused_lhs, reused_increment, hval,
        heff]

end Values

theorem reuse_refines [AlgebraicField α] [Exact α] {g : Supply} {as : List (Assignment α)}
    (ht : ∀ a ∈ as, Tidy g a) : Refines g g as (reuse as) := by
  rw [reuse_eq]
  refine ⟨reuseFrom_tidy (.empty _) ht, subset_rfl, fun clash P β W _ h => ?_⟩
  obtain ⟨ρ, live, dead, rfl, hsplit, hβ, hs, hW⟩ := h.exists_split
  have hempty : ∀ k e, (.empty : Substitution α).get? k = some e → denote ρ e = denote ρ k :=
    fun k e h => by simp [Table.empty, Table.get?, Table.find?] at h
  obtain ⟨hsettled, heffects⟩ := reuseFrom_settled hempty hs
  have hunary : ∀ a ∈ live ++ dead, Unary a.rhs := fun a ha => (ht a ha).within.unary
  refine ⟨ρ, reuseFrom .empty live, reuseFrom (learnAll .empty live) dead,
    reuseFrom_append _ _ _, ⟨?_, ?_, ?_⟩, hβ, hsettled, heffects.trans hW⟩
  · exact reuseFrom_ready (.empty P) (fun a ha => hunary a (List.mem_append_left _ ha)) hsplit.ready
  · rw [afterAll_reuseFrom]
    exact reuseFrom_ready (Scalars.learnAll (.empty P) live)
      (fun a ha => hunary a (List.mem_append_right _ ha)) hsplit.rest
  · exact scalars_reuseFrom hsplit.scalars

end Sharing

end Stencil
