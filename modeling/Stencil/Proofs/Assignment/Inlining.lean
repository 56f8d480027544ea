import Stencil.Proofs.Assignment.Schedule
import Stencil.Proofs.Expr.Abbreviation

namespace Stencil

open Stencil.Expr Stencil.Flow

variable {α : Type}

theorem forall₂_mem_right {β γ : Type} {R : β → γ → Prop} {xs : List β} {ys : List γ}
    (h : List.Forall₂ R xs ys) : ∀ y ∈ ys, ∃ x ∈ xs, R x y := by
  induction h with
  | nil => simp
  | cons hxy _ ih =>
    intro y hy
    rcases List.mem_cons.1 hy with rfl | hy
    · exact ⟨_, List.mem_cons_self, hxy⟩
    · obtain ⟨x, hx, hr⟩ := ih y hy
      exact ⟨x, List.mem_cons_of_mem _ hx, hr⟩

/-- One of the assignments defines `t`; no other one assigns it, and none up to the definition reads
it. -/
def DefinedOnce (as : List (Assignment α)) (t : String) : Prop :=
  ∃ l d r, as = l ++ d :: r ∧ d.lhs = sym t ∧ (∀ a ∈ l ++ r, a.lhs ≠ sym t) ∧
    ∀ a ∈ l ++ [d], sym t ∉ a.rhs.inputs

section Arithmetic

variable [Arithmetic α]

def inline (ds : List (Assignment α)) (e : Expr α) : Expr α :=
  ds.foldr (fun d e => e.replace (.ofList [(d.lhs, d.rhs)])) e

def undo (ds as : List (Assignment α)) : List (Assignment α) :=
  (as.filter fun a => !ds.any fun d => d.lhs == a.lhs).map fun a => a.withRhs (inline ds a.rhs)

/-- Assignments that differ in their right-hand sides only, and there only in what the program
takes for equal. -/
structure Assignment.Equal (a b : Assignment α) : Prop where
  lhs : a.lhs = b.lhs
  increment : a.increment = b.increment
  frozen : a.frozen = b.frozen
  rhs : (a.rhs == b.rhs) = true

theorem get?_single (k v e : Expr α) :
    (.ofList [(k, v)] : Substitution α).get? e = if k == e then some v else none := by
  show Table.find? e [(k, v)] = _
  rw [Table.find?]
  rfl

theorem mem_inputs_replace_single {t : String} {r e i : Expr α}
    (h : i ∈ (replace (.ofList [(sym t, r)]) e).inputs) :
    i ∈ e.inputs ∧ i ≠ sym t ∨ i ∈ r.inputs := by
  rcases exists_of_mem_inputs_replaceBy mem_inputs_rebuild h with ⟨he, hnone⟩ | ⟨k, e', hget, hr⟩
  · refine .inl ⟨he, ?_⟩
    rintro rfl
    rw [get?_single] at hnone
    simp [show ((sym t : Expr α) == sym t) = true from sym_beq.2 rfl] at hnone
  · rw [get?_single] at hget
    split at hget
    · exact .inr (Option.some.inj hget ▸ hr)
    · simp at hget

variable [LawfulArithmetic α]

theorem inline_of_abbreviates {T : String → Option (Expr α)} {P : Leaves α}
    {ds : List (Assignment α)} {x e : Expr α} (hP : ∀ t, sym t ∈ P → T t = none)
    (hready : Ready never P ds)
    (hds : ∀ d ∈ ds, ∃ t k, d.lhs = sym t ∧ T t = some k ∧ Abbreviates T d.rhs k)
    (hx : Abbreviates T x e) (hreads : ∀ i ∈ x.inputs, i ∈ afterAll never P ds) :
    (inline ds x == e) = true := by
  -- Induction from the last definition, after which none reads the name that it defines.
  induction ds using List.reverseRecOn generalizing x with
  | nil =>
    have hself : Abbreviates T x x := .refl hx.canonical fun t ht => hP t (hreads _ ht)
    exact BEq.trans (BEq.symm hself.value) hx.value
  | append_singleton ds d ih =>
    obtain ⟨hready, hd, -⟩ := ready_append.1 hready
    obtain ⟨t, k, hl, hT, hk⟩ := hds d (List.mem_append_right _ List.mem_cons_self)
    rw [inline, List.foldr_append]
    refine ih hready (fun d hd => hds d (List.mem_append_left _ hd)) ?_ ?_
    · refine hx.replace (fun k' _ v hv => ?_) fun _ _ _ => rfl
      rw [hl, get?_single] at hv
      split at hv
      · rename_i heq
        obtain rfl := Option.some.inj hv
        have hexpand : (expand T k' == k) = true := by
          rw [sym_beq.1 heq, expand_sym, hT]
          exact BEq.rfl
        exact hk.congr (BEq.symm hexpand)
      · simp at hv
    · intro i hi
      replace hi : i ∈ (replace (.ofList [(d.lhs, d.rhs)]) x).inputs := hi
      rw [hl] at hi
      rcases mem_inputs_replace_single hi with ⟨hi, hne⟩ | hi
      · have hafter := hreads i hi
        rw [afterAll_append] at hafter
        rcases mem_afterAll hafter with hafter | ⟨b, hb, hbi, -⟩
        · exact hafter
        · obtain rfl := List.mem_singleton.1 hb
          exact absurd (hbi.symm.trans hl) hne
      · exact hd i hi

end Arithmetic

namespace Flow

variable {P : Leaves α} {as bs : List (Assignment α)}

theorem afterAll_never_of_subset {Q : Leaves α} (hQ : P ⊆ Q)
    (h : ∀ a ∈ as, ∀ s, a.lhs = sym s → sym s ∈ Q) : afterAll never P as ⊆ Q := by
  intro i hi
  rcases mem_afterAll hi with hi | ⟨a, ha, hl, hsym⟩
  · exact hQ hi
  · cases i with
    | sym s => exact h a ha s hl
    | _ => simp [isSymbol] at hsym

theorem ready_filter {keep : Assignment α → Bool} (hr : Ready never P as)
    (hdrop : ∀ a ∈ as, keep a = false → ∀ s, a.lhs = sym s → sym s ∈ P) :
    Ready never P (as.filter keep) := by
  induction as generalizing P with
  | nil => trivial
  | cons a as ih =>
    obtain ⟨hdropa, hdrop⟩ := List.forall_mem_cons.1 hdrop
    by_cases ha : keep a = true
    · rw [List.filter_cons_of_pos ha]
      exact ⟨hr.1, ih hr.2 fun b hb hk s hs => mem_after_never (hdrop b hb hk s hs)⟩
    · rw [Bool.not_eq_true] at ha
      rw [List.filter_cons_of_neg (by simp [ha])]
      have hsub : afterAll never P [a] ⊆ P := afterAll_never_of_subset subset_rfl fun b hb s hs =>
        hdropa ha s (List.mem_singleton.1 hb ▸ hs)
      exact ih (hr.2.mono hsub) hdrop

theorem Ready.definedOnce {t : String} (hr : Ready never P as) (hP : sym t ∉ P)
    (hone : (as.filterMap Assignment.target?).count t = 1) : DefinedOnce as t := by
  have htarget : ∀ a : Assignment α, a.lhs = sym t ↔ a.target? = some t := by
    intro a
    rw [Assignment.target?]
    cases a.lhs <;> simp [symbol?]
  obtain ⟨d, hd, hdt⟩ := List.mem_filterMap.1
    (List.count_pos_iff.1 (hone ▸ Nat.one_pos : 0 < (as.filterMap Assignment.target?).count t))
  obtain ⟨l, r, rfl⟩ := List.append_of_mem hd
  have hrest : ∀ a ∈ l ++ r, a.lhs ≠ sym t := by
    intro a ha hl
    have hcount : 0 < ((l ++ r).filterMap Assignment.target?).count t :=
      List.count_pos_iff.2 (List.mem_filterMap.2 ⟨a, ha, (htarget a).1 hl⟩)
    rw [List.filterMap_append, List.filterMap_cons, hdt, List.count_append,
      List.count_cons_self] at hone
    rw [List.filterMap_append, List.count_append] at hcount
    omega
  refine ⟨l, d, r, rfl, (htarget d).2 hdt, hrest, fun a ha hread => ?_⟩
  obtain ⟨l', r', hsplit⟩ := List.append_of_mem ha
  have hinitial : l = l' ++ (a :: r').dropLast := by
    rw [← List.dropLast_append_of_ne_nil (List.cons_ne_nil a r'), ← hsplit, List.dropLast_concat]
  have hready : Ready never P (l ++ [d]) := by
    rw [List.append_cons, ready_append] at hr
    exact hr.1
  rw [hsplit, ready_append] at hready
  rcases mem_afterAll (hready.2.1 _ hread) with hmem | ⟨b, hb, hl, -⟩
  · exact hP hmem
  · refine hrest b (List.mem_append_left _ ?_) hl
    rw [hinitial]
    exact List.mem_append_left _ hb

end Flow

namespace Schedule

variable {defs exprs : List (Assignment α)} {keep : Assignment α → Bool}

def outside (defs : List (Assignment α)) : Leaves α := {i | ∀ t, i = sym t → ¬ Temp defs t}

theorem need_filter (n : Nat) (e : Expr α) {q : Queue α}
    (h : ∀ d ∈ q.pending.values, keep d = false) :
    (need n e q).placed.filter keep = q.placed.filter keep ∧
      ∀ d ∈ (need n e q).pending.values, keep d = false := by
  induction n generalizing e q with
  | zero => exact ⟨rfl, h⟩
  | succ n ih =>
    rw [need_succ]
    generalize q.pending.keys.filter e.reads = names
    induction names generalizing q with
    | nil => exact ⟨rfl, h⟩
    | cons name names ihn =>
      have hname : (needName n q name).placed.filter keep = q.placed.filter keep ∧
          ∀ d ∈ (needName n q name).pending.values, keep d = false := by
        unfold needName
        cases hget : q.pending.get? name with
        | none => exact ⟨rfl, h⟩
        | some d =>
          have hrest : ∀ d ∈ (q.pending.erase name).values, keep d = false := fun d hd =>
            h d (((Table.drop_sublist name _).map _).subset hd)
          obtain ⟨hplaced, hpending⟩ := ih d.rhs
            (q := { q with pending := q.pending.erase name }) hrest
          refine ⟨?_, hpending⟩
          simp only [List.filter_append, List.filter_singleton, h d (Table.mem_values_of_get? hget)]
          rw [hplaced]
          simp
      obtain ⟨hplaced, hpending⟩ := ihn hname.2
      exact ⟨hplaced.trans hname.1, hpending⟩

theorem schedule_filter (hdefs : ∀ d ∈ defs, keep d = false) (hexprs : ∀ a ∈ exprs, keep a = true) :
    (schedule defs exprs).filter keep = exprs := by
  have hloop : ∀ (n : Nat) (as : List (Assignment α)) (q : Queue α),
      (∀ a ∈ as, keep a = true) → (∀ d ∈ q.pending.values, keep d = false) →
      (as.foldl (place n) q).placed.filter keep = q.placed.filter keep ++ as ∧
        ∀ d ∈ (as.foldl (place n) q).pending.values, keep d = false := by
    intro n as
    induction as with
    | nil => exact fun q _ hq => ⟨(List.append_nil _).symm, hq⟩
    | cons a as ih =>
      intro q has hq
      obtain ⟨hplaced, hpending⟩ := need_filter n a.rhs hq
      obtain ⟨hplaced', hpending'⟩ := ih (place n q a)
        (fun b hb => has b (List.mem_cons_of_mem a hb)) hpending
      refine ⟨hplaced'.trans ?_, hpending'⟩
      simp only [place, List.filter_append, hplaced, List.filter_singleton,
        has a List.mem_cons_self, cond_true, List.append_assoc, List.singleton_append]
  have hstart : ∀ d ∈ (start defs).pending.values, keep d = false := by
    intro d hd
    obtain ⟨x, hx, rfl⟩ := Table.mem_values_ofList hd
    obtain ⟨d, hmem, hx⟩ := List.mem_filterMap.1 hx
    obtain ⟨s, -, rfl⟩ := Option.map_eq_some_iff.1 hx
    exact hdefs d hmem
  obtain ⟨hplaced, hpending⟩ := hloop (start defs).pending.size exprs (start defs) hexprs hstart
  rw [schedule_eq, List.filter_append, hplaced, start, List.filter_nil, List.nil_append,
    List.filter_eq_nil_iff.2 fun d hd => by simp [hpending d hd], List.append_nil]

structure Spelled [Arithmetic α] (T : String → Option (Expr α))
    (as exprs defs : List (Assignment α)) : Prop where
  others : ∀ t, ¬ Temp defs t → T t = none
  definition : ∀ d ∈ defs, ∃ t k, d.lhs = sym t ∧ T t = some k ∧ Abbreviates T d.rhs k
  assignments : List.Forall₂ (fun a b => b = a.withRhs b.rhs ∧ Abbreviates T b.rhs a.rhs) as exprs

structure Orderly (defs exprs : List (Assignment α)) (weight : String → Nat) : Prop where
  scalar : ∀ d ∈ defs, d.lhs.isSymbol = true
  nodup : (defs.map (·.lhs)).Nodup
  lighter : ∀ d ∈ defs, ∀ s t, d.lhs = sym s → sym t ∈ d.rhs.inputs → Temp defs t →
    weight t < weight s
  needed : ∀ d ∈ defs, ∀ t, sym t ∈ d.rhs.inputs → Temp defs t → Needed defs exprs t
  targets : ∀ a ∈ exprs, ∀ t, Temp defs t → a.lhs ≠ sym t

variable {weight : String → Nat} (h : Orderly defs exprs weight)

include h

theorem Orderly.perm : (schedule defs exprs).Perm (exprs ++ defs) :=
  schedule_perm h.scalar h.nodup exprs

theorem Orderly.ready : Ready never (outside defs) (schedule defs exprs) := by
  have hp : Acyclic defs (fun _ => outside defs) weight :=
    ⟨h.scalar, h.nodup, fun _ _ _ _ => ⟨fun _ _ _ => subset_rfl, fun _ _ h => h⟩, h.lighter⟩
  have hdeep : ∀ {as : List (Assignment α)} {P : Leaves α}, outside defs ⊆ P →
      DeepReady defs (fun _ => outside defs) never P as := by
    intro as
    induction as with
    | nil => exact fun _ => trivial
    | cons a as ih =>
      exact fun hP => ⟨⟨fun _ _ _ => hP, fun _ _ h => hP h⟩, ih fun i hi => mem_after_never (hP hi)⟩
  have hneeded : ∀ d ∈ defs, ∀ t, sym t ∈ d.rhs.inputs → Temp defs t →
      Needed defs (exprs ++ []) t := by
    rw [List.append_nil]
    exact h.needed
  have hfresh : ∀ t, Temp defs t → sym t ∉ outside defs ∧ ∀ a ∈ exprs ++ [], a.lhs ≠ sym t := by
    intro t ht
    rw [List.append_nil]
    exact ⟨fun hmem => hmem t rfl ht, fun a ha => h.targets a ha t ht⟩
  have hdead : DeepReady defs (fun _ => outside defs) never
      (afterAll never (outside defs) exprs) [] := trivial
  obtain ⟨live, dead, heq, hsplit, -⟩ := schedule_split hp (hdeep (subset_refl (outside defs)))
    hdead (by simp) hneeded (fun _ _ _ hi => mem_afterAll_never hi) hfresh
  rw [List.append_nil] at heq
  rw [heq, ready_append]
  exact ⟨hsplit.ready, hsplit.rest⟩

theorem Orderly.definedOnce {t : String} (ht : Temp defs t) :
    DefinedOnce (schedule defs exprs) t := by
  refine h.ready.definedOnce (fun hmem => hmem t rfl ht) ?_
  have hperm := (h.perm.filterMap Assignment.target?).count_eq t
  have hexprs : (exprs.filterMap Assignment.target?).count t = 0 := by
    rw [List.count_eq_zero, List.mem_filterMap]
    rintro ⟨a, ha, hl⟩
    refine h.targets a ha t ht ?_
    rw [Assignment.target?] at hl
    cases hl' : a.lhs <;> simp_all [symbol?]
  have hdefs : (defs.filterMap Assignment.target?).count t = 1 := by
    have hnodup : (defs.filterMap Assignment.target?).Nodup :=
      .of_map sym (map_sym_targets h.scalar ▸ h.nodup)
    refine List.count_eq_one_of_mem hnodup ?_
    obtain ⟨d, hd, hl⟩ := ht
    exact List.mem_filterMap.2 ⟨d, hd, by simp [Assignment.target?, hl, symbol?]⟩
  rw [hperm, List.filterMap_append, List.count_append, hexprs, hdefs]

theorem Orderly.undo [Arithmetic α] [LawfulArithmetic α] {T : String → Option (Expr α)}
    {as ds : List (Assignment α)} (hs : Spelled T as exprs defs) (hds : ds.Perm defs)
    (hready : Ready never (outside defs) ds) :
    List.Forall₂ Assignment.Equal (undo ds (schedule defs exprs)) as := by
  have hname : ∀ d ∈ ds, ∃ t, d.lhs = sym t ∧ Temp defs t := by
    intro d hd
    have hd := hds.subset hd
    obtain ⟨t, k, hl, -⟩ := hs.definition d hd
    exact ⟨t, hl, d, hd, hl⟩
  have htargets : ∀ a ∈ exprs, (ds.any fun d => d.lhs == a.lhs) = false := by
    intro a ha
    rw [List.any_eq_false]
    intro d hd heq
    obtain ⟨t, hl, ht⟩ := hname d hd
    rw [hl, sym_beq] at heq
    exact h.targets a ha t ht heq
  have hkeep : (schedule defs exprs).filter (fun a => !ds.any fun d => d.lhs == a.lhs) = exprs := by
    refine schedule_filter (fun d hd => ?_) fun a ha => by simp [htargets a ha]
    simp only [Bool.not_eq_false', List.any_eq_true]
    exact ⟨d, hds.symm.subset hd, BEq.rfl⟩
  rw [Stencil.undo, hkeep, List.forall₂_map_left_iff]
  refine hs.assignments.flip.imp fun b a hab => ?_
  obtain ⟨heq, hvalue⟩ := hab
  have hinline : (inline ds b.rhs == a.rhs) = true := by
    refine inline_of_abbreviates (P := outside defs) (fun t ht => hs.others t (ht t rfl)) hready
      (fun d hd => hs.definition d (hds.subset hd)) hvalue fun i _ => ?_
    by_cases ht : ∃ t, i = sym t ∧ Temp defs t
    · obtain ⟨t, rfl, d, hd, hl⟩ := ht
      exact target_mem_afterAll (hds.symm.subset hd) hl
    · exact mem_afterAll_never fun t hit htemp => ht ⟨t, hit, htemp⟩
  exact ⟨by rw [heq]; rfl, by rw [heq]; rfl, by rw [heq]; rfl, hinline⟩

end Schedule

end Stencil
