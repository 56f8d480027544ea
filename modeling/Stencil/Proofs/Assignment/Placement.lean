import Stencil.Proofs.Assignment.Schedule

namespace Stencil.Schedule

open Stencil.Expr Stencil.Flow

variable {α : Type} {defs exprs before : List (Assignment α)} {a d : Assignment α} {s t : String}
  {q q' : Queue α} {n : Nat}

/-- Definitions of different scalars, none of which is needed for itself. -/
structure Orderable (defs : List (Assignment α)) : Prop where
  scalar : ∀ d ∈ defs, d.lhs.isSymbol = true
  nodup : (defs.map (·.lhs)).Nodup
  acyclic : ∀ d ∈ defs, ∀ s, d.lhs = sym s → ¬ Needed defs [d] s

theorem Needed.mono (h : Needed defs before s) (hsub : before ⊆ exprs) : Needed defs exprs s := by
  induction h with
  | read ha hs ht => exact .read (hsub ha) hs ht
  | through hd hl _ hs ht ih => exact .through hd hl ih hs ht

theorem Needed.trans (hd : d ∈ defs) (hl : d.lhs = sym s) (hs : Needed defs exprs s)
    (h : Needed defs [d] t) : Needed defs exprs t := by
  induction h with
  | read ha ht htemp => exact .through hd hl hs (List.mem_singleton.1 ha ▸ ht) htemp
  | through hd' hl' _ ht htemp ih => exact .through hd' hl' ih ht htemp

theorem not_needed_nil : ¬ Needed defs [] s := by
  intro h
  induction h with
  | read ha => exact absurd ha List.not_mem_nil
  | through _ _ _ _ _ ih => exact ih

theorem needed_append_iff :
    Needed defs (before ++ exprs) s ↔ Needed defs before s ∨ Needed defs exprs s := by
  constructor
  · intro h
    induction h with
    | read ha hs ht =>
      exact (List.mem_append.1 ha).imp (fun ha => .read ha hs ht) fun ha => .read ha hs ht
    | through hd hl _ hs ht ih =>
      exact ih.imp (fun h => .through hd hl h hs ht) fun h => .through hd hl h hs ht
  · rintro (h | h)
    · exact h.mono (List.subset_append_left _ _)
    · exact h.mono (List.subset_append_right _ _)

/-- The recursion of `need` without a bound on its depth: some names one after the other, each
definition that waits after what it needs itself. -/
inductive Supplies : List String → Queue α → Queue α → Prop
  | done {q : Queue α} : Supplies [] q q
  | gone {q q' : Queue α} {name : String} {names : List String} : q.pending.get? name = none →
      Supplies names q q' → Supplies (name :: names) q q'
  | placed {q q₁ q₂ : Queue α} {name : String} {names : List String} {d : Assignment α} :
      q.pending.get? name = some d →
      Supplies ((q.pending.erase name).keys.filter d.rhs.reads)
        { q with pending := q.pending.erase name } q₁ →
      Supplies names { q₁ with placed := q₁.placed ++ [d] } q₂ → Supplies (name :: names) q q₂

/-- Assignments one after the other, each one after the definitions that it needs. -/
inductive Completes : List (Assignment α) → Queue α → Queue α → Prop
  | done {q : Queue α} : Completes [] q q
  | placed {q q₁ q₂ : Queue α} {a : Assignment α} {as : List (Assignment α)} :
      Supplies (q.pending.keys.filter a.rhs.reads) q q₁ →
      Completes as { q₁ with placed := q₁.placed ++ [a] } q₂ → Completes (a :: as) q q₂

theorem Supplies.sublist {names : List String} (h : Supplies names q q') :
    q'.pending.entries.Sublist q.pending.entries := by
  induction h with
  | done => exact .refl _
  | gone _ _ ih => exact ih
  | placed _ _ _ ih₁ ih₂ => exact ih₂.trans (ih₁.trans (Table.drop_sublist _ _))

theorem Supplies.foldl_needName {names : List String}
    (hneed : ∀ (e : Expr α) (q : Queue α), q.pending.size ≤ n →
      Supplies (q.pending.keys.filter e.reads) q (need n e q))
    (h : q.pending.size ≤ n + 1) : Supplies names q (names.foldl (needName n) q) := by
  induction names generalizing q with
  | nil => exact .done
  | cons name names ih =>
    rw [List.foldl_cons, needName]
    cases hget : q.pending.get? name with
    | none => exact .gone hget (ih h)
    | some d =>
      have hdrop := Table.length_drop (Table.mem_of_get? hget)
      have herase : (q.pending.erase name).size ≤ n := by
        simp only [Table.size, Table.erase] at h ⊢
        omega
      have hd := hneed d.rhs { q with pending := q.pending.erase name } herase
      exact .placed hget hd (ih (hd.sublist.length_le.trans (herase.trans (Nat.le_succ n))))

theorem supplies_need (n : Nat) (e : Expr α) (q : Queue α) (h : q.pending.size ≤ n) :
    Supplies (q.pending.keys.filter e.reads) q (need n e q) := by
  induction n generalizing e q with
  | zero =>
    have hempty : q.pending.entries = [] := List.eq_nil_of_length_eq_zero (Nat.le_zero.1 h)
    rw [Table.keys, hempty]
    exact .done
  | succ n ih => exact .foldl_needName ih h

theorem completes_foldl (as : List (Assignment α)) (h : q.pending.size ≤ n) :
    Completes as q (as.foldl (place n) q) := by
  induction as generalizing q with
  | nil => exact .done
  | cons a as ih =>
    have hneed := supplies_need n a.rhs q h
    exact .placed hneed (ih (hneed.sublist.length_le.trans h))

theorem Supplies.mem_or_needed {names : List String} (h : Supplies names q q')
    (hw : Waiting defs q) (hread : ∀ name ∈ names, sym name ∈ a.rhs.inputs)
    {x : String × Assignment α} (hx : x ∈ q.pending.entries) :
    x ∈ q'.pending.entries ∨ Needed defs [a] x.1 := by
  induction h generalizing a with
  | done => exact .inl hx
  | gone _ _ ih => exact ih hw (fun m hm => hread m (List.mem_cons_of_mem _ hm)) hx
  | @placed q q₁ q₂ name names d hget h₁ h₂ ih₁ ih₂ =>
    obtain ⟨hd, hl⟩ := hw.named _ (Table.mem_of_get? hget)
    have hneeded : Needed defs [a] name :=
      .read List.mem_cons_self (hread name List.mem_cons_self) ⟨d, hd, hl⟩
    by_cases hk : x.1 = name
    · exact .inr (hk ▸ hneeded)
    · have hw₁ : Waiting defs { q with pending := q.pending.erase name } :=
        hw.of_sublist (Table.drop_sublist name _)
      rcases ih₁ hw₁ (fun _ => sym_mem_inputs) (Table.mem_drop hx hk) with hx | hx
      · exact ih₂ (hw₁.of_sublist h₁.sublist) (fun m hm => hread m (List.mem_cons_of_mem _ hm)) hx
      · exact .inr (hneeded.trans hd hl hx)

open Classical in
noncomputable def behind (defs : List (Assignment α)) (s : String) : List (Assignment α) :=
  defs.filter fun x => ∃ d ∈ defs, d.lhs = sym s ∧ ∃ t, x.lhs = sym t ∧ Needed defs [d] t

theorem Orderable.eq_of_lhs (h : Orderable defs) {b : Assignment α} (hb : b ∈ defs) (hd : d ∈ defs)
    (hbl : b.lhs = sym s) (hl : d.lhs = sym s) : b = d :=
  List.inj_on_of_nodup_map h.nodup hb hd (hbl.trans hl.symm)

theorem Orderable.mem_behind (h : Orderable defs) (hd : d ∈ defs) (hl : d.lhs = sym s)
    {x : Assignment α} :
    x ∈ behind defs s ↔ x ∈ defs ∧ ∃ t, x.lhs = sym t ∧ Needed defs [d] t := by
  simp only [behind, List.mem_filter, decide_eq_true_eq]
  constructor
  · rintro ⟨hx, b, hb, hbl, hneeded⟩
    exact ⟨hx, h.eq_of_lhs hb hd hbl hl ▸ hneeded⟩
  · rintro ⟨hx, hneeded⟩
    exact ⟨hx, d, hd, hl, hneeded⟩

theorem Orderable.length_behind_lt (h : Orderable defs) (hd : d ∈ defs) (hl : d.lhs = sym s)
    (ht : sym t ∈ d.rhs.inputs) (htemp : Temp defs t) :
    (behind defs t).length < (behind defs s).length := by
  have hneeded : Needed defs [d] t := .read List.mem_cons_self ht htemp
  obtain ⟨b, hb, hbl⟩ := htemp
  have hsub : behind defs t ⊆ behind defs s := by
    intro x hx
    obtain ⟨hx, u, hu, hbu⟩ := (h.mem_behind hb hbl).1 hx
    exact (h.mem_behind hd hl).2 ⟨hx, u, hu, hneeded.trans hb hbl hbu⟩
  have hnot : b ∉ behind defs t := by
    intro hmem
    obtain ⟨-, u, hu, hbu⟩ := (h.mem_behind hb hbl).1 hmem
    exact h.acyclic b hb u hu hbu
  have hnodup : (b :: behind defs t).Nodup :=
    List.nodup_cons.2 ⟨hnot, (List.Nodup.of_map _ h.nodup).filter _⟩
  have hself : b ∈ behind defs s := (h.mem_behind hd hl).2 ⟨hb, t, hbl, hneeded⟩
  exact (hnodup.subperm (List.cons_subset.2 ⟨hself, hsub⟩)).length_le

def known (defs before : List (Assignment α)) : Leaves α :=
  {i | ∀ s, i = sym s → Temp defs s → Needed defs before s}

theorem deep_known (defs before : List (Assignment α)) (e : Expr α) :
    Deep defs (fun _ => known defs []) (known defs before) e where
  temps _ _ _ _ hi s hs ht := absurd (hi s hs ht) not_needed_nil
  others _ _ hi s hs ht := absurd ht (hi s hs)

theorem Orderable.toAcyclic (h : Orderable defs) :
    Acyclic defs (fun _ => known defs []) fun s => (behind defs s).length where
  scalar := h.scalar
  nodup := h.nodup
  deep _ _ _ _ := deep_known defs [] _
  lighter _ hd _ _ hl ht htemp := h.length_behind_lt hd hl ht htemp

theorem Needed.lighter {reach : String → Leaves α} {weight : String → Nat}
    (hp : Acyclic defs reach weight) (hd : d ∈ defs) (hl : d.lhs = sym s)
    (h : Needed defs [d] t) : weight t < weight s := by
  induction h with
  | read ha ht htemp => exact hp.lighter d hd s _ hl (List.mem_singleton.1 ha ▸ ht) htemp
  | through hd' hl' _ ht htemp ih => exact (hp.lighter _ hd' _ _ hl' ht htemp).trans ih

theorem Acyclic.orderable {reach : String → Leaves α} {weight : String → Nat}
    (hp : Acyclic defs reach weight) : Orderable defs :=
  ⟨hp.scalar, hp.nodup, fun _ hd _ hl hs => absurd (hs.lighter hp hd hl) (lt_irrefl _)⟩

structure Owes (defs before : List (Assignment α)) (q : Queue α) : Prop where
  mem : ∀ s d, (s, d) ∈ q.pending.entries ↔ d ∈ defs ∧ d.lhs = sym s ∧ ¬ Needed defs before s
  nodup : q.pending.keys.Nodup

theorem Owes.waiting (hq : Owes defs before q) : Waiting defs q where
  named x hx := ⟨((hq.mem x.1 x.2).1 hx).1, ((hq.mem x.1 x.2).1 hx).2.1⟩
  nodup := hq.nodup

theorem Waiting.nodup_values (hw : Waiting defs q) : q.pending.values.Nodup := by
  have hlhs : q.pending.values.map (·.lhs) = q.pending.keys.map sym := by
    rw [Table.values, Table.keys, List.map_map, List.map_map]
    exact List.map_congr_left fun x hx => (hw.named x hx).2
  exact List.Nodup.of_map (·.lhs) (hlhs ▸ hw.nodup.map fun _ _ => sym.inj)

structure Stretch (α : Type) where
  definitions : List (Assignment α)
  reader : Assignment α

def Stretch.all (x : Stretch α) : List (Assignment α) := x.definitions ++ [x.reader]

/-- Before an assignment come the definitions that it needs and none before it did, each one before
those that read it. -/
structure Fits (defs before : List (Assignment α)) (x : Stretch α) : Prop where
  mem : ∀ d, d ∈ x.definitions ↔
    d ∈ defs ∧ ∃ s, d.lhs = sym s ∧ Needed defs [x.reader] s ∧ ¬ Needed defs before s
  unread : ∀ p d r s, x.definitions = p ++ d :: r → d.lhs = sym s →
    ∀ b ∈ p ++ [d], sym s ∉ b.rhs.inputs

theorem Needed.mem_afterAll (h : Orderable defs) {new : List (Assignment α)}
    (hr : Ready never (known defs before) new) (hnew : ∀ d ∈ new, d ∈ defs)
    (ha : ∀ i ∈ a.rhs.inputs, i ∈ afterAll never (known defs before) new)
    (hs : Needed defs [a] s) : sym s ∈ afterAll never (known defs before) new := by
  induction hs with
  | read hb ht _ => exact ha _ (List.mem_singleton.1 hb ▸ ht)
  | @through d s t hd hl _ ht htemp ih =>
    rcases Flow.mem_afterAll ih with hknown | ⟨b, hb, hbl, -⟩
    · refine sym_mem_afterAll fun u hu _ => ?_
      exact sym.inj hu ▸ .through hd hl (hknown s rfl ⟨d, hd, hl⟩) ht htemp
    · exact hr.sym_mem_afterAll hb (h.eq_of_lhs (hnew b hb) hd hbl hl ▸ ht)

theorem Owes.exists_placed (h : Orderable defs) (hq : Owes defs before q) (hn : q.pending.size ≤ n)
    (e : Expr α) : ∃ new, Placed defs never (known defs before) q (need n e q) new ∧
      ∀ i ∈ e.inputs, i ∈ afterAll never (known defs before) new := by
  obtain ⟨b, hb⟩ := exists_weight_bound defs fun s => (behind defs s).length
  have hcov : Covered defs (fun s => (behind defs s).length) b (known defs before) q := by
    intro d hd s hl _
    by_cases hs : Needed defs before s
    · exact .inr fun u hu _ => sym.inj hu ▸ hs
    · exact .inl ((hq.mem s d).2 ⟨hd, hl, hs⟩)
  exact need_serves h.toAcyclic n e q (known defs before) b hq.waiting hn
    (deep_known defs before e) hcov fun t _ => hb t

theorem Placed.perm_values {clash : Access → Access → Prop} {P : Leaves α} {e : Expr α}
    {new : List (Assignment α)} (hp : Placed defs clash P q (need n e q) new) :
    (new ++ (need n e q).pending.values).Perm q.pending.values := by
  have hperm := need_perm n e q
  rw [Queue.all, Queue.all, hp.placed, List.append_assoc] at hperm
  exact (List.perm_append_left_iff _).1 hperm

theorem Placed.exists_waiting {clash : Access → Access → Prop} {P : Leaves α} {e : Expr α}
    {new : List (Assignment α)} (hp : Placed defs clash P q (need n e q) new) (hd : d ∈ new) :
    ∃ s, (s, d) ∈ q.pending.entries := by
  obtain ⟨x, hx, rfl⟩ := List.mem_map.1 (hp.perm_values.subset (List.mem_append_left _ hd))
  exact ⟨x.1, hx⟩

section Need

variable {new : List (Assignment α)}

theorem Owes.mem_need_iff (h : Orderable defs) (hq : Owes defs before q) (hn : q.pending.size ≤ n)
    (hp : Placed defs never (known defs before) q (need n a.rhs q) new)
    (ha : ∀ i ∈ a.rhs.inputs, i ∈ afterAll never (known defs before) new) :
    (s, d) ∈ (need n a.rhs q).pending.entries ↔
      (s, d) ∈ q.pending.entries ∧ ¬ Needed defs [a] s := by
  constructor
  · intro hmem
    obtain ⟨hd, hl, hs⟩ := (hq.mem s d).1 (hp.pending.subset hmem)
    refine ⟨hp.pending.subset hmem, fun hneeded => ?_⟩
    rcases Flow.mem_afterAll (hneeded.mem_afterAll h hp.ready hp.defs ha) with
      hknown | ⟨c, hc, hcl, -⟩
    · exact hs (hknown s rfl ⟨d, hd, hl⟩)
    · have hnodup := hp.perm_values.nodup_iff.2 hq.waiting.nodup_values
      rw [h.eq_of_lhs (hp.defs c hc) hd hcl hl] at hc
      exact List.disjoint_of_nodup_append hnodup hc (List.mem_map_of_mem hmem)
  · rintro ⟨hmem, hs⟩
    have hsupplies := supplies_need n a.rhs q hn
    exact (hsupplies.mem_or_needed hq.waiting (fun _ => sym_mem_inputs) hmem).resolve_right hs

theorem Owes.unread (h : Orderable defs) (hq : Owes defs before q)
    (hp : Placed defs never (known defs before) q (need n a.rhs q) new) {p r : List (Assignment α)}
    (hsplit : new = p ++ d :: r) (hl : d.lhs = sym s) {b : Assignment α} (hb : b ∈ p ++ [d]) :
    sym s ∉ b.rhs.inputs := by
  intro hread
  have hd : d ∈ new := hsplit ▸ List.mem_append_right _ List.mem_cons_self
  have htemp : Temp defs s := ⟨d, hp.defs d hd, hl⟩
  rcases List.mem_append.1 hb with hb | hb
  · have hready : Ready never (known defs before) p := (ready_append.1 (hsplit ▸ hp.ready)).1
    rcases hready.mem_or_target hb hread with hknown | ⟨c, hc, hcl, -⟩
    · obtain ⟨t, ht⟩ := hp.exists_waiting hd
      obtain ⟨-, hl', hs⟩ := (hq.mem t d).1 ht
      exact hs (sym.inj (hl.symm.trans hl') ▸ hknown s rfl htemp)
    · have hcd : c = d :=
        h.eq_of_lhs (hp.defs c (hsplit ▸ List.mem_append_left _ hc)) (hp.defs d hd) hcl hl
      have hnodup := (List.nodup_append.1 (hp.perm_values.nodup_iff.2 hq.waiting.nodup_values)).1
      rw [hsplit] at hnodup
      exact List.disjoint_of_nodup_append hnodup hc (hcd ▸ List.mem_cons_self)
  · obtain rfl := List.mem_singleton.1 hb
    exact h.acyclic b (hp.defs b hd) s hl (.read List.mem_cons_self hread htemp)

theorem Owes.fits (h : Orderable defs) (hq : Owes defs before q) (hn : q.pending.size ≤ n)
    (hp : Placed defs never (known defs before) q (need n a.rhs q) new)
    (ha : ∀ i ∈ a.rhs.inputs, i ∈ afterAll never (known defs before) new) :
    Fits defs before ⟨new, a⟩ := by
  refine ⟨fun d => ⟨fun hd => ?_, ?_⟩, fun p d r s hsplit hl b hb => hq.unread h hp hsplit hl hb⟩
  · obtain ⟨s, hs⟩ := hp.exists_waiting hd
    obtain ⟨hd', hl, hneeded⟩ := (hq.mem s d).1 hs
    refine ⟨hd', s, hl, by_contra fun hfree => ?_, hneeded⟩
    have hnodup := hp.perm_values.nodup_iff.2 hq.waiting.nodup_values
    exact List.disjoint_of_nodup_append hnodup hd
      (List.mem_map_of_mem ((hq.mem_need_iff h hn hp ha).2 ⟨hs, hfree⟩))
  · rintro ⟨hd, s, hl, hneeded, hs⟩
    rcases hp.kept _ ((hq.mem s d).2 ⟨hd, hl, hs⟩) with hmem | hmem
    · exact absurd hneeded ((hq.mem_need_iff h hn hp ha).1 hmem).2
    · exact hmem

end Need

theorem exists_stretches (exprs : List (Assignment α)) (h : Orderable defs)
    (hn : q.pending.size ≤ n) (hq : Owes defs before q) : ∃ xs : List (Stretch α),
      (exprs.foldl (place n) q).placed = q.placed ++ xs.flatMap Stretch.all ∧
      xs.map (·.reader) = exprs ∧
      (∀ pre x post, xs = pre ++ x :: post → Fits defs (before ++ pre.map (·.reader)) x) ∧
      Owes defs (before ++ exprs) (exprs.foldl (place n) q) ∧
      (exprs.foldl (place n) q).pending.entries.Sublist q.pending.entries := by
  induction exprs generalizing q before with
  | nil => exact ⟨[], by simp, rfl, by simp, by simpa using hq, .refl _⟩
  | cons a as ih =>
    obtain ⟨new, hp, ha⟩ := hq.exists_placed h hn a.rhs
    have hq' : Owes defs (before ++ [a]) (place n q a) := by
      refine ⟨fun s d => ?_, (hq.waiting.of_sublist hp.pending).nodup⟩
      rw [needed_append_iff, not_or, ← and_assoc, ← and_assoc, and_assoc (a := d ∈ defs), ← hq.mem]
      exact hq.mem_need_iff h hn hp ha
    obtain ⟨xs, hplaced, hreaders, hfits, howes, hsub⟩ :=
      ih (q := place n q a) (hp.pending.length_le.trans hn) hq'
    refine ⟨⟨new, a⟩ :: xs, ?_, congrArg _ hreaders, ?_, ?_, hsub.trans hp.pending⟩
    · rw [List.foldl_cons, hplaced, place, hp.placed]
      simp [Stretch.all]
    · intro pre x post hsplit
      cases pre with
      | nil =>
        obtain ⟨rfl, -⟩ := List.cons_eq_cons.1 hsplit
        simpa using hq.fits h hn hp ha
      | cons y pre =>
        obtain ⟨rfl, htail⟩ := List.cons_eq_cons.1 hsplit
        simpa using hfits pre x post htail
    · simpa using howes

theorem flatMap_all_perm (xs : List (Stretch α)) :
    (xs.flatMap Stretch.all).Perm (xs.map (·.reader) ++ xs.flatMap (·.definitions)) := by
  induction xs with
  | nil => exact .refl _
  | cons x xs ih =>
    calc ((x :: xs).flatMap Stretch.all)
      _ = x.definitions ++ x.reader :: xs.flatMap Stretch.all := by simp [Stretch.all]
      List.Perm _ (x.reader :: (x.definitions ++ xs.flatMap Stretch.all)) := List.perm_middle
      List.Perm _ (x.reader ::
          (x.definitions ++ (xs.map (·.reader) ++ xs.flatMap (·.definitions)))) :=
        (ih.append_left _).cons _
      List.Perm _ (x.reader ::
          (xs.map (·.reader) ++ (x.definitions ++ xs.flatMap (·.definitions)))) :=
        List.Perm.cons _ (List.perm_append_comm_assoc ..)

/-- Definitions and assignments in order. The assignments keep theirs, and so do the definitions
that no assignment needs, at the end. -/
structure Arranged (defs exprs : List (Assignment α)) (xs : List (Stretch α))
    (rest : List (Assignment α)) : Prop where
  readers : xs.map (·.reader) = exprs
  definitions : (xs.flatMap (·.definitions) ++ rest).Perm defs
  fits : ∀ pre x post, xs = pre ++ x :: post → Fits defs (pre.map (·.reader)) x
  unread : ∀ pre x post, xs = pre ++ x :: post → ∀ d ∈ x.definitions, ∀ s, d.lhs = sym s →
    ∀ b ∈ pre.flatMap Stretch.all, sym s ∉ b.rhs.inputs
  sublist : rest.Sublist defs
  unneeded : ∀ d ∈ defs, d ∈ rest ↔ ∀ s, d.lhs = sym s → ¬ Needed defs exprs s

theorem unread_of_fits {xs : List (Stretch α)}
    (hfits : ∀ pre x post, xs = pre ++ x :: post → Fits defs (pre.map (·.reader)) x)
    {pre post : List (Stretch α)} {x : Stretch α} (hsplit : xs = pre ++ x :: post)
    (hd : d ∈ x.definitions) (hl : d.lhs = sym s) {b : Assignment α}
    (hb : b ∈ pre.flatMap Stretch.all) : sym s ∉ b.rhs.inputs := by
  intro hread
  obtain ⟨hdef, t, ht, -, hfree⟩ := ((hfits pre x post hsplit).mem d).1 hd
  obtain rfl : s = t := sym.inj (hl.symm.trans ht)
  have htemp : Temp defs s := ⟨d, hdef, hl⟩
  refine hfree ?_
  obtain ⟨y, hy, hb⟩ := List.mem_flatMap.1 hb
  have hreader : [y.reader] ⊆ pre.map (·.reader) :=
    List.cons_subset.2 ⟨List.mem_map_of_mem hy, List.nil_subset _⟩
  rcases List.mem_append.1 hb with hby | hby
  · obtain ⟨l, r, rfl⟩ := List.append_of_mem hy
    obtain ⟨hbdef, u, hu, hneeded, -⟩ :=
      ((hfits l y (r ++ x :: post) (by simpa using hsplit)).mem b).1 hby
    exact .through hbdef hu (hneeded.mono hreader) hread htemp
  · exact .read (hreader List.mem_cons_self) (List.mem_singleton.1 hby ▸ hread) htemp

/-- Scheduling ends, also if definitions lead back to themselves. If they do not, each definition
that an assignment needs comes right before the first such assignment, with nothing but definitions
in between, and before all that read it; the other ones come last. -/
theorem schedule_arranges (defs exprs : List (Assignment α)) :
    (∃ q, Completes exprs (start defs) q ∧ schedule defs exprs = q.placed ++ q.pending.values) ∧
      (Orderable defs → ∃ xs rest, schedule defs exprs = xs.flatMap Stretch.all ++ rest ∧
        Arranged defs exprs xs rest) := by
  refine ⟨⟨_, completes_foldl exprs le_rfl, schedule_eq defs exprs⟩, fun h => ?_⟩
  have hstart : Owes defs [] (start defs) :=
    ⟨fun s d => by simp [mem_start h.toAcyclic, not_needed_nil],
      (waiting_start h.toAcyclic).nodup⟩
  obtain ⟨xs, hplaced, hreaders, hfits, howes, hsub⟩ :=
    exists_stretches exprs h le_rfl hstart
  set q := exprs.foldl (place (start defs).pending.size) (start defs) with hq
  have hschedule : schedule defs exprs = xs.flatMap Stretch.all ++ q.pending.values := by
    rw [schedule_eq, ← hq, hplaced]
    rfl
  have hfits' : ∀ pre x post, xs = pre ++ x :: post → Fits defs (pre.map (·.reader)) x := hfits
  refine ⟨xs, q.pending.values, hschedule, hreaders, ?_, hfits', fun pre x post hsplit d hd s hl b =>
    unread_of_fits hfits' hsplit hd hl, ?_, fun d hd => ⟨fun hmem s hl => ?_, fun hfree => ?_⟩⟩
  · have hperm := schedule_perm h.scalar h.nodup exprs
    rw [hschedule, ← hreaders] at hperm
    have hall := ((flatMap_all_perm xs).append_right q.pending.values).symm.trans hperm
    rw [List.append_assoc] at hall
    exact (List.perm_append_left_iff _).1 hall
  · exact values_start h.scalar h.nodup ▸ List.Sublist.map Prod.snd hsub
  · obtain ⟨x, hx, rfl⟩ := List.mem_map.1 hmem
    obtain ⟨-, hlx, hneeded⟩ := (howes.mem x.1 x.2).1 hx
    exact sym.inj (hlx.symm.trans hl) ▸ hneeded
  · obtain ⟨s, hl⟩ := exists_sym (h.scalar d hd)
    exact List.mem_map.2 ⟨(s, d), (howes.mem s d).2 ⟨hd, hl, hfree s hl⟩, rfl⟩

def layered : List (Assignment ℚ) :=
  [⟨sym "r1", mul [sym "r0", sym "b"], false, false⟩, ⟨sym "r2", sym "b", false, false⟩,
    ⟨sym "r0", add [sym "a", sym "b"], false, false⟩]

def layeredReaders : List (Assignment ℚ) :=
  [⟨sym "p", sym "a", false, false⟩, ⟨sym "q", sym "r1", false, false⟩,
    ⟨sym "v", add [sym "r0", sym "r1"], false, false⟩]

theorem temp_layered (h : Temp layered t) : t ∈ ["r1", "r2", "r0"] := by
  obtain ⟨b, hb, hl⟩ := h
  simp only [layered, List.mem_cons, List.not_mem_nil, or_false] at hb
  rcases hb with rfl | rfl | rfl <;> simp [← sym.inj hl]

theorem schedule_arranges_layered : Orderable layered ∧
    (schedule layered layeredReaders).map Assignment.target? =
      [some "p", some "r0", some "r1", some "q", some "v", some "r2"] ∧
    ∃ xs rest, schedule layered layeredReaders = xs.flatMap Stretch.all ++ rest ∧
      Arranged layered layeredReaders xs rest := by
  have hp : Acyclic layered (fun _ => known layered []) fun s => if s = "r1" then 1 else 0 := by
    refine ⟨by simp [layered, isSymbol], by simp [layered], fun _ _ _ _ => deep_known _ _ _, ?_⟩
    intro d hd s t hl ht htemp
    have hname := temp_layered htemp
    simp only [layered, List.mem_cons, List.not_mem_nil, or_false] at hd
    rcases hd with rfl | rfl | rfl
    · have hread : t = "r0" ∨ t = "b" := by
        simpa using (show sym t ∈ [sym "r0", (sym "b" : Expr ℚ)] from ht)
      obtain rfl := sym.inj hl
      rcases hread with rfl | rfl
      · decide
      · exact absurd hname (by decide)
    · obtain rfl : t = "b" := by simpa using (show sym t ∈ [(sym "b" : Expr ℚ)] from ht)
      exact absurd hname (by decide)
    · have hread : t = "a" ∨ t = "b" := by
        simpa using (show sym t ∈ [sym "a", (sym "b" : Expr ℚ)] from ht)
      rcases hread with rfl | rfl <;> exact absurd hname (by decide)
  exact ⟨hp.orderable, by decide, (schedule_arranges layered layeredReaders).2 hp.orderable⟩

end Stencil.Schedule
