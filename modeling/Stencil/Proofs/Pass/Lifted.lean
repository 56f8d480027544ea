import Stencil.Proofs.Execution.Effects
import Stencil.Proofs.Expr.Insertion
import Stencil.Proofs.Pass.Refines
import Stencil.Proofs.Pass.Storage

namespace Stencil

open Stencil.Expr Exec

def Assignment.Reads {α : Type} (a : Assignment α) (i : Expr α) : Prop :=
  i ∈ a.rhs.inputs ∨ a.increment = true ∧ i ∈ a.lhs.inputs

def Cluster.Reads {α : Type} (c : Cluster α) (i : Expr α) : Prop := ∃ a ∈ c.assignments, a.Reads i

def Cluster.Writes {α : Type} (c : Cluster α) (x : Access) : Prop :=
  ∃ a ∈ c.assignments, a.lhs = access x

namespace Lifting

/-- What is expected of a cluster before scalars are lifted out of it, when `n` names from `g` on
are taken. -/
structure Liftable {α : Type} [Arithmetic α] (g : Names) (n : Nat) (c : Cluster α) : Prop where
  canonical : ∀ a ∈ c.assignments, Canonical a.rhs
  line : StraightLine c.assignments
  /-- No array that is read is written. -/
  readOnly : ∀ a ∈ c.assignments, ∀ b ∈ c.assignments, ∀ x y, a.lhs = access x →
    access y ∈ b.rhs.inputs → x.field.name ≠ y.field.name
  timeFirst : c.space.box.intervals.Pairwise fun i j => j.dim.isTime = true → i.dim.isTime = true
  symbols : ∀ m < n, ∀ a ∈ c.assignments, a.lhs ≠ sym (g.name m) ∧ sym (g.name m) ∉ a.rhs.inputs
  arrays : ∀ m < n, ∀ a ∈ c.assignments, ∀ x, a.lhs = access x ∨ access x ∈ a.rhs.inputs →
    x.field.name ≠ g.name m

variable {α : Type} [Arithmetic α]

def candidate (config : Config) (c : Cluster α) (a : Assignment α) : Bool :=
  isCandidate config (.ofAssignments c.assignments) (.ofAssignments c.assignments) a

def scalars (config : Config) (c : Cluster α) : Handles α :=
  handles (c.assignments.filter (candidate config c))

def lifted (config : Config) (c : Cluster α) : List (AliasGroup α) :=
  (AliasGroups.ofAssignments c.assignments).groups.values.filter fun g =>
    !g.members.all fun m => !(scalars config c).contains m.1

theorem exists_lhs_of_candidate {config : Config} {c : Cluster α} {a : Assignment α}
    (h : candidate config c a = true) : ∃ n, a.lhs = sym n := by
  simp only [candidate, isCandidate, Bool.and_eq_true] at h
  cases hl : a.lhs with
  | sym n => exact ⟨n, rfl⟩
  | _ => simp [hl, isSymbol] at h

omit [Arithmetic α] in
def arrays (s : IterationSpace) : Names → List (AliasGroup α) → List (AliasGroup α × Field)
  | _, [] => []
  | names, g :: gs =>
    (g, .temporary (names.name 0) (halo (storage s g))) :: arrays s (names.skip 1) gs

def table (s : IterationSpace) (hs : Handles α) (xs : List (AliasGroup α × Field))
    (t : Substitution α) : Substitution α :=
  xs.foldl (fun t x => readBack hs x.2 (storage s x.1) x.1 t) t

omit [Arithmetic α] in
theorem names_arrays (s : IterationSpace) (names : Names) (gs : List (AliasGroup α)) :
    (arrays s names gs).map (·.2.name) = (List.range gs.length).map names.name := by
  induction gs generalizing names with
  | nil => rfl
  | cons g gs ih =>
    rw [arrays, List.map_cons, ih, List.length_cons, List.range_succ_eq_map, List.map_cons,
      List.map_map]
    refine congrArg _ (List.map_congr_left fun m _ => ?_)
    simp only [Names.name, Names.skip, Function.comp_apply, Nat.succ_eq_add_one]
    congr 2
    omega

omit [Arithmetic α] in
theorem nodup_names_arrays (s : IterationSpace) (names : Names) (gs : List (AliasGroup α)) :
    ((arrays s names gs).map (·.2.name)).Nodup := by
  rw [names_arrays]
  exact List.nodup_range.map fun _ _ h => names.name_injective h

omit [Arithmetic α] in
theorem name_mem_first {s : IterationSpace} {names : Names} {gs : List (AliasGroup α)}
    {x : AliasGroup α × Field} (hx : x ∈ arrays s names gs) : x.2.name ∈ names.first gs.length := by
  have hname : x.2.name ∈ (arrays s names gs).map (·.2.name) := List.mem_map_of_mem hx
  rw [names_arrays, List.mem_map] at hname
  obtain ⟨m, hm, heq⟩ := hname
  exact ⟨m, List.mem_range.1 hm, heq.symm⟩

omit [Arithmetic α] in
theorem groups_arrays (s : IterationSpace) (names : Names) (gs : List (AliasGroup α)) :
    (arrays s names gs).map (·.1) = gs := by
  induction gs generalizing names with
  | nil => rfl
  | cons g gs ih => rw [arrays, List.map_cons, ih]

variable [LawfulArithmetic α] {hs : Handles α} {f : Field} {b : Box} {g : AliasGroup α}
  {t : Substitution α} {k e : Expr α}

theorem get?_handles (as : List (Assignment α)) (e : Expr α) :
    ((handles as).get? e).getD [] = (as.filter (·.rhs == e)).map (·.lhs) := by
  induction as using List.reverseRecOn with
  | nil => rfl
  | append_singleton as a ih =>
    have hstep : handles (as ++ [a]) = (handles as).update a.rhs [] (· ++ [a.lhs]) := by
      rw [handles, List.foldl_append]
      rfl
    rw [hstep, List.filter_append, List.map_append, ← ih, Table.update, Table.get?_insert]
    by_cases hae : (a.rhs == e) = true
    · simp [hae, Table.get?_congr _ hae]
    · simp [hae]

theorem mem_handles {config : Config} {c : Cluster α} :
    k ∈ ((scalars config c).get? e).getD [] ↔
      ∃ a ∈ c.assignments, candidate config c a = true ∧ (a.rhs == e) = true ∧ a.lhs = k := by
  simp only [scalars, get?_handles, List.mem_map, List.mem_filter, and_assoc]

def Recalls (hs : Handles α) (m : Expr α × Distance) (k : Expr α) : Prop :=
  (m.1 == k) = true ∨ ∃ h ∈ (hs.get? m.1).getD [], (h == k) = true

def Stands (hs : Handles α) (f : Field) (b : Box) (g : AliasGroup α) (k e : Expr α) : Prop :=
  ∃ m ∈ g.members, e = element f b m.2.shift ∧ Recalls hs m k

theorem readBack_eq_some (h : (readBack hs f b g t).get? k = some e) :
    t.get? k = some e ∨ Stands hs f b g k e := by
  let P : Substitution α → Prop := fun t' =>
    t'.get? k = some e → t.get? k = some e ∨ Stands hs f b g k e
  suffices hP : P (readBack hs f b g t) from hP h
  refine List.foldlRecOn (motive := P) _ _ Or.inl fun t₁ ht₁ m hm h => ?_
  rw [Table.get?_insert] at h
  split at h
  · rename_i hk
    exact .inr ⟨m, hm, (Option.some.inj h).symm, .inl hk⟩
  · refine List.foldlRecOn (motive := P) _ _ ht₁ (fun t₂ ht₂ k' hk' h => ?_) h
    rw [Table.get?_insert] at h
    split at h
    · rename_i hk
      exact .inr ⟨m, hm, (Option.some.inj h).symm, .inr ⟨k', hk', hk⟩⟩
    · exact ht₂ h

theorem isSome_insert {t : Substitution α} (k' e' : Expr α)
    (h : (t.get? k).isSome = true ∨ (k' == k) = true) :
    ((t.insert k' e').get? k).isSome = true := by
  rw [Table.get?_insert]
  split
  · rfl
  · rename_i hk
    exact h.resolve_right hk

theorem isSome_foldl_insert {t : Substitution α} (ks : List (Expr α)) (e' : Expr α)
    (h : (t.get? k).isSome = true ∨ ∃ k' ∈ ks, (k' == k) = true) :
    ((ks.foldl (fun t k' => t.insert k' e') t).get? k).isSome = true := by
  induction ks generalizing t with
  | nil => exact h.resolve_right (by simp)
  | cons k' ks ih =>
    refine ih ?_
    rw [List.exists_mem_cons_iff, ← or_assoc] at h
    exact h.imp_left (isSome_insert k' e')

theorem readBack_isSome (h : (t.get? k).isSome = true ∨ ∃ m ∈ g.members, Recalls hs m k) :
    ((readBack hs f b g t).get? k).isSome = true := by
  unfold readBack
  generalize g.members = ms at h ⊢
  induction ms generalizing t with
  | nil => exact h.resolve_right (by simp)
  | cons m ms ih =>
    rw [List.exists_mem_cons_iff, Recalls, or_comm (a := (m.1 == k) = true), ← or_assoc,
      ← or_assoc] at h
    refine ih (h.imp_left fun h => isSome_insert _ _ (h.imp_left fun h => ?_))
    exact isSome_foldl_insert _ _ h

variable {s : IterationSpace} {xs : List (AliasGroup α × Field)} {c : Cluster α}

omit [LawfulArithmetic α] in
theorem forall_values_readBack {P : Expr α → Prop} (hP : ∀ shift, P (element f b shift))
    (ht : ∀ e ∈ t.values, P e) : ∀ e ∈ (readBack hs f b g t).values, P e := by
  have hinsert : ∀ (t : Substitution α) k shift, (∀ e ∈ t.values, P e) →
      ∀ e ∈ (t.insert k (element f b shift)).values, P e := by
    intro t k shift ht e he
    rcases Table.mem_values_insert he with he | rfl
    · exact ht e he
    · exact hP shift
  refine List.foldlRecOn (motive := fun t : Substitution α => ∀ e ∈ t.values, P e) _ _ ht ?_
  intro t₁ ht₁ m _
  apply hinsert
  exact List.foldlRecOn (motive := fun t : Substitution α => ∀ e ∈ t.values, P e) _ _ ht₁
    fun t₂ ht₂ k _ => hinsert t₂ k _ ht₂

omit [LawfulArithmetic α] in
theorem exists_element (h : e ∈ (table s hs xs .empty).values) :
    ∃ x ∈ xs, ∃ shift, e = element x.2 (storage s x.1) shift := by
  refine List.foldlRecOn (motive := fun t : Substitution α => ∀ e ∈ t.values,
    ∃ x ∈ xs, ∃ shift, e = element x.2 (storage s x.1) shift) xs _ ?_ ?_ e h
  · exact fun e he => absurd he List.not_mem_nil
  · exact fun t ht x hx => forall_values_readBack (fun shift => ⟨x, hx, shift, rfl⟩) ht

theorem exists_stands (h : (table s hs xs .empty).get? k = some e) :
    ∃ x ∈ xs, Stands hs x.2 (storage s x.1) x.1 k e := by
  let P : Substitution α → Prop := fun t => t.get? k = some e →
    ∃ x ∈ xs, Stands hs x.2 (storage s x.1) x.1 k e
  suffices hP : P (table s hs xs .empty) from hP h
  refine List.foldlRecOn (motive := P) _ _ ?_ fun t ht x hx h => ?_
  · simp [P, Table.empty, Table.get?, Table.find?]
  · rcases readBack_eq_some h with h | h
    · exact ht h
    · exact ⟨x, hx, h⟩

theorem table_isSome (h : (t.get? k).isSome = true ∨ ∃ x ∈ xs, ∃ m ∈ x.1.members, Recalls hs m k) :
    ((table s hs xs t).get? k).isSome = true := by
  unfold table
  induction xs generalizing t with
  | nil => exact h.resolve_right (by simp)
  | cons x xs ih =>
    rw [List.exists_mem_cons_iff, ← or_assoc] at h
    exact ih (h.imp_left readBack_isSome)

def fills (c : Cluster α) (hs : Handles α) :
    List (AliasGroup α × Field) → Substitution α → List (Cluster α)
  | [], _ => []
  | x :: xs, t =>
    fillCluster c x.2 (storage c.space x.1) (x.1.origin.replace t) ::
      fills c hs xs (readBack hs x.2 (storage c.space x.1) x.1 t)

def composite (c : Cluster α) (hs : Handles α) (xs : List (AliasGroup α × Field))
    (x : AliasGroup α × Field) : Cluster α :=
  fillCluster c x.2 (storage c.space x.1) (x.1.origin.replace (table c.space hs xs .empty))

omit [LawfulArithmetic α] in
theorem mem_fills {w : Cluster α} : w ∈ fills c hs xs .empty ↔
    ∃ ys x zs, xs = ys ++ x :: zs ∧ w = composite c hs ys x := by
  have hall : ∀ t, w ∈ fills c hs xs t ↔ ∃ ys x zs, xs = ys ++ x :: zs ∧
      w = fillCluster c x.2 (storage c.space x.1) (x.1.origin.replace (table c.space hs ys t)) := by
    intro t
    induction xs generalizing t with
    | nil => simp [fills]
    | cons x xs ih =>
      rw [fills, List.mem_cons, ih]
      constructor
      · rintro (rfl | ⟨ys, y, zs, rfl, rfl⟩)
        · exact ⟨[], x, xs, rfl, rfl⟩
        · exact ⟨x :: ys, y, zs, rfl, rfl⟩
      · rintro ⟨_ | ⟨_, ys⟩, y, zs, heq, rfl⟩
        · obtain ⟨rfl, rfl⟩ := List.cons.inj heq
          exact .inl rfl
        · obtain ⟨rfl, rfl⟩ := List.cons.inj heq
          exact .inr ⟨ys, y, zs, rfl, rfl⟩
  exact hall .empty

omit [LawfulArithmetic α] in
theorem map_lhs_fills (c : Cluster α) (hs : Handles α) (xs : List (AliasGroup α × Field))
    (t : Substitution α) : ((fills c hs xs t).flatMap (·.assignments)).map (·.lhs) =
      xs.map fun x => element x.2 (storage c.space x.1) fun _ => 0 := by
  induction xs generalizing t with
  | nil => rfl
  | cons x xs ih =>
    rw [fills, List.flatMap_cons, List.map_append, ih]
    rfl

omit [LawfulArithmetic α] in
theorem writes_composite {x : AliasGroup α × Field} {y : Access} :
    (composite c hs xs x).Writes y ↔
      element x.2 (storage c.space x.1) (fun _ => 0) = (access y : Expr α) := by
  constructor
  · rintro ⟨a, ha, hl⟩
    obtain rfl := List.mem_singleton.1 ha
    exact hl
  · exact fun h => ⟨_, List.mem_singleton_self _, h⟩

theorem exists_element_of_mem_inputs {build : Expr α → List (Expr α) → Expr α} {i : Expr α}
    (hbuild : build = rebuild ∨ build = rebuildRaw)
    (h : i ∈ (replaceBy build (table s hs xs .empty) e).inputs) :
    i ∈ e.inputs ∨
      ∃ x ∈ xs, ∃ m ∈ x.1.members, i = element x.2 (storage s x.1) m.2.shift := by
  have hcases : i ∈ e.inputs ∨ ∃ t, (∃ k, (table s hs xs .empty).get? k = some t) ∧ i ∈ t.inputs := by
    rcases hbuild with rfl | rfl
    · exact (exists_of_mem_inputs_replaceBy mem_inputs_rebuild h).imp And.left
        fun ⟨k, t, hget, hi⟩ => ⟨t, ⟨k, hget⟩, hi⟩
    · exact (exists_of_mem_inputs_replaceBy mem_inputs_rebuildRaw h).imp And.left
        fun ⟨k, t, hget, hi⟩ => ⟨t, ⟨k, hget⟩, hi⟩
  refine hcases.imp_right fun ⟨t, ⟨k, hget⟩, hi⟩ => ?_
  obtain ⟨x, hx, m, hm, rfl, -⟩ := exists_stands hget
  rw [element, inputs_of_isInput rfl, List.mem_singleton] at hi
  exact ⟨x, hx, m, hm, hi⟩

theorem exists_of_reads_composite {x : AliasGroup α × Field} {i : Expr α}
    (h : (composite c hs xs x).Reads i) : i ∈ x.1.origin.inputs ∨
      ∃ y ∈ xs, ∃ m ∈ y.1.members, i = element y.2 (storage c.space y.1) m.2.shift := by
  obtain ⟨a, ha, hreads⟩ := h
  obtain rfl := List.mem_singleton.1 ha
  rcases hreads with hi | ⟨hinc, -⟩
  · exact exists_element_of_mem_inputs (.inl rfl) hi
  · exact absurd hinc Bool.false_ne_true

omit [LawfulArithmetic α] in
theorem run_liftGroup (l : Lifted α) (names : Names) : (liftGroup c hs l g).run names =
      if g.members.all fun m => !hs.contains m.1 then (l, names)
      else
        let x := (g, Field.temporary (names.name 0) (halo (storage c.space g)))
        (⟨readBack hs x.2 (storage c.space g) g l.table,
          l.clusters ++ [fillCluster c x.2 (storage c.space g) (g.origin.replace l.table)]⟩,
          names.skip 1) := by
  unfold liftGroup
  split <;> rfl

omit [LawfulArithmetic α] in
theorem run_foldlM_liftGroup (gs : List (AliasGroup α)) (l : Lifted α) (names : Names) :
    let xs := arrays c.space names (gs.filter fun g => !g.members.all fun m => !hs.contains m.1)
    (gs.foldlM (liftGroup c hs) l).run names =
      (⟨table c.space hs xs l.table, l.clusters ++ fills c hs xs l.table⟩, names.skip xs.length) := by
  induction gs generalizing l names with
  | nil =>
    simp only [List.filter_nil, arrays, fills, List.append_nil, List.foldlM_nil]
    rfl
  | cons g gs ih =>
    rw [List.foldlM_cons, StateT.run_bind, run_liftGroup]
    by_cases hg : (g.members.all fun m => !hs.contains m.1) = true
    · rw [if_pos hg, List.filter_cons_of_neg (by simpa using hg)]
      exact ih l names
    · rw [if_neg hg, List.filter_cons_of_pos (by simpa using hg)]
      let x : AliasGroup α × Field := (g, .temporary (names.name 0) (halo (storage c.space g)))
      refine (ih ⟨readBack hs x.2 (storage c.space g) g l.table, l.clusters ++
        [fillCluster c x.2 (storage c.space g) (g.origin.replace l.table)]⟩ (names.skip 1)).trans ?_
      refine Prod.ext (congrArg (Lifted.mk _) (by rw [arrays, fills]; exact List.append_assoc ..)) ?_
      simp only [arrays, List.length_cons, Names.skip]
      congr 1
      omega

variable {config : Config} {names : Names}

theorem isGroup_of_mem_lifted (hc : ∀ a ∈ c.assignments, Canonical a.rhs)
    (hg : g ∈ lifted config c) : AliasGroups.IsGroup c.assignments g :=
  AliasGroups.isGroup_of_mem_values hc (List.mem_filter.1 hg).1

theorem mem_lifted_of_get? (hc : ∀ a ∈ c.assignments, Canonical a.rhs) {a : Assignment α}
    (ha : a ∈ c.assignments) (hcand : candidate config c a = true)
    (hg : (AliasGroups.ofAssignments c.assignments).get? a.rhs = some g) :
    g ∈ lifted config c ∧
      ∃ m ∈ g.members, (m.1 == a.rhs) = true ∧ a.lhs ∈ ((scalars config c).get? m.1).getD [] := by
  obtain ⟨hvalues, m, hm, heq⟩ := (AliasGroups.get?_eq_some hc).1 hg
  have hmem : a.lhs ∈ ((scalars config c).get? m.1).getD [] :=
    mem_handles.2 ⟨a, ha, hcand, BEq.symm heq, rfl⟩
  refine ⟨List.mem_filter.2 ⟨hvalues, ?_⟩, m, hm, heq, hmem⟩
  simp only [Bool.not_eq_true', List.all_eq_false]
  refine ⟨m, hm, ?_⟩
  cases hget : (scalars config c).get? m.1 with
  | some l => simp [Table.contains, hget]
  | none => simp [hget] at hmem

omit [LawfulArithmetic α] in
theorem exists_group_of_candidate (hI : 1 ≤ config.minInvariant) {a : Assignment α}
    (hcand : candidate config c a = true) :
    ∃ g, (AliasGroups.ofAssignments c.assignments).get? a.rhs = some g := by
  simp only [candidate, isCandidate, Bool.and_eq_true, Bool.or_eq_true, decide_eq_true_eq] at hcand
  cases hget : (AliasGroups.ofAssignments c.assignments).get? a.rhs with
  | some g => exact ⟨g, rfl⟩
  | none =>
    simp only [hget, Option.map_none, Option.getD_none, Nat.mul_zero] at hcand
    omega

theorem exists_lifted (hc : ∀ a ∈ c.assignments, Canonical a.rhs)
    (hI : 1 ≤ config.minInvariant) {a : Assignment α} (ha : a ∈ c.assignments)
    (hcand : candidate config c a = true) :
    ∃ g ∈ lifted config c, ∃ m ∈ g.members, a.lhs ∈ ((scalars config c).get? m.1).getD [] := by
  obtain ⟨g, hg⟩ := exists_group_of_candidate hI hcand
  obtain ⟨hlifted, m, hm, -, hmem⟩ := mem_lifted_of_get? hc ha hcand hg
  exact ⟨g, hlifted, m, hm, hmem⟩

def readings (config : Config) (c : Cluster α) (names : Names) : Substitution α :=
  table c.space (scalars config c) (arrays c.space names (lifted config c)) .empty

theorem isSome_readings {m : Expr α × Distance} (hg : g ∈ lifted config c) (hm : m ∈ g.members)
    (hk : Recalls (scalars config c) m k) : ((readings config c names).get? k).isSome = true := by
  rw [← groups_arrays c.space names (lifted config c)] at hg
  obtain ⟨x, hx, rfl⟩ := List.mem_map.1 hg
  exact table_isSome (.inr ⟨x, hx, m, hm, hk⟩)

theorem isSome_readings_lhs (hc : ∀ a ∈ c.assignments, Canonical a.rhs)
    (hI : 1 ≤ config.minInvariant) {a : Assignment α} (ha : a ∈ c.assignments)
    (hcand : candidate config c a = true) :
    ((readings config c names).get? a.lhs).isSome = true := by
  obtain ⟨g, hg, m, hm, hmem⟩ := exists_lifted hc hI ha hcand
  exact isSome_readings hg hm (.inr ⟨_, hmem, BEq.rfl⟩)

def reader (config : Config) (c : Cluster α) (names : Names) : Cluster α :=
  c.withAssignments ((c.assignments.filter (!candidate config c ·)).map
    (·.replace (readings config c names)))

omit [LawfulArithmetic α] in
theorem run_lift (config : Config) (c : Cluster α) (names : Names) : ((lift config c).run names).1 =
    fills c (scalars config c) (arrays c.space names (lifted config c)) .empty ++
      [reader config c names] := by
  have hrun : ((AliasGroups.ofAssignments c.assignments).groups.values.foldlM
      (liftGroup c (scalars config c)) ⟨.empty, []⟩).run names = _ :=
    run_foldlM_liftGroup _ _ names
  have hlift : ((lift config c).run names).1 =
      let r := ((AliasGroups.ofAssignments c.assignments).groups.values.foldlM
        (liftGroup c (scalars config c)) ⟨.empty, []⟩).run names
      r.1.clusters ++ [c.withAssignments ((c.assignments.filter (!candidate config c ·)).map
        (·.replace r.1.table))] := rfl
  rw [hlift, hrun]
  rfl

def before (config : Config) (c : Cluster α) (names : Names) (x : AliasGroup α × Field) :
    List (AliasGroup α × Field) :=
  (arrays c.space names (lifted config c)).takeWhile (·.2.name != x.2.name)

def fill (config : Config) (c : Cluster α) (names : Names) (x : AliasGroup α × Field) : Cluster α :=
  composite c (scalars config c) (before config c names x) x

def parts (config : Config) (c : Cluster α) (names : Names) : List (Cluster α) :=
  (arrays c.space names (lifted config c)).map (fill config c names) ++ [reader config c names]

omit [LawfulArithmetic α] in
theorem before_eq {x : AliasGroup α × Field} {ys zs : List (AliasGroup α × Field)}
    (h : arrays c.space names (lifted config c) = ys ++ x :: zs) :
    before config c names x = ys := by
  have hnodup := nodup_names_arrays c.space names (lifted config c)
  rw [h, List.map_append, List.map_cons, List.nodup_append] at hnodup
  have hys : ∀ y ∈ ys, (y.2.name != x.2.name) = true := fun y hy =>
    bne_iff_ne.2 (hnodup.2.2 _ (List.mem_map_of_mem hy) _ List.mem_cons_self)
  rw [before, h, List.takeWhile_append_of_pos hys, List.takeWhile_cons_of_neg (by simp),
    List.append_nil]

omit [LawfulArithmetic α] in
theorem run_lift_eq_parts (config : Config) (c : Cluster α) (names : Names) :
    ((lift config c).run names).1 = parts config c names := by
  have hfills : ∀ ys zs, arrays c.space names (lifted config c) = ys ++ zs →
      fills c (scalars config c) zs (table c.space (scalars config c) ys .empty) =
        zs.map (fill config c names) := by
    intro ys zs h
    induction zs generalizing ys with
    | nil => rfl
    | cons x zs ih =>
      have htable := ih (ys ++ [x]) (by rw [h, List.append_assoc, List.singleton_append])
      rw [table, List.foldl_append] at htable
      rw [fills, List.map_cons, fill, composite, before_eq h]
      exact congrArg _ htable
  rw [run_lift, parts]
  exact congrArg (· ++ _) (hfills [] _ rfl)

omit [LawfulArithmetic α] in
theorem names_run_lift (config : Config) (c : Cluster α) (names : Names) :
    ((lift config c).run names).2 = names.skip (lifted config c).length := by
  have hrun : ((AliasGroups.ofAssignments c.assignments).groups.values.foldlM
      (liftGroup c (scalars config c)) ⟨.empty, []⟩).run names = _ :=
    run_foldlM_liftGroup _ _ names
  have hlen := congrArg List.length (groups_arrays c.space names (lifted config c))
  rw [List.length_map] at hlen
  exact (congrArg Prod.snd hrun).trans (congrArg names.skip hlen)

omit [Arithmetic α] [LawfulArithmetic α] in
theorem fst_mem_of_mem_arrays {gs : List (AliasGroup α)} {x : AliasGroup α × Field}
    (hx : x ∈ arrays s names gs) : x.1 ∈ gs := by
  rw [← groups_arrays s names gs]
  exact List.mem_map_of_mem hx

omit [Arithmetic α] [LawfulArithmetic α] in
theorem eq_of_name_eq {gs : List (AliasGroup α)} {x y : AliasGroup α × Field}
    (hx : x ∈ arrays s names gs) (hy : y ∈ arrays s names gs) (h : x.2.name = y.2.name) : x = y :=
  List.inj_on_of_nodup_map (nodup_names_arrays s names gs) hx hy h

theorem exists_of_reads_reader {i : Expr α} (h : (reader config c names).Reads i) :
    (∃ a ∈ c.assignments, i ∈ a.lhs.inputs ∨ i ∈ a.rhs.inputs) ∨
      ∃ y ∈ arrays c.space names (lifted config c), ∃ m ∈ y.1.members,
        i = element y.2 (storage c.space y.1) m.2.shift := by
  obtain ⟨b, hb, hreads⟩ := h
  obtain ⟨a, ha, rfl⟩ := List.mem_map.1 hb
  have ha := List.mem_of_mem_filter ha
  obtain ⟨build, hbuild, heq⟩ := a.exists_build (readings config c names)
  rw [heq] at hreads
  rcases hreads with hi | ⟨-, hi⟩
  · exact (exists_element_of_mem_inputs hbuild hi).imp_left fun hi => ⟨a, ha, .inr hi⟩
  · exact (exists_element_of_mem_inputs hbuild hi).imp_left fun hi => ⟨a, ha, .inl hi⟩

theorem sym_not_mem_origin (hc : ∀ a ∈ c.assignments, Canonical a.rhs) (hg : g ∈ lifted config c)
    {h : Expr α} (hh : h ∈ ((scalars config c).get? e).getD []) (hk : (h == k) = true) :
    k ∉ g.origin.subterms := by
  intro hmem
  obtain ⟨a, ha, hcand, -, rfl⟩ := mem_handles.1 hh
  obtain ⟨n, hl⟩ := exists_lhs_of_candidate hcand
  rw [hl, sym_beq] at hk
  exact (isGroup_of_mem_lifted hc hg).sym_not_mem_origin hc (mem_inputs.2 ⟨hk ▸ hmem, rfl⟩) a ha hl

end Lifting

end Stencil
