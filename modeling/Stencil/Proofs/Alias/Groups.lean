import Stencil.Proofs.Alias.Classes

namespace Stencil

namespace AliasGroups

open Stencil.Expr

variable {α : Type} {d : Dimension} [Arithmetic α] [LawfulArithmetic α] {as : List (Assignment α)}

/-- What is known of a group of right-hand sides. -/
structure IsGroup (as : List (Assignment α)) (g : AliasGroup α) : Prop where
  origin : ∃ a ∈ eligible as, ∃ s, (∀ d, d.isTime = true → s d = 0) ∧ g.origin = a.rhs.displace s
  moved : ∀ m ∈ g.members, (m.1 == g.origin.displace m.2.shift) = true
  time : ∀ m ∈ g.members, ∀ d, d.isTime = true → m.2.shift d = 0
  eligible : ∀ m ∈ g.members, ∃ a ∈ eligible as, a.rhs = m.1
  low : ∀ d, ∃ m ∈ g.members, m.2.shift d ≤ 0
  high : ∀ d, ∃ m ∈ g.members, 0 ≤ m.2.shift d
  nodup : ∀ m ∈ g.members, m.2.keys.Nodup

theorem isGroup_group {key : Expr α} {ms : List (Expr α × Distance)}
    (hc : ∀ a ∈ AliasGroups.eligible as, Canonical a.rhs)
    (hkey : ∃ a ∈ AliasGroups.eligible as, key = atZero a.rhs) (hne : ms ≠ [])
    (hms : ∀ m ∈ ms, Belongs (AliasGroups.eligible as) key m) : IsGroup as (group key ms) := by
  obtain ⟨a, ha, rfl⟩ := hkey
  have hcan : ∀ m ∈ ms, Canonical m.1 := fun m hm => by
    obtain ⟨b, hb, heq⟩ := (hms m hm).eligible
    exact heq ▸ hc b hb
  have htime : ∀ d, d.isTime = true → middle ms d = 0 := fun d hd => middle_of_none hc hms (.inl hd)
  refine
    { origin := ⟨a, ha, Distance.shift ((corner a.rhs).mapValues (- ·)) + middle ms, fun d hd => ?_,
        displace_displace (hc a ha) _ _⟩
      moved := List.forall_mem_map.2 fun m hm => ?_
      time := List.forall_mem_map.2 fun m hm d hd => ?_
      eligible := List.forall_mem_map.2 fun m hm => (hms m hm).eligible
      low := fun d => ?_
      high := fun d => ?_
      nodup := List.forall_mem_map.2 fun m hm => ?_ }
  · rw [Pi.add_apply, shift_neg, shift_of_none (corner_of_time hd _), htime d hd]
    rfl
  · -- From the origin back to the corner zero, and from there to the member.
    have hback : (group (atZero a.rhs) ms).origin.displace
        (Distance.shift ⟨m.2.entries.map fun x => (x.1, x.2 - middle ms x.1)⟩) =
          (atZero a.rhs).displace (corner m.1).shift := by
      refine (displace_displace (canonical_atZero (hc a ha)) _ _).trans (displace_congr fun d _ => ?_)
      rw [Pi.add_apply, shift_of_mem_group hc hms hm]
      exact add_sub_cancel (middle ms d) _
    have hself := displace_beq (canonical_atZero (hcan m hm)) (canonical_atZero (hc a ha))
      (corner m.1).shift
    rw [displace_corner_atZero (hcan m hm), (hms m hm).atZero] at hself
    exact (congrArg (m.1 == ·) hback).trans hself
  · refine (shift_of_mem_group hc hms hm d).trans ?_
    rw [shift_of_none (corner_of_time hd _), htime d hd, Int.sub_zero]
  · obtain ⟨m, hm, hle⟩ := (exists_le_middle hms hne d).1
    refine ⟨_, List.mem_map_of_mem hm, (shift_of_mem_group hc hms hm d).trans_le ?_⟩
    omega
  · obtain ⟨m, hm, hle⟩ := (exists_le_middle hms hne d).2
    refine ⟨_, List.mem_map_of_mem hm, le_of_le_of_eq ?_ (shift_of_mem_group hc hms hm d).symm⟩
    omega
  · rw [Table.keys, List.map_map]
    exact (hms m hm).corner ▸ nodup_keys_corner m.1

namespace IsGroup

variable {g : AliasGroup α} (hg : IsGroup as g)

include hg

theorem canonical (hc : ∀ a ∈ as, Canonical a.rhs) : Canonical g.origin := by
  obtain ⟨a, ha, s, -, hs⟩ := hg.origin
  exact hs ▸ canonical_displace (hc a (mem_eligible.1 ha).1) s

omit [LawfulArithmetic α] in
theorem unary (hu : ∀ a ∈ as, Unary a.rhs) : Unary g.origin := by
  obtain ⟨a, ha, s, -, hs⟩ := hg.origin
  exact hs ▸ unary_displace (hu a (mem_eligible.1 ha).1) s

omit hg [LawfulArithmetic α] [Arithmetic α] in
theorem sym_not_mem_rhs {b : Assignment α} (hb : b ∈ AliasGroups.eligible as) {n : String}
    (h : sym n ∈ b.rhs.inputs) : ∀ a ∈ as, a.lhs ≠ sym n := by
  intro a ha hl
  have hdefined : n ∈ as.filterMap Assignment.target? :=
    List.mem_filterMap.2 ⟨a, ha, by rw [Assignment.target?, hl]; rfl⟩
  have helig := (mem_eligible.1 hb).2
  simp only [isEligible, Bool.and_eq_true, Bool.not_eq_true', List.any_eq_false] at helig
  exact helig.2 n (mem_symbols.2 h) (List.contains_iff_mem.2 hdefined)

omit [LawfulArithmetic α] in
theorem exists_rhs {m : Expr α × Distance} (hm : m ∈ g.members) : ∃ a ∈ as, a.rhs = m.1 := by
  obtain ⟨a, ha, heq⟩ := hg.eligible m hm
  exact ⟨a, (mem_eligible.1 ha).1, heq⟩

omit [LawfulArithmetic α] in
theorem sym_not_mem {m : Expr α × Distance} (hm : m ∈ g.members) {n : String}
    (h : sym n ∈ m.1.inputs) : ∀ a ∈ as, a.lhs ≠ sym n := by
  obtain ⟨b, hb, heq⟩ := hg.eligible m hm
  exact sym_not_mem_rhs hb (heq ▸ h)

theorem sym_not_mem_origin (hc : ∀ a ∈ as, Canonical a.rhs) {n : String}
    (h : sym n ∈ g.origin.inputs) : ∀ a ∈ as, a.lhs ≠ sym n := by
  obtain ⟨b, hb, s, -, hs⟩ := hg.origin
  exact sym_not_mem_rhs hb ((sym_mem_displace (hc b (mem_eligible.1 hb).1)).1 (hs ▸ h))

theorem access_mem_origin (hc : ∀ a ∈ as, Canonical a.rhs) {x : Access}
    (h : access x ∈ g.origin.inputs) : ∃ a ∈ as, ∃ y, access y ∈ a.rhs.inputs ∧ y.field = x.field := by
  obtain ⟨a, ha, s, -, hs⟩ := hg.origin
  obtain ⟨y, hy, rfl⟩ := (access_mem_displace (hc a (mem_eligible.1 ha).1)).1 (hs ▸ h)
  exact ⟨a, (mem_eligible.1 ha).1, y, hy, rfl⟩

theorem exists_access (hc : ∀ a ∈ as, Canonical a.rhs) {m : Expr α × Distance} (hm : m ∈ g.members)
    {x : Access} (hx : access x ∈ g.origin.inputs) :
    ∃ a ∈ as, access (x.displace m.2.shift) ∈ a.rhs.inputs := by
  obtain ⟨a, ha, hrhs⟩ := hg.exists_rhs hm
  refine ⟨a, ha, ?_⟩
  rw [hrhs, inputs_congr (hg.moved m hm), access_mem_displace (hg.canonical hc)]
  exact ⟨x, hx, rfl⟩

omit [LawfulArithmetic α] in
theorem ne_sym {m : Expr α × Distance} (hm : m ∈ g.members) (n : String) : m.1 ≠ sym n := by
  rintro heq
  obtain ⟨b, hb, hrhs⟩ := hg.eligible m hm
  have helig := (mem_eligible.1 hb).2
  rw [isEligible, hrhs, heq] at helig
  simp [accesses, subterms, fold, access?] at helig

end IsGroup

section ofAssignments

def groupsOf (as : List (Assignment α)) : List (AliasGroup α) :=
  (classes as).entries.map fun x => group x.1 x.2

omit [LawfulArithmetic α] in
theorem groups_ofAssignments (as : List (Assignment α)) : (ofAssignments as).groups =
    .ofList ((groupsOf as).map fun g => (g.origin, g)) := by
  rw [ofAssignments, groupsOf, Table.ofList, List.foldl_map, List.foldl_map]
  exact (List.foldl_hom AliasGroups.groups fun _ _ => rfl).symm

omit [LawfulArithmetic α] in
theorem origins_ofAssignments (as : List (Assignment α)) : (ofAssignments as).origins =
    .ofList ((groupsOf as).flatMap fun g => g.members.map fun m => (m.1, g.origin)) := by
  rw [ofAssignments, groupsOf, Table.ofList, List.foldl_flatMap, List.foldl_map]
  refine (List.foldl_hom AliasGroups.origins fun gs x => ?_).symm
  rw [List.foldl_map]

theorem nonempty_of_mem_classes {x : Expr α × List (Expr α × Distance)}
    (hx : x ∈ (classes as).entries) : x.2 ≠ [] := by
  have hclasses := classified_classes as
  obtain ⟨a, ha, hkey⟩ := hclasses.key x.1 (List.mem_map_of_mem hx)
  obtain ⟨ms, hms, m, hm, -⟩ := hclasses.complete a ha
  rw [← hkey, Table.get?_eq_some_of_distinct hclasses.distinct hx BEq.rfl] at hms
  rw [Option.some.inj hms]
  exact List.ne_nil_of_mem hm

variable (hc : ∀ a ∈ as, Canonical a.rhs)

include hc

omit [LawfulArithmetic α] in
theorem canonical_of_eligible {a : Assignment α} (ha : a ∈ eligible as) : Canonical a.rhs :=
  hc a (mem_eligible.1 ha).1

theorem isGroup_of_mem_classes {x : Expr α × List (Expr α × Distance)}
    (hx : x ∈ (classes as).entries) :
    IsGroup as (group x.1 x.2) ∧ atZero (group x.1 x.2).origin = x.1 := by
  have hclasses := classified_classes as
  have hc' : ∀ a ∈ eligible as, Canonical a.rhs := fun a => canonical_of_eligible hc
  have hkey := hclasses.key x.1 (List.mem_map_of_mem hx)
  have hms := hclasses.belongs x.1 x.2 (Table.get?_eq_some_of_distinct hclasses.distinct hx BEq.rfl)
  exact ⟨isGroup_group hc' hkey (nonempty_of_mem_classes hx) hms, atZero_origin hc' hkey hms⟩

theorem isGroup_of_mem_groupsOf {g : AliasGroup α} (hg : g ∈ groupsOf as) : IsGroup as g := by
  obtain ⟨x, hx, rfl⟩ := List.mem_map.1 hg
  exact (isGroup_of_mem_classes hc hx).1

theorem distinct_origins : Table.Distinct ((groupsOf as).map (·.origin)) := by
  have hkeys := (classified_classes as).distinct
  rw [groupsOf, List.map_map]
  refine List.pairwise_map.2 ((List.pairwise_map.1 hkeys).imp_of_mem fun {x y} hx hy hxy => ?_)
  refine Bool.eq_false_iff.2 fun heq => Bool.eq_false_iff.1 hxy ?_
  have hbeq := atZero_beq ((isGroup_of_mem_classes hc hx).1.canonical hc)
    ((isGroup_of_mem_classes hc hy).1.canonical hc) heq
  rwa [(isGroup_of_mem_classes hc hx).2, (isGroup_of_mem_classes hc hy).2] at hbeq

theorem distinct_members :
    Table.Distinct ((groupsOf as).flatMap fun g => g.members.map (·.1)) := by
  have hclasses := classified_classes as
  have hmembers : ((groupsOf as).flatMap fun g => g.members.map (·.1)) =
      (classes as).entries.flatMap fun x => x.2.map (·.1) := by
    rw [groupsOf, List.flatMap_map]
    refine List.flatMap_congr fun x _ => ?_
    rw [group, List.map_map]
    rfl
  have hget : ∀ x ∈ (classes as).entries, (classes as).get? x.1 = some x.2 := fun x hx =>
    Table.get?_eq_some_of_distinct hclasses.distinct hx BEq.rfl
  rw [hmembers, Table.Distinct, List.pairwise_flatMap]
  refine ⟨fun x hx => hclasses.once x.1 x.2 (hget x hx), ?_⟩
  refine (List.pairwise_map.1 hclasses.distinct).imp_of_mem fun {x y} hx hy hxy e he e' he' => ?_
  obtain ⟨m, hm, rfl⟩ := List.mem_map.1 he
  obtain ⟨m', hm', rfl⟩ := List.mem_map.1 he'
  have hbx := hclasses.belongs x.1 x.2 (hget x hx) m hm
  have hby := hclasses.belongs y.1 y.2 (hget y hy) m' hm'
  obtain ⟨a, ha, haeq⟩ := hbx.eligible
  obtain ⟨b, hb, hbeq⟩ := hby.eligible
  refine Bool.eq_false_iff.2 fun heq => Bool.eq_false_iff.1 hxy ?_
  have hzero := atZero_beq (haeq ▸ canonical_of_eligible hc ha) (hbeq ▸ canonical_of_eligible hc hb) heq
  exact BEq.trans (BEq.symm hbx.atZero) (BEq.trans hzero hby.atZero)

theorem entries_groups :
    (ofAssignments as).groups.entries = (groupsOf as).map fun g => (g.origin, g) := by
  rw [groups_ofAssignments, Table.entries_ofList_of_distinct]
  rw [List.map_map]
  exact distinct_origins hc

theorem values_groups : (ofAssignments as).groups.values = groupsOf as := by
  rw [Table.values, entries_groups hc, List.map_map]
  exact List.map_id _

theorem exists_of_atZero {a b : Assignment α} (ha : a ∈ eligible as) (hb : b ∈ eligible as)
    (h : (atZero a.rhs == atZero b.rhs) = true) : ∃ g ∈ (ofAssignments as).groups.values,
      (∃ m ∈ g.members, (m.1 == a.rhs) = true) ∧ ∃ m ∈ g.members, (m.1 == b.rhs) = true := by
  obtain ⟨ms, hget, m, hm, heq⟩ := (classified_classes as).complete a ha
  obtain ⟨ms', hget', m', hm', heq'⟩ := (classified_classes as).complete b hb
  rw [← Table.get?_congr _ h, hget] at hget'
  obtain rfl := Option.some.inj hget'
  obtain ⟨key, hkey, -⟩ := Table.exists_mem_of_get? hget
  rw [values_groups hc]
  exact ⟨_, List.mem_map_of_mem hkey, ⟨_, List.mem_map_of_mem hm, heq⟩, _, List.mem_map_of_mem hm',
    heq'⟩

theorem exists_of_eligible {a : Assignment α} (ha : a ∈ eligible as) :
    ∃ g ∈ (ofAssignments as).groups.values, ∃ m ∈ g.members, (m.1 == a.rhs) = true := by
  obtain ⟨g, hg, hm, -⟩ := exists_of_atZero hc ha ha BEq.rfl
  exact ⟨g, hg, hm⟩

theorem isGroup_of_mem_values {g : AliasGroup α}
    (hg : g ∈ (ofAssignments as).groups.values) : IsGroup as g :=
  isGroup_of_mem_groupsOf hc (values_groups hc ▸ hg)

theorem get?_eq_some {g : AliasGroup α} {e : Expr α} : (ofAssignments as).get? e = some g ↔
    g ∈ (ofAssignments as).groups.values ∧ ∃ m ∈ g.members, (m.1 == e) = true := by
  have hgroup : ∀ g ∈ groupsOf as, (ofAssignments as).groups.get? g.origin = some g := fun g hg => by
    rw [groups_ofAssignments]
    refine (Table.get?_ofList_of_distinct ?_ _ _).2 ⟨_, List.mem_map_of_mem hg, BEq.rfl⟩
    rw [List.map_map]
    exact distinct_origins hc
  have horigin : ∀ o, (ofAssignments as).origins.get? e = some o ↔
      ∃ g ∈ groupsOf as, g.origin = o ∧ ∃ m ∈ g.members, (m.1 == e) = true := fun o => by
    rw [origins_ofAssignments, Table.get?_ofList_of_distinct]
    · simp only [List.mem_flatMap, List.mem_map, Prod.mk.injEq]
      constructor
      · rintro ⟨-, ⟨g, hg, m, hm, rfl, rfl⟩, heq⟩
        exact ⟨g, hg, rfl, m, hm, heq⟩
      · rintro ⟨g, hg, rfl, m, hm, heq⟩
        exact ⟨m.1, ⟨g, hg, m, hm, rfl, rfl⟩, heq⟩
    · rw [List.map_flatMap]
      simp only [List.map_map, Function.comp_def]
      exact distinct_members hc
  rw [AliasGroups.get?, Option.bind_eq_some_iff, values_groups hc]
  constructor
  · rintro ⟨o, ho, hg⟩
    obtain ⟨g', hg', rfl, hm⟩ := (horigin o).1 ho
    rw [hgroup g' hg'] at hg
    exact Option.some.inj hg ▸ ⟨hg', hm⟩
  · rintro ⟨hg, hm⟩
    exact ⟨g.origin, (horigin _).2 ⟨g, hg, rfl, hm⟩, hgroup g hg⟩

end ofAssignments

end AliasGroups

namespace AliasGroup

variable {α : Type} {d : Dimension}

def reach (t : Table Dimension (Int × Int)) (d : Dimension) : Int × Int := (t.get? d).getD (0, 0)

theorem reach_widen (t : Table Dimension (Int × Int)) (x : Dimension × Int) :
    reach (widen t x) d =
      if x.1 = d then (min (reach t d).1 x.2, max (reach t d).2 x.2) else reach t d := by
  simp only [reach, widen, Table.update, Table.get?_insert, beq_iff_eq]
  split
  · rename_i h
    rw [h, Option.getD_some]
  · rfl

theorem diameter_eq (g : AliasGroup α) :
    g.diameter = (g.members.flatMap (·.2.entries)).foldl widen .empty := by
  rw [List.foldl_flatMap]
  rfl

def distances (g : AliasGroup α) (d : Dimension) : Set Int :=
  insert 0 {o | ∃ m ∈ g.members, (d, o) ∈ m.2.entries}

theorem isLeast_diameter (g : AliasGroup α) (d : Dimension) :
    IsLeast (g.distances d) (reach g.diameter d).1 ∧
      IsGreatest (g.distances d) (reach g.diameter d).2 := by
  have hset : g.distances d = insert 0 {o | (d, o) ∈ g.members.flatMap (·.2.entries)} := by
    simp only [distances, List.mem_flatMap]
  rw [hset, diameter_eq]
  induction g.members.flatMap (·.2.entries) using List.reverseRecOn with
  | nil => simp [reach, Table.empty, Table.get?, Table.find?]
  | append_singleton xs x ih =>
    rw [List.foldl_append, List.foldl_cons, List.foldl_nil, reach_widen]
    by_cases hx : x.1 = d
    · have hstep : insert 0 {o | (d, o) ∈ xs ++ [x]} = insert x.2 (insert 0 {o | (d, o) ∈ xs}) := by
        ext o
        simp only [List.mem_append, List.mem_singleton, Set.mem_insert_iff, Set.mem_ofPred_eq,
          Prod.ext_iff, hx, true_and]
        tauto
      rw [if_pos hx, hstep, min_comm, max_comm]
      exact ⟨ih.1.insert x.2, ih.2.insert x.2⟩
    · have hstep : {o | (d, o) ∈ xs ++ [x]} = {o | (d, o) ∈ xs} := by
        ext o
        simp [Prod.ext_iff, Ne.symm hx]
      rwa [if_neg hx, hstep]

theorem shift_mem_diameter {g : AliasGroup α} {m : Expr α × Distance} (hm : m ∈ g.members)
    (d : Dimension) :
    (reach g.diameter d).1 ≤ m.2.shift d ∧ m.2.shift d ≤ (reach g.diameter d).2 := by
  have hmem : m.2.shift d ∈ g.distances d := by
    cases hget : m.2.get? d with
    | none => exact .inl (AliasGroups.shift_of_none hget)
    | some v => exact .inr ⟨m, hm, AliasGroups.shift_of_get? hget ▸ Table.mem_of_get? hget⟩
  exact ⟨(isLeast_diameter g d).1.2 hmem, (isLeast_diameter g d).2.2 hmem⟩

end AliasGroup

end Stencil
