import Stencil.Proofs.Alias.Groups
import Stencil.Proofs.Rational

namespace Stencil

open Stencil.Expr

variable {α : Type} [Arithmetic α]

def Expr.Displaces (e e' : Expr α) : Prop :=
  ∃ s : Shift, (∀ d, d.isTime = true → s d = 0) ∧ (e' == e.displace s) = true

namespace AliasGroup

def Lists (g : AliasGroup α) (e : Expr α) : Prop := ∃ m ∈ g.members, (m.1 == e) = true

omit [Arithmetic α] in
theorem get?_foldl_widen_eq_none {d : Dimension} (xs : List (Dimension × Int)) :
    (xs.foldl widen .empty).get? d = none ↔ ∀ o, (d, o) ∉ xs := by
  induction xs using List.reverseRecOn with
  | nil => simp [Table.empty, Table.get?, Table.find?]
  | append_singleton xs x ih =>
    rw [List.foldl_append, List.foldl_cons, List.foldl_nil, widen, Table.update, Table.get?_insert]
    by_cases hx : x.1 = d
    · simp only [hx, beq_self_eq_true, if_true, reduceCtorEq, false_iff, not_forall, not_not]
      exact ⟨x.2, by simp [← hx]⟩
    · simp [hx, ih, Prod.ext_iff, Ne.symm hx]

omit [Arithmetic α] in
theorem diameter_spec (g : AliasGroup α) (d : Dimension) :
    match g.diameter.get? d with
    | some r => IsLeast (g.distances d) r.1 ∧ IsGreatest (g.distances d) r.2
    | none => ∀ m ∈ g.members, ∀ o, (d, o) ∉ m.2.entries := by
  have hreach := isLeast_diameter g d
  cases hget : g.diameter.get? d with
  | some r => simpa only [reach, hget, Option.getD_some] using hreach
  | none =>
    rw [diameter_eq, get?_foldl_widen_eq_none] at hget
    exact fun m hm o ho => hget o (List.mem_flatMap.2 ⟨m, hm, ho⟩)

end AliasGroup

namespace AliasGroups

variable {as : List (Assignment α)}

/-- Whether the right-hand side of a scalar's definition may be shared with its translates: it reads
an array and none of the scalars that are defined with it. -/
structure Shareable (as : List (Assignment α)) (a : Assignment α) : Prop where
  mem : a ∈ as
  scalar : ∃ n, a.lhs = sym n
  array : ∃ x, access x ∈ a.rhs.inputs
  symbols : ∀ n, sym n ∈ a.rhs.inputs → ∀ b ∈ as, b.lhs ≠ sym n

/-- Groups that take the shareable right-hand sides apart into classes of translates. -/
structure Partitions (as : List (Assignment α)) (gs : AliasGroups α) : Prop where
  sound : ∀ g ∈ gs.groups.values, ∀ m ∈ g.members, ∃ a, Shareable as a ∧ a.rhs = m.1
  once : ∀ a, Shareable as a →
    (gs.groups.values.flatMap fun g => g.members.map (·.1)).count a.rhs = 1
  translation : ∀ a b, Shareable as a → Shareable as b →
    ((∃ g ∈ gs.groups.values, g.Lists a.rhs ∧ g.Lists b.rhs) ↔ a.rhs.Displaces b.rhs)
  found : ∀ e g, gs.get? e = some g ↔ g ∈ gs.groups.values ∧ g.Lists e
  origins : Table.Distinct (gs.groups.values.map (·.origin))
  moved : ∀ g ∈ gs.groups.values, ∀ m ∈ g.members, (m.1 == g.origin.displace m.2.shift) = true
  diameter : ∀ g ∈ gs.groups.values, ∀ d,
    match g.diameter.get? d with
    | some r => IsLeast (g.distances d) r.1 ∧ IsGreatest (g.distances d) r.2
    | none => ∀ m ∈ g.members, ∀ o, (d, o) ∉ m.2.entries

omit [Arithmetic α] in
theorem mem_eligible_iff {a : Assignment α} : a ∈ eligible as ↔ Shareable as a := by
  have hscalar : a.lhs.isSymbol = true ↔ ∃ n, a.lhs = sym n := by
    cases a.lhs <;> simp [isSymbol]
  have harray : (!a.rhs.accesses.isEmpty) = true ↔ ∃ x, access x ∈ a.rhs.inputs := by
    simp only [Bool.not_eq_true', List.isEmpty_eq_false_iff_exists_mem, mem_accesses]
  have hdefined : ∀ n, (as.filterMap Assignment.target?).contains n = true ↔
      ∃ b ∈ as, b.lhs = sym n := fun n => by
    rw [List.contains_iff_mem, List.mem_filterMap]
    refine exists_congr fun b => and_congr_right fun _ => ?_
    rw [Assignment.target?]
    cases b.lhs <;> simp [symbol?]
  have hsymbols : (!a.rhs.symbols.any (as.filterMap Assignment.target?).contains) = true ↔
      ∀ n, sym n ∈ a.rhs.inputs → ∀ b ∈ as, b.lhs ≠ sym n := by
    rw [Bool.not_eq_true', List.any_eq_false]
    refine forall_congr' fun n => ?_
    rw [hdefined, mem_symbols]
    simp only [not_exists, not_and, ne_eq]
  rw [mem_eligible, isEligible, Bool.and_eq_true, Bool.and_eq_true, hscalar, harray, hsymbols]
  exact ⟨fun h => ⟨h.1, h.2.1.1, h.2.1.2, h.2.2⟩, fun h => ⟨h.mem, ⟨h.scalar, h.array⟩, h.symbols⟩⟩

variable [LawfulArithmetic α]

theorem displace_beq_displace {a o : Expr α} (ha : Canonical a) (ho : Canonical o) {s : Shift}
    (h : (a == o.displace s) = true) (t : Shift) : (a.displace t == o.displace (s + t)) = true := by
  rwa [← displace_displace ho, displace_beq ha (canonical_displace ho s)]

theorem displaces_of_lists (hc : ∀ a ∈ as, Canonical a.rhs) {a b : Assignment α}
    (ha : a ∈ eligible as) {g : AliasGroup α} (hg : IsGroup as g) (hla : g.Lists a.rhs)
    (hlb : g.Lists b.rhs) : a.rhs.Displaces b.rhs := by
  obtain ⟨m, hm, hma⟩ := hla
  obtain ⟨m', hm', hmb⟩ := hlb
  -- back from `a` to the origin, and on to `b`
  refine ⟨-m.2.shift + m'.2.shift, fun d hd => ?_, ?_⟩
  · rw [Pi.add_apply, Pi.neg_apply, hg.time m hm d hd, hg.time m' hm' d hd]
    rfl
  · have hmoved := displace_beq_displace (canonical_of_eligible hc ha) (hg.canonical hc)
      (BEq.trans (BEq.symm hma) (hg.moved m hm)) (-m.2.shift + m'.2.shift)
    rw [add_neg_cancel_left] at hmoved
    exact BEq.trans (BEq.trans (BEq.symm hmb) (hg.moved m' hm')) (BEq.symm hmoved)

theorem exists_of_displaces (hc : ∀ a ∈ as, Canonical a.rhs) {a b : Assignment α}
    (ha : a ∈ eligible as) (hb : b ∈ eligible as) (h : a.rhs.Displaces b.rhs) :
    ∃ g ∈ (ofAssignments as).groups.values, g.Lists a.rhs ∧ g.Lists b.rhs := by
  obtain ⟨s, hs, heq⟩ := h
  have hca := canonical_of_eligible hc ha
  have hzero := atZero_beq (canonical_of_eligible hc hb) (canonical_displace hca s) heq
  rw [atZero_displace hca hs] at hzero
  exact exists_of_atZero hc ha hb (BEq.symm hzero)

theorem partitions_ofAssignments (hc : ∀ a ∈ as, Canonical a.rhs) :
    Partitions as (ofAssignments as) where
  sound g hg m hm := by
    obtain ⟨a, ha, heq⟩ := (isGroup_of_mem_values hc hg).eligible m hm
    exact ⟨a, mem_eligible_iff.1 ha, heq⟩
  once a ha := by
    obtain ⟨g, hg, m, hm, heq⟩ := exists_of_eligible hc (mem_eligible_iff.2 ha)
    have hmem : m.1 ∈ (ofAssignments as).groups.values.flatMap fun g => g.members.map (·.1) :=
      List.mem_flatMap.2 ⟨g, hg, List.mem_map_of_mem hm⟩
    have hone : 0 < ((ofAssignments as).groups.values.flatMap
        fun g => g.members.map (·.1)).count a.rhs := List.countP_pos_iff.2 ⟨m.1, hmem, heq⟩
    rw [values_groups hc] at hone ⊢
    have hle := (distinct_members hc).count_le_one a.rhs
    omega
  translation a b ha hb := by
    rw [← mem_eligible_iff] at ha hb
    refine ⟨fun ⟨g, hg, hla, hlb⟩ => ?_, exists_of_displaces hc ha hb⟩
    exact displaces_of_lists hc ha (isGroup_of_mem_values hc hg) hla hlb
  found e g := get?_eq_some hc
  origins := by
    rw [values_groups hc]
    exact distinct_origins hc
  moved g hg := (isGroup_of_mem_values hc hg).moved
  diameter g _ := g.diameter_spec

def neighbours : List (Assignment ℚ) :=
  let near (f : String) (o : Int) : Expr ℚ := access ⟨.input f, [.affine (.space "x") o]⟩
  [{ lhs := sym "p", rhs := sum [near "a" 0, near "b" 1] },
    { lhs := sym "q", rhs := sum [near "a" 0, near "b" 0] },
    { lhs := sym "s", rhs := sum [near "a" (-3), near "b" (-2)] }]

theorem partitions_neighbours : (∀ a ∈ neighbours, Canonical a.rhs) ∧
    Partitions neighbours (ofAssignments neighbours) ∧
      (ofAssignments neighbours).groups.values.map AliasGroup.size = [2, 1] := by
  have hc : ∀ a ∈ neighbours, Canonical a.rhs := by
    simp [neighbours, canonical_sum, Canonical.access]
  exact ⟨hc, partitions_ofAssignments hc, by cbv⟩

end AliasGroups

end Stencil
