import Stencil.Proofs.Assignment.Sharing
import Stencil.Proofs.Expr.Load

namespace Stencil.Sharing

open Stencil.Expr

variable {α : Type} [Arithmetic α]

namespace State

def all (s : State α) : List (Assignment α) := s.defs ++ s.assignments

end State

def shorten (t : Substitution α) (a : Assignment α) : Assignment α := a.withRhs (a.rhs.replace t)

structure Choice (s : State α) (keys : List (Expr α)) (most : Nat) : Prop where
  distinct : Table.Distinct keys
  mem : ∀ k ∈ keys, k ∈ s.operations
  twice : ∀ k ∈ keys, 2 ≤ s.operations.count k
  cost : ∀ k ∈ keys, cost true k = most
  pos : 0 < most

omit [Arithmetic α] in
theorem mem_operations {s : State α} {e : Expr α} : e ∈ s.operations ↔
    ∃ a ∈ s.all, e ∈ parts a ∧ e.isOperation = true := by
  simp only [State.operations, State.all, List.mem_flatMap, sharable_eq, List.mem_filter]

theorem Choice.operation {s : State α} {keys : List (Expr α)} {most : Nat} (h : Choice s keys most)
    {k : Expr α} (hk : k ∈ keys) : k.isOperation = true :=
  have ⟨_, _, _, hop⟩ := mem_operations.1 (h.mem k hk)
  hop

theorem Choice.two_mul_sum_le [LawfulLiterals α] {s : State α} {keys : List (Expr α)} {most : Nat}
    (h : Choice s keys most) {m : Expr α → Nat} (hm : ∀ a b, (a == b) = true → m a = m b) :
    2 * (keys.map m).sum ≤ ((s.operations.filter fun k => keys.any (· == k)).map m).sum := by
  refine le_trans ?_ (Table.sum_count_mul_le h.distinct hm)
  rw [← List.sum_map_mul_left]
  exact List.sum_le_sum fun k hk => Nat.mul_le_mul_right _ (h.twice k hk)

theorem State.chosen_sublist (s : State α) :
    s.chosen.Sublist (Table.counts s.operations).keys := by
  unfold chosen repeated Table.keys
  refine (List.filter_sublist.map _).trans ?_
  refine (List.filter_sublist.map _).trans ?_
  rw [List.map_map]
  exact List.filter_sublist.map _

theorem exists_part_of_chosen {s : State α} {k : Expr α} (hk : k ∈ s.chosen) :
    ∃ a ∈ s.all, k ∈ parts a :=
  have ⟨a, ha, hka, _⟩ :=
    mem_operations.1 (Table.mem_of_mem_keys_counts (s.chosen_sublist.subset hk))
  ⟨a, ha, hka⟩

section Chosen

variable [LawfulLiterals α] {s : State α}

theorem mem_repeated {e : Expr α} {c : Nat} : (e, c) ∈ s.repeated ↔
    e ∈ (Table.counts s.operations).keys ∧ 2 ≤ s.operations.count e ∧ c = cost true e ∧
      0 < cost true e := by
  simp only [State.repeated, List.mem_filter, List.mem_map, decide_eq_true_eq]
  constructor
  · rintro ⟨⟨⟨k, n⟩, ⟨hmem, htwo⟩, heq⟩, hpos⟩
    obtain ⟨rfl, rfl⟩ := Prod.mk.inj heq
    rw [Table.count_of_mem_counts hmem] at htwo
    exact ⟨List.mem_map.2 ⟨_, hmem, rfl⟩, htwo, rfl, hpos⟩
  · rintro ⟨hmem, htwo, rfl, hpos⟩
    obtain ⟨⟨k, n⟩, hx, rfl⟩ := List.mem_map.1 hmem
    rw [← Table.count_of_mem_counts hx] at htwo
    exact ⟨⟨(k, n), ⟨hx, htwo⟩, rfl⟩, hpos⟩

theorem choice_chosen (h : s.chosen ≠ []) :
    Choice s s.chosen ((s.repeated.map (·.2)).foldl max 0) := by
  have hchosen : ∀ k ∈ s.chosen, (k, (s.repeated.map (·.2)).foldl max 0) ∈ s.repeated := by
    intro k hk
    obtain ⟨⟨k', c⟩, hx, rfl⟩ := List.mem_map.1 hk
    obtain ⟨hrep, hmost⟩ := List.mem_filter.1 hx
    exact beq_iff_eq.1 hmost ▸ hrep
  have hmem := fun k hk => mem_repeated.1 (hchosen k hk)
  refine ⟨?_, fun k hk => ?_, fun k hk => (hmem k hk).2.1, fun k hk => (hmem k hk).2.2.1.symm, ?_⟩
  · exact List.Pairwise.sublist s.chosen_sublist (Table.distinct_keys_counts s.operations)
  · exact Table.mem_of_mem_keys_counts (hmem k hk).1
  · obtain ⟨k, hk⟩ := List.exists_mem_of_ne_nil _ h
    obtain ⟨-, -, hcost, hpos⟩ := hmem k hk
    omega

end Chosen

theorem count_le_one_of_chosen_eq_nil [LawfulArithmetic α] {s : State α} (h : s.chosen = [])
    {e : Expr α} (hpos : 0 < cost true e) : s.operations.count e ≤ 1 := by
  by_contra htwo
  rw [not_le] at htwo
  have hcount := Table.get?_counts s.operations e
  obtain ⟨n, hn⟩ : ∃ n, (Table.counts s.operations).get? e = some n := by
    cases hget : (Table.counts s.operations).get? e with
    | none =>
      rw [hget, Option.getD_none] at hcount
      omega
    | some n => exact ⟨n, rfl⟩
  obtain ⟨k, hk, heq⟩ := Table.exists_mem_of_get? hn
  rw [hn, Option.getD_some] at hcount
  have hkn := Table.count_of_mem_counts hk
  have hcost : cost true k = cost true e := cost_congr heq
  have hrep : (k, cost true k) ∈ s.repeated :=
    mem_repeated.2 ⟨List.mem_map.2 ⟨_, hk, rfl⟩, by omega, rfl, by omega⟩
  have hmax : ((s.repeated.map (·.2)).foldl max 0) ∈ s.repeated.map (·.2) := by
    refine (foldl_max_mem _ 0).resolve_left fun hzero => ?_
    have hle := (le_foldl_max (s.repeated.map (·.2)) 0).2 _ (List.mem_map_of_mem hrep)
    rw [hzero] at hle
    omega
  obtain ⟨x, hx, hmost⟩ := List.mem_map.1 hmax
  have hchosen : x.1 ∈ s.chosen :=
    List.mem_map_of_mem (List.mem_filter.2 ⟨hx, beq_iff_eq.2 hmost⟩)
  rw [h] at hchosen
  exact absurd hchosen List.not_mem_nil

def labels (fresh : Nat → String) (keys : List (Expr α)) : List (Expr α × Expr α) :=
  keys.zipIdx.map fun x => (x.1, sym (fresh x.2))

omit [Arithmetic α] in
theorem mem_labels {fresh : Nat → String} {keys : List (Expr α)} {k t : Expr α} :
    (k, t) ∈ labels fresh keys ↔ ∃ n, keys[n]? = some k ∧ t = sym (fresh n) := by
  rw [labels, List.mem_map]
  constructor
  · rintro ⟨⟨k', n⟩, hx, heq⟩
    obtain ⟨rfl, rfl⟩ := Prod.mk.inj heq
    exact ⟨n, List.mk_mem_zipIdx_iff_getElem?.1 hx, rfl⟩
  · rintro ⟨n, hn, rfl⟩
    exact ⟨(k, n), List.mk_mem_zipIdx_iff_getElem?.2 hn, rfl⟩

omit [Arithmetic α] in
theorem map_fst_labels (fresh : Nat → String) (keys : List (Expr α)) :
    (labels fresh keys).map (·.1) = keys := by
  rw [labels, List.map_map]
  exact List.zipIdx_map_fst 0 keys

theorem get?_labels [LawfulLiterals α] {fresh : Nat → String} {keys : List (Expr α)}
    (h : Table.Distinct keys) (e t : Expr α) :
    (.ofList (labels fresh keys) : Substitution α).get? e = some t ↔
      ∃ n k, keys[n]? = some k ∧ (k == e) = true ∧ t = sym (fresh n) := by
  rw [Table.get?_ofList_of_distinct (by rwa [map_fst_labels])]
  constructor
  · rintro ⟨k, hk, heq⟩
    obtain ⟨n, hn, rfl⟩ := mem_labels.1 hk
    exact ⟨n, k, hn, heq, rfl⟩
  · rintro ⟨n, k, hn, heq, rfl⟩
    exact ⟨k, mem_labels.2 ⟨n, hn, rfl⟩, heq⟩

namespace State

def spare (fresh : Nat → String) (s : State α) (n : Nat) : String := fresh (s.defs.length + n)

def table (fresh : Nat → String) (s : State α) (keys : List (Expr α)) : Substitution α :=
  .ofList (labels (s.spare fresh) keys)

def advance (fresh : Nat → String) (s : State α) (keys : List (Expr α)) : State α where
  defs := s.defs.map (shorten (s.table fresh keys)) ++
    (labels (s.spare fresh) keys).map fun x => { lhs := x.2, rhs := x.1 }
  assignments := s.assignments.map (shorten (s.table fresh keys))

theorem round?_eq_none {fresh : Nat → String} {s : State α} :
    s.round? fresh = none ↔ s.chosen = [] := by
  unfold round?
  split
  · rename_i h
    simp [h]
  · rename_i h
    simp only [reduceCtorEq, false_iff]
    exact h

theorem round?_eq_some {fresh : Nat → String} {s s' : State α} :
    s.round? fresh = some s' ↔ s.chosen ≠ [] ∧ s' = s.advance fresh s.chosen := by
  unfold round?
  split
  · rename_i h
    simp [h]
  · rename_i h
    rw [Option.some.injEq]
    constructor
    · rintro rfl
      exact ⟨h, rfl⟩
    · rintro ⟨-, rfl⟩
      rfl

theorem isSome_get?_table [LawfulLiterals α] (fresh : Nat → String) (s : State α)
    {keys : List (Expr α)} (h : Table.Distinct keys) (e : Expr α) :
    ((s.table fresh keys).get? e).isSome = keys.any (· == e) := by
  rw [Bool.eq_iff_iff, Option.isSome_iff_exists, List.any_eq_true]
  constructor
  · rintro ⟨t, ht⟩
    obtain ⟨n, k, hn, heq, -⟩ := (get?_labels h e t).1 ht
    exact ⟨k, List.mem_of_getElem? hn, heq⟩
  · rintro ⟨k, hk, heq⟩
    obtain ⟨n, hn⟩ := List.mem_iff_getElem?.1 hk
    exact ⟨_, (get?_labels h e _).2 ⟨n, k, hn, heq, rfl⟩⟩

theorem get?_table [LawfulArithmetic α] {fresh : Nat → String} {s : State α} {keys : List (Expr α)}
    {most : Nat} (h : Choice s keys most) {e t : Expr α}
    (ht : (s.table fresh keys).get? e = some t) :
    t.isLeaf = true ∧ e.isOperation = true ∧ Expr.cost true e = most := by
  obtain ⟨n, k, hn, heq, rfl⟩ := (get?_labels h.distinct e t).1 ht
  have hk := List.mem_of_getElem? hn
  have hr := rank_eq_of_beq heq
  have hop := h.operation hk
  refine ⟨rfl, ?_, (cost_congr heq).symm.trans (h.cost k hk)⟩
  cases k <;> cases e <;> simp_all [rank, isOperation, isLeaf]

theorem mem_defs_advance {fresh : Nat → String} {s : State α} {keys : List (Expr α)}
    {d : Assignment α} : d ∈ (s.advance fresh keys).defs ↔
      (∃ b ∈ s.defs, d = shorten (s.table fresh keys) b) ∨
        ∃ n k, keys[n]? = some k ∧ d = { lhs := sym (s.spare fresh n), rhs := k } := by
  have hlabels : d ∈ (labels (s.spare fresh) keys).map
      (fun x => ({ lhs := x.2, rhs := x.1 } : Assignment α)) ↔
        ∃ n k, keys[n]? = some k ∧ d = { lhs := sym (s.spare fresh n), rhs := k } := by
    rw [List.mem_map]
    constructor
    · rintro ⟨⟨k, t⟩, hx, rfl⟩
      obtain ⟨n, hn, rfl⟩ := mem_labels.1 hx
      exact ⟨n, k, hn, rfl⟩
    · rintro ⟨n, k, hn, rfl⟩
      exact ⟨(k, _), mem_labels.2 ⟨n, hn, rfl⟩, rfl⟩
  rw [advance, List.mem_append, hlabels, List.mem_map]
  simp only [eq_comm (b := d)]

theorem mem_all_advance {fresh : Nat → String} {s : State α} {keys : List (Expr α)}
    {a : Assignment α} : a ∈ (s.advance fresh keys).all ↔
      (∃ b ∈ s.all, a = shorten (s.table fresh keys) b) ∨
        ∃ n k, keys[n]? = some k ∧ a = { lhs := sym (s.spare fresh n), rhs := k } := by
  rw [all, List.mem_append, mem_defs_advance, all]
  simp only [advance, List.mem_map, List.mem_append, eq_comm (b := a)]
  constructor
  · rintro ((⟨b, hb, h⟩ | ha) | ⟨b, hb, h⟩)
    · exact .inl ⟨b, .inl hb, h⟩
    · exact .inr ha
    · exact .inl ⟨b, .inr hb, h⟩
  · rintro (⟨b, hb | hb, h⟩ | ha)
    · exact .inl (.inl ⟨b, hb, h⟩)
    · exact .inr ⟨b, hb, h⟩
    · exact .inl (.inr ha)

theorem values_table {fresh : Nat → String} {s : State α} {keys : List (Expr α)} {t : Expr α}
    (ht : t ∈ (s.table fresh keys).values) : ∃ n < keys.length, t = sym (s.spare fresh n) := by
  obtain ⟨⟨k, t'⟩, hx, rfl⟩ := Table.mem_values_ofList ht
  obtain ⟨n, hn, rfl⟩ := mem_labels.1 hx
  exact ⟨n, (List.getElem?_eq_some_iff.1 hn).1, rfl⟩

theorem forall_advance {fresh : Nat → String} {s : State α} {keys : List (Expr α)}
    {P : Expr α → Prop} (hP : Hereditary P) (hsym : ∀ t, P (sym t))
    (hkeys : ∀ k ∈ keys, ∃ a ∈ s.all, k ∈ parts a) (h : ∀ a ∈ s.all, P a.rhs) :
    ∀ a ∈ (s.advance fresh keys).all, P a.rhs := by
  intro a ha
  rcases mem_all_advance.1 ha with ⟨b, hb, rfl⟩ | ⟨n, k, hn, rfl⟩
  · refine hP.replace (h b hb) fun k _ t ht => ?_
    obtain ⟨n, -, rfl⟩ := values_table (Table.mem_values_of_get? ht)
    exact hsym _
  · obtain ⟨b, hb, hkb⟩ := hkeys k (List.mem_of_getElem? hn)
    exact hP.subterms (h b hb) k (mem_subterms_of_parts hkb)

theorem length_defs_advance {fresh : Nat → String} {s : State α} {keys : List (Expr α)} :
    (s.advance fresh keys).defs.length = s.defs.length + keys.length := by
  simp [advance, labels]

theorem map_lhs_advance {fresh : Nat → String} {s : State α} {keys : List (Expr α)}
    (h : s.defs.map (·.lhs) = (List.range s.defs.length).map fun n => sym (fresh n)) :
    (s.advance fresh keys).defs.map (·.lhs) =
      (List.range (s.advance fresh keys).defs.length).map fun n => sym (fresh n) := by
  have hnew : (labels (s.spare fresh) keys).map (·.2) =
      (List.range keys.length).map fun n => (sym (s.spare fresh n) : Expr α) := by
    rw [List.range_eq_range', ← List.zipIdx_map_snd 0 keys, labels, List.map_map, List.map_map]
    rfl
  rw [length_defs_advance, List.range_add, List.map_append, List.map_map, ← h, advance,
    List.map_append, List.map_map, List.map_map]
  exact congrArg _ hnew

omit [Arithmetic α] in
theorem spare_injective {fresh : Nat → String} (hf : Function.Injective fresh) (s : State α) :
    Function.Injective (s.spare fresh) := fun _ _ h => Nat.add_left_cancel (hf h)

theorem rounds_induct {fresh : Nat → String} {P : State α → Prop}
    (hround : ∀ s s', P s → s.round? fresh = some s' → P s') {s : State α} (h : P s) (n : Nat) :
    P (s.rounds fresh n) := by
  induction n generalizing s with
  | zero => exact h
  | succ n ih =>
    rw [rounds]
    cases hr : s.round? fresh with
    | none => exact h
    | some s' => exact ih (hround s s' h hr)

theorem forall_rounds {fresh : Nat → String} {s : State α} {P : Expr α → Prop}
    (hP : Hereditary P) (hsym : ∀ t, P (sym t)) (h : ∀ a ∈ s.all, P a.rhs) (n : Nat) :
    ∀ a ∈ (s.rounds fresh n).all, P a.rhs := by
  refine rounds_induct (P := fun s => ∀ a ∈ s.all, P a.rhs) (fun s s' h hr => ?_) h n
  obtain ⟨-, rfl⟩ := round?_eq_some.1 hr
  exact forall_advance hP hsym (fun _ => exists_part_of_chosen) h

theorem rounds_of_none {fresh : Nat → String} {s : State α} (h : s.round? fresh = none) (n : Nat) :
    s.rounds fresh n = s := by
  cases n with
  | zero => rfl
  | succ n => rw [rounds, h]

theorem rounds_add {fresh : Nat → String} {s : State α} (m n : Nat) :
    s.rounds fresh (m + n) = (s.rounds fresh m).rounds fresh n := by
  induction m generalizing s with
  | zero => rw [Nat.zero_add, rounds]
  | succ m ih =>
    cases h : s.round? fresh with
    | none => rw [rounds_of_none h, rounds_of_none h, rounds_of_none h]
    | some s' =>
      rw [Nat.succ_add, rounds, rounds, h]
      exact ih

end State

theorem exists_rounds (fresh : Nat → String) (as : List (Assignment α)) :
    ∃ n, eliminated fresh as = (⟨[], reuse as⟩ : State α).rounds fresh n :=
  ⟨_, (State.rounds_add _ _).symm⟩

end Stencil.Sharing
