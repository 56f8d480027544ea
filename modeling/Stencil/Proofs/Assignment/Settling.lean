import Stencil.Proofs.Assignment.Choice
import Stencil.Proofs.Rational

/-!
Elimination ends, whatever the assignments look like. Right-hand sides that a substitution has
rebuilt are tight, and new definitions lose height from round to round until all that can be shared
is tight. From then on every round leaves fewer operations: an operation that is chosen goes away
twice and comes back once, as a definition whose root cannot be shared.
-/

namespace Stencil.Sharing

open Stencil.Expr

variable {α : Type} [Arithmetic α]

omit [Arithmetic α] in
theorem length_sharable (a : Assignment α) : (sharable a).length =
    if a.lhs.isSymbol then a.rhs.innerLoad else a.rhs.load := by
  rw [sharable_eq, ← List.countP_eq_length_filter, parts]
  split <;> rfl

omit [Arithmetic α] in
theorem length_operations (s : State α) :
    s.operations.length = (s.all.map fun a => (sharable a).length).sum := by
  rw [State.operations, List.length_flatMap]
  rfl

def Fading (n : Nat) (s : State α) : Prop := ∀ a ∈ s.all, ∀ k ∈ parts a, Tight k ∨ k.height ≤ n

section Round

variable [LawfulArithmetic α] (fresh : Nat → String) {s : State α} {keys : List (Expr α)}
  {most : Nat} (h : Choice s keys most)

include h

theorem Fading.advance {n : Nat} (hs : Fading n s) : Fading (n - 1) (s.advance fresh keys) := by
  intro a ha k hk
  rcases State.mem_all_advance.1 ha with ⟨b, -, rfl⟩ | ⟨i, key, hi, rfl⟩
  · refine .inl ((tight_replace (fun e t ht => ?_) b.rhs).subterms (mem_subterms_of_parts hk))
    exact (State.get?_table h ht).1
  · obtain ⟨a, ha, hka, -⟩ := mem_operations.1 (h.mem key (List.mem_of_getElem? hi))
    have hinner : k ∈ key.inner := hk
    rcases hs a ha key hka with ht | hle
    · exact .inl (ht.subterms (subterms_eq_inner key ▸ List.mem_cons_of_mem key hinner))
    · have hlt := height_inner_lt hinner
      exact .inr (by omega)

theorem two_mul_sharable_shorten_le {a : Assignment α} (ht : ∀ k ∈ parts a, Tight k) :
    2 * (sharable (shorten (s.table fresh keys) a)).length +
      (((sharable a).filter fun k => keys.any (· == k)).map load).sum ≤
        2 * (sharable a).length := by
  have hget := fun e t (hget : (s.table fresh keys).get? e = some t) => State.get?_table h hget
  have hhit : ∀ es : List (Expr α), ((es.filter isOperation).filter fun k => keys.any (· == k)) =
      es.filter fun k => ((s.table fresh keys).get? k).isSome := by
    intro es
    rw [List.filter_filter]
    refine List.filter_congr fun k _ => ?_
    rw [State.isSome_get?_table fresh s h.distinct]
    by_cases hany : keys.any (· == k) = true
    · obtain ⟨t, ht⟩ := Option.isSome_iff_exists.1
        ((State.isSome_get?_table fresh s h.distinct k).trans hany)
      rw [hany, (hget k t ht).2.1]
      rfl
    · simp [hany]
  rw [length_sharable, length_sharable, sharable_eq, hhit]
  by_cases hsym : a.lhs.isSymbol = true
  · simp only [parts, shorten, Assignment.withRhs, hsym, if_true] at ht ⊢
    exact two_mul_innerLoad_replace_le hget h.pos fun a ha =>
      ht a (mem_inner.2 ⟨a, ha, mem_subterms_self a⟩)
  · simp only [parts, shorten, Assignment.withRhs, hsym] at ht ⊢
    exact two_mul_load_replace_le hget h.pos (ht _ (mem_subterms_self _))

theorem length_operations_advance (ht : Fading 0 s) :
    (s.advance fresh keys).operations.length + keys.length ≤ s.operations.length := by
  have htight : ∀ a ∈ s.all, ∀ k ∈ parts a, Tight k := by
    intro a ha k hk
    refine (ht a ha k hk).resolve_right fun hle => ?_
    rw [height_eq] at hle
    omega
  -- the operations that were there, counted after the round and where they are hit
  have hold : 2 * (s.all.map fun a => (sharable (shorten (s.table fresh keys) a)).length).sum +
      ((s.operations.filter fun k => keys.any (· == k)).map load).sum ≤
        2 * s.operations.length := by
    rw [length_operations, State.operations, List.filter_flatMap, sum_map_flatMap,
      ← List.sum_map_mul_left, ← List.sum_map_mul_left]
    show _ + (s.all.map _).sum ≤ _
    rw [← List.sum_map_add]
    exact List.sum_le_sum fun a ha => two_mul_sharable_shorten_le fresh h (htight a ha)
  have hhit := h.two_mul_sum_le fun _ _ => load_congr
  have hnew : (keys.map load).sum = keys.length + (keys.map innerLoad).sum := by
    have hload : ∀ k ∈ keys, load k = 1 + innerLoad k := fun k hk => by
      rw [load_eq, innerLoad_eq, if_pos (h.operation hk)]
    rw [List.map_congr_left hload, List.sum_map_add]
    simp
  have hafter : (s.advance fresh keys).operations.length =
      (s.all.map fun a => (sharable (shorten (s.table fresh keys) a)).length).sum +
        (keys.map innerLoad).sum := by
    have hlabels : ((labels (s.spare fresh) keys).map fun x =>
        (sharable ({ lhs := x.2, rhs := x.1 } : Assignment α)).length) = keys.map innerLoad := by
      conv_rhs => rw [← map_fst_labels (s.spare fresh) keys, List.map_map]
      refine List.map_congr_left fun x hx => ?_
      obtain ⟨n, -, hn⟩ := mem_labels.1 (show (x.1, x.2) ∈ _ from hx)
      rw [length_sharable, hn]
      rfl
    rw [length_operations, State.all, State.advance, State.all, List.map_append, List.map_append,
      List.map_map, List.map_map, List.map_map, List.map_append, List.sum_append, List.sum_append,
      List.sum_append, ← hlabels]
    simp only [Function.comp_def]
    omega
  omega

end Round

section Rounds

variable [LawfulArithmetic α] {fresh : Nat → String} {s : State α}

theorem Fading.rounds (fresh : Nat → String) {n : Nat} (hs : Fading n s) (m : Nat) :
    (s.rounds fresh m).round? fresh = none ∨ Fading (n - m) (s.rounds fresh m) := by
  induction m generalizing s n with
  | zero => exact .inr hs
  | succ m ih =>
    rw [State.rounds]
    split
    · rename_i h
      exact .inl h
    · rename_i s' h
      obtain ⟨hne, rfl⟩ := State.round?_eq_some.1 h
      have hs' := hs.advance fresh (choice_chosen hne)
      rw [Nat.add_comm, ← Nat.sub_sub]
      exact ih hs'

theorem Fading.round {s' : State α} (hs : Fading 0 s) (h : s.round? fresh = some s') :
    Fading 0 s' ∧ s'.operations.length < s.operations.length := by
  obtain ⟨hne, rfl⟩ := State.round?_eq_some.1 h
  have hk := choice_chosen hne
  have hlen := length_operations_advance fresh hk hs
  have hpos := List.length_pos_iff.2 hne
  exact ⟨hs.advance fresh hk, by omega⟩

theorem Fading.round?_rounds (hs : Fading 0 s) {n : Nat} (hn : s.operations.length ≤ n) :
    (s.rounds fresh n).round? fresh = none := by
  induction n generalizing s with
  | zero =>
    cases h : s.round? fresh with
    | none => exact h
    | some s' =>
      have hlt := (hs.round h).2
      omega
  | succ n ih =>
    rw [State.rounds]
    split
    · rename_i h
      exact h
    · rename_i s' h
      obtain ⟨hs', hlt⟩ := hs.round h
      exact ih hs' (by omega)

end Rounds

theorem round?_eliminated [LawfulArithmetic α] (fresh : Nat → String) (as : List (Assignment α)) :
    (eliminated fresh as).round? fresh = none := by
  let s : State α := ⟨[], reuse as⟩
  let deepest := (s.assignments.map fun a => a.rhs.height).foldl max 0
  have hstart : Fading deepest s := by
    intro a ha k hk
    have hle := (le_foldl_max (s.assignments.map fun a => a.rhs.height) 0).2 _
      (List.mem_map_of_mem ha)
    exact .inr ((height_subterm_le (mem_subterms_of_parts hk)).trans hle)
  have hsettle : eliminated fresh as =
      (s.rounds fresh deepest).rounds fresh (s.rounds fresh deepest).operations.length := rfl
  rw [hsettle]
  rcases hstart.rounds fresh deepest with h | h
  · rwa [State.rounds_of_none h]
  · rw [Nat.sub_self] at h
    exact h.round?_rounds le_rfl

/-- The rounds of elimination end. -/
theorem eliminated_settled [LawfulArithmetic α] (fresh : Nat → String) (as : List (Assignment α)) :
    ∃ n, eliminated fresh as = (⟨[], reuse as⟩ : State α).rounds fresh n ∧
      (eliminated fresh as).round? fresh = none :=
  have ⟨n, hn⟩ := exists_rounds fresh as
  ⟨n, hn, round?_eliminated fresh as⟩

def unfolded : Expr ℚ := mul [num (-1), mul [num (-1), mul [add [sym "a", sym "b"]]]]

def doubled : List (Assignment ℚ) := [{ lhs := sym "u", rhs := add [unfolded, unfolded] }]

theorem eliminated_settled_doubled :
    (eliminated (fun _ => "t") doubled).defs.length = 6 ∧
      (eliminated (fun _ => "t") doubled).round? (fun _ => "t") = none :=
  have ⟨_, _, h⟩ := eliminated_settled (fun _ => "t") doubled
  ⟨by cbv, h⟩

end Stencil.Sharing
