import Mathlib.Data.Set.Finite.Lemmas
import Stencil.Proofs.Assignment.Unsharing
import Stencil.Proofs.Expr.Saving

/-!
What elimination of common subexpressions saves. Assignments never cost more after it, and they cost
less if all temporaries are read. A temporary that is not read may remain: an operation that occurs
in its negation only gets a temporary together with the negation, and what would read the one is
replaced by the other.
-/

namespace Stencil

variable {α : Type} [Arithmetic α] {weighted : Bool}

theorem totalCost_eq (as : List (Assignment α)) :
    totalCost weighted as = (as.map fun a => a.rhs.cost weighted).sum := by
  rw [totalCost, List.sum, List.foldr_map]

theorem totalCost_perm {as bs : List (Assignment α)} (h : as.Perm bs) :
    totalCost weighted as = totalCost weighted bs := by
  rw [totalCost_eq, totalCost_eq, (h.map _).sum_eq]

namespace Sharing

open Stencil.Expr Stencil.Flow Schedule

section Step

variable [LawfulArithmetic α] {fresh : Nat → String} {top : Nat} {s : State α}
  {weight : String → Nat} {keys : List (Expr α)} {most : Nat}
  (h : Consistent fresh top s weight) (hroom : s.defs.length + keys.length ≤ top)
  (hk : Choice s keys most)

omit [LawfulArithmetic α] in
theorem Choice.totalCost_advance (fresh : Nat → String) (hk : Choice s keys most) :
    totalCost true (s.advance fresh keys).all =
      (s.all.map fun a => (a.rhs.replace (s.table fresh keys)).cost true).sum +
        keys.length * most := by
  have hkeys : ((labels (s.spare fresh) keys).map fun x => x.1.cost true).sum =
      keys.length * most := by
    have hmap : (labels (s.spare fresh) keys).map (fun x => x.1.cost true) =
        keys.map fun _ => most := by
      conv_rhs => rw [← map_fst_labels (s.spare fresh) keys, List.map_map]
      refine List.map_congr_left fun x hx => ?_
      obtain ⟨n, hn, -⟩ := mem_labels.1 (show (x.1, x.2) ∈ _ from hx)
      exact hk.cost _ (List.mem_of_getElem? hn)
    rw [hmap, List.map_const', List.sum_replicate_nat]
  rw [totalCost_eq, ← hkeys]
  simp only [State.all, State.advance, List.map_append, List.map_map, List.sum_append,
    Function.comp_def, shorten, Assignment.withRhs]
  omega

include hk

omit hk [Arithmetic α] [LawfulArithmetic α] in
theorem sharable_sublist (a : Assignment α) : (sharable a).Sublist a.rhs.subterms := by
  rw [sharable_eq]
  refine List.filter_sublist.trans ?_
  unfold parts
  split
  · exact subterms_eq_inner a.rhs ▸ List.sublist_cons_self _ _
  · exact .refl _

theorem Choice.two_mul_length_le (fresh : Nat → String) : 2 * (keys.length * most) ≤
    (s.all.map fun a => ((a.rhs.subterms.filter fun x =>
      ((s.table fresh keys).get? x).isSome).map fun _ => most).sum).sum := by
  have hhit := hk.two_mul_sum_le (m := fun _ => most) fun _ _ _ => rfl
  rw [List.map_const', List.sum_replicate_nat] at hhit
  refine hhit.trans ?_
  rw [State.operations, List.filter_flatMap, sum_map_flatMap]
  refine List.sum_le_sum fun a _ => ?_
  simp only [State.isSome_get?_table fresh s hk.distinct]
  exact List.Sublist.sum_le_sum (((sharable_sublist a).filter _).map _) fun _ _ => Nat.zero_le _

include h

theorem Consistent.unnegated_advance (hall : ∀ a ∈ s.all, Unnegated a.rhs) :
    ∀ a ∈ (s.advance fresh keys).all, Unnegated a.rhs := by
  intro a ha
  rcases State.mem_all_advance.1 ha with ⟨b, hb, rfl⟩ | ⟨n, k, hn, rfl⟩
  · exact (hk.renames fresh).unnegated (h.canonical b hb) (hall b hb)
  · obtain ⟨b, hb, hkb⟩ := hk.exists_part (List.mem_of_getElem? hn)
    exact (hall b hb).subterms (mem_subterms_of_parts hkb)

include hroom

theorem Consistent.two_mul_cost_advance_le (hf : Function.Injective fresh) (hne : keys ≠ []) :
    ∃ n < keys.length, 2 * totalCost true (s.advance fresh keys).all +
      most * (s.all.map fun a => (a.rhs.replace (s.table fresh keys)).inputs.count
        (sym (s.spare fresh n))).sum ≤ 2 * totalCost true s.all := by
  obtain ⟨k, hmem, hleast⟩ := Set.exists_min_image {k | k ∈ keys} (Expr.size weight)
    (List.finite_toSet keys) (List.exists_mem_of_ne_nil keys hne)
  obtain ⟨n, hn⟩ := List.mem_iff_getElem?.1 hmem
  obtain ⟨hlt, -⟩ := List.getElem?_eq_some_iff.1 hn
  refine ⟨n, hlt, ?_⟩
  have heach := List.sum_le_sum fun a ha => (hk.renames fresh).two_mul_cost_replace_le
    (State.spare_injective hf s) hk.pos hk.cost hn hleast (h.canonical a ha)
      (h.unnamed hroom ha n hlt)
  have hhit := hk.two_mul_length_le fresh
  rw [List.sum_map_add, List.sum_map_add, List.sum_map_mul_left, List.sum_map_mul_left,
    List.sum_map_mul_left, ← totalCost_eq] at heach
  rw [hk.totalCost_advance]
  omega

theorem Consistent.cost_advance_le (hf : Function.Injective fresh) (hne : keys ≠ []) :
    totalCost true (s.advance fresh keys).all ≤ totalCost true s.all ∧
      ∃ n < keys.length, Read (s.advance fresh keys).all (s.spare fresh n) →
        totalCost true (s.advance fresh keys).all < totalCost true s.all := by
  obtain ⟨n, hn, hle⟩ := h.two_mul_cost_advance_le hroom hk hf hne
  refine ⟨by omega, n, hn, fun ⟨a, ha, hi⟩ => ?_⟩
  have hread : 0 < (s.all.map fun a => (a.rhs.replace (s.table fresh keys)).inputs.count
      (sym (s.spare fresh n))).sum := by
    rcases State.mem_all_advance.1 ha with ⟨b, hb, rfl⟩ | ⟨m, k, hm, rfl⟩
    · refine lt_of_lt_of_le ?_ (List.single_le_sum (fun _ _ => Nat.zero_le _) _
        (List.mem_map_of_mem hb))
      exact List.countP_pos_iff.2 ⟨_, hi, BEq.rfl⟩
    · exact absurd hi (h.key_unnamed hroom hk (List.mem_of_getElem? hm) n hn)
  have hsave := Nat.mul_pos hk.pos hread
  omega

end Step

section Reuse

structure Learnt (known : Substitution α) : Prop where
  distinct : Table.Distinct known.keys
  operation : ∀ k ∈ known.keys, k.isOperation = true
  scalar : ∀ t ∈ known.values, t.isSymbol = true

theorem Learnt.learn {known : Substitution α} (h : Learnt known) (a : Assignment α) :
    Learnt (learn known a) := by
  rcases learn_eq known a with heq | ⟨hsym, hop, heq⟩
  · rwa [heq]
  · rw [heq]
    refine ⟨Table.distinct_keys_insert h.distinct _ _, fun k hk => ?_, fun t ht => ?_⟩
    · rcases Table.mem_keys_insert hk with hk | rfl
      · exact h.operation k hk
      · exact hop
    · rcases Table.mem_values_insert ht with ht | rfl
      · exact h.scalar t ht
      · exact hsym

variable [LawfulArithmetic α]

theorem Learnt.exists_renames {known : Substitution α} (h : Learnt known) :
    ∃ fresh, Renames fresh known.keys known := by
  have hscalar : ∀ (n : Nat) (k t : Expr α), known.entries[n]? = some (k, t) →
      t = sym (((known.values[n]?).bind symbol?).getD "") := by
    intro n k t hn
    have hvalue : known.values[n]? = some t := by
      rw [Table.values, List.getElem?_map, hn]
      rfl
    have hsym := h.scalar t (List.mem_of_getElem? hvalue)
    rw [hvalue]
    cases t <;> first | rfl | simp [isSymbol] at hsym
  refine ⟨fun n => ((known.values[n]?).bind symbol?).getD "", fun e t => ?_, h.operation⟩
  constructor
  · intro hget
    obtain ⟨k, hmem, heq⟩ := Table.exists_mem_of_get? hget
    obtain ⟨n, hn⟩ := List.mem_iff_getElem?.1 hmem
    exact ⟨n, k, by rw [Table.keys, List.getElem?_map, hn]; rfl, heq, hscalar n k t hn⟩
  · rintro ⟨n, k, hn, heq, rfl⟩
    rw [Table.keys, List.getElem?_map, Option.map_eq_some_iff] at hn
    obtain ⟨⟨k, t⟩, hn, rfl⟩ := hn
    rw [← hscalar n k t hn]
    exact Table.get?_eq_some_of_distinct h.distinct (List.mem_of_getElem? hn) heq

theorem forall₂_reuse (as : List (Assignment α)) :
    List.Forall₂ (fun a b => b = a ∨ ∃ fresh keys known, Renames fresh keys known ∧
      b = a.withRhs (a.rhs.replace known)) as (reuse as) := by
  have hfrom : ∀ known : Substitution α, Learnt known →
      List.Forall₂ (fun a b => b = a ∨ ∃ fresh keys known, Renames fresh keys known ∧
        b = a.withRhs (a.rhs.replace known)) as (reuseFrom known as) := by
    induction as with
    | nil => exact fun _ _ => .nil
    | cons a as ih =>
      intro known h
      refine .cons ?_ (ih _ (h.learn _))
      unfold reused
      split
      · exact .inl rfl
      · obtain ⟨fresh, hs⟩ := h.exists_renames
        exact .inr ⟨fresh, _, known, hs, rfl⟩
  rw [reuse_eq]
  exact hfrom .empty ⟨.nil, by simp [Table.keys, Table.empty], by simp [Table.values, Table.empty]⟩

theorem totalCost_reuse_le {as : List (Assignment α)} (hc : ∀ a ∈ as, Canonical a.rhs) :
    totalCost true (reuse as) ≤ totalCost true as := by
  have hreuse := List.forall₂_iff_zip.1 (forall₂_reuse as).flip
  rw [totalCost_eq, totalCost_eq]
  refine List.Forall₂.sum_le_sum ?_
  rw [List.forall₂_map_left_iff, List.forall₂_map_right_iff]
  refine List.forall₂_iff_zip.2 ⟨hreuse.1, fun {b a} hab => ?_⟩
  rcases hreuse.2 hab with rfl | ⟨fresh, keys, known, hs, rfl⟩
  · exact le_rfl
  · exact hs.cost_replace_le (hc a (List.of_mem_zip hab).2)

theorem unnegated_reuse {as : List (Assignment α)} (hc : ∀ a ∈ as, Canonical a.rhs)
    (h : ∀ a ∈ as, Unnegated a.rhs) : ∀ b ∈ reuse as, Unnegated b.rhs := by
  intro b hb
  obtain ⟨a, ha, rfl | ⟨fresh, keys, known, hs, rfl⟩⟩ := forall₂_mem_right (forall₂_reuse as) b hb
  · exact h _ ha
  · exact hs.unnegated (hc a ha) (h a ha)

end Reuse

def Used (as : List (Assignment α)) (d : Assignment α) : Prop :=
  ∃ a ∈ as, a.lhs ≠ d.lhs ∧ d.lhs ∈ a.rhs.inputs

/-- All that `out` adds to `as` is read, and makes `out` cost less. -/
def PaysOff (as out : List (Assignment α)) : Prop :=
  (∀ d ∈ additions as out, Used out d) ∧
    (additions as out ≠ [] → totalCost true out < totalCost true as)

structure Paid (bound : Nat) (s : State α) : Prop where
  le : totalCost true s.all ≤ bound
  lt : s.defs ≠ [] → (∀ d ∈ s.defs, ∀ t, d.lhs = sym t → Read s.all t) →
    totalCost true s.all < bound

section Eliminate

variable [LawfulArithmetic α] {fresh : Nat → String} {as : List (Assignment α)}
  (hf : Function.Injective fresh) (hc : ∀ a ∈ as, Canonical a.rhs)
  (hfresh : ∀ a ∈ as, ∀ n, a.lhs ≠ sym (fresh n) ∧ sym (fresh n) ∉ a.rhs.inputs)

include hf

theorem Paid.advance {bound top : Nat} {s : State α} {weight : String → Nat}
    (h : Consistent fresh top s weight) (hroom : s.defs.length + s.chosen.length ≤ top)
    (hne : s.chosen ≠ []) (hp : Paid bound s) : Paid bound (s.advance fresh s.chosen) := by
  obtain ⟨hle, n, hn, hlt⟩ := h.cost_advance_le hroom (choice_chosen hne) hf hne
  refine ⟨hle.trans hp.le, fun _ hread => (hlt ?_).trans_le hp.le⟩
  exact hread _ (State.mem_defs_advance.2 (.inr ⟨n, _, List.getElem?_eq_getElem hn, rfl⟩)) _ rfl

include hc hfresh

theorem paid_eliminated : Paid (totalCost true as) (eliminated fresh as) := by
  obtain ⟨n, hn⟩ := exists_rounds fresh as
  rw [hn]
  have hstart : Paid (totalCost true as) (⟨[], reuse as⟩ : State α) :=
    ⟨totalCost_reuse_le hc, fun hne => absurd rfl hne⟩
  obtain ⟨-, -, hpaid⟩ := (consistent_reuse hc hfresh _).rounds_induct hf
    (fun s weight h hroom hne hp => hp.advance hf h hroom hne) hstart le_rfl
  exact hpaid

theorem unnegated_eliminated (h : ∀ a ∈ as, Unnegated a.rhs) :
    ∀ a ∈ (eliminated fresh as).all, Unnegated a.rhs := by
  obtain ⟨n, hn⟩ := exists_rounds fresh as
  rw [hn]
  obtain ⟨-, -, hall⟩ := (consistent_reuse hc hfresh _).rounds_induct
    (P := fun s => ∀ a ∈ s.all, Unnegated a.rhs) hf
    (fun s weight h _ hne hall => h.unnegated_advance (choice_chosen hne) hall)
    (unnegated_reuse hc h) le_rfl
  exact hall

/-- Assignments do not cost more after elimination. A temporary is read, or the one of its negation
is. If all are read, elimination pays off, and so it does for assignments in which no operation is
negated. -/
theorem eliminate_paysOff :
    totalCost true (eliminate fresh as) ≤ totalCost true as ∧
      (∀ d ∈ additions as (eliminate fresh as), Used (eliminate fresh as) d ∨
        ∃ d' ∈ additions as (eliminate fresh as),
          Negation d.rhs d'.rhs ∧ Used (eliminate fresh as) d') ∧
      (PaysOff as (eliminate fresh as) ↔
        ∀ d ∈ additions as (eliminate fresh as), Used (eliminate fresh as) d) ∧
      ((∀ a ∈ as, Unnegated a.rhs) → PaysOff as (eliminate fresh as)) := by
  obtain ⟨weight, h, T, hm⟩ := exists_meant_eliminated hf hc hfresh _ le_rfl
  have htargets := targets_eliminated hfresh hm
  have hperm := eliminate_perm hf hfresh h hm
  have hadditions := perm_additions hf hfresh h hm
  have hpaid := paid_eliminated hf hc hfresh
  have hcost : totalCost true (eliminate fresh as) = totalCost true (eliminated fresh as).all :=
    totalCost_perm hperm
  have hused : ∀ d ∈ (eliminated fresh as).defs, ∀ t, d.lhs = sym t →
      Read (eliminated fresh as).all t → Used (eliminate fresh as) d := by
    rintro d hd t hl ⟨a, ha, hi⟩
    refine ⟨a, hperm.symm.subset ha, fun heq => ?_, hl ▸ hi⟩
    rcases List.mem_append.1 ha with ha | ha
    · exact lt_irrefl _ (h.lighter ha (heq.trans hl) hi)
    · obtain ⟨n, -, hname⟩ := h.exists_name hd
      exact (htargets a ha).2 n (heq.trans hname)
  have hread : ∀ d ∈ (eliminated fresh as).defs, ∀ t, d.lhs = sym t →
      Used (eliminate fresh as) d → Read (eliminated fresh as).all t := by
    rintro d - t hl ⟨a, ha, -, hi⟩
    exact ⟨a, hperm.subset ha, hl ▸ hi⟩
  have htwin : ∀ d ∈ additions as (eliminate fresh as), Used (eliminate fresh as) d ∨
      ∃ d' ∈ additions as (eliminate fresh as),
        Negation d.rhs d'.rhs ∧ Used (eliminate fresh as) d' := by
    intro d hd
    have hd := hadditions.subset hd
    obtain ⟨n, -, hl⟩ := h.exists_name hd
    rcases h.read d hd _ hl with hr | ⟨d', hd', t', hl', hneg, hr⟩
    · exact .inl (hused d hd _ hl hr)
    · exact .inr ⟨d', hadditions.symm.subset hd', hneg, hused d' hd' t' hl' hr⟩
  have hpays : (∀ d ∈ additions as (eliminate fresh as), Used (eliminate fresh as) d) →
      PaysOff as (eliminate fresh as) := by
    refine fun hall => ⟨hall, fun hne => ?_⟩
    rw [hcost]
    refine hpaid.lt (fun hnil => hne ?_) fun d hd t hl =>
      hread d hd t hl (hall d (hadditions.symm.subset hd))
    exact (hnil ▸ hadditions).eq_nil
  refine ⟨hcost ▸ hpaid.le, htwin, ⟨fun h => h.1, hpays⟩, fun hun => hpays fun d hd => ?_⟩
  refine (htwin d hd).resolve_right ?_
  rintro ⟨d', hd', ⟨v, x, hv, hrhs, heq⟩, -⟩
  have hun' := unnegated_eliminated hf hc hfresh hun d'
    (List.mem_append_left _ (hadditions.subset hd'))
  have hleaf := hun' v x (hrhs ▸ mem_subterms_self _) hv
  rw [isOperation_congr heq, h.operation d (hadditions.subset hd)] at hleaf
  exact absurd hleaf (by simp)

end Eliminate

theorem unnegated_nested : ∀ a ∈ nested, Unnegated a.rhs := by
  intro a ha v x hmem hv
  have hall : mul [num v, x] ∈ nested.flatMap fun a => a.rhs.subterms :=
    List.mem_flatMap.2 ⟨a, ha, hmem⟩
  have hsubterms : (nested.flatMap fun a => a.rhs.subterms) =
      let ab : List (Expr ℚ) := [mul [sym "a", sym "b"], sym "a", sym "b"]
      let e := add [sym "c", mul [sym "a", sym "b"]]
      [call .sin [e], e, sym "c"] ++ ab ++ [add [mul [sym "a", sym "b"], call .sin [e]]] ++ ab ++
        [call .sin [e], e, sym "c"] ++ ab := by cbv
  rw [hsubterms] at hall
  simp at hall

theorem eliminate_paysOff_nested :
    eliminate strokes nested = unnested ∧ PaysOff nested unnested := by
  have hout : eliminate strokes nested = unnested := by cbv
  obtain ⟨-, -, -, hpays⟩ := eliminate_paysOff strokes_injective canonical_nested fresh_nested
  exact ⟨hout, hout ▸ hpays unnegated_nested⟩

/-- `p = sin(-(a + b))` and `q = cos(-(a + b))`. -/
def negated : List (Assignment ℚ) :=
  let e := product [num (-1), sum [sym "a", sym "b"]]
  [{ lhs := sym "p", rhs := call .sin [e] }, { lhs := sym "q", rhs := call .cos [e] }]

/-- `r0 = -(a + b)`, `p = sin(r0)`, `q = cos(r0)` and `r1 = a + b`. -/
def unread : List (Assignment ℚ) :=
  [{ lhs := sym "r0", rhs := product [num (-1), sum [sym "a", sym "b"]] },
    { lhs := sym "p", rhs := call .sin [sym "r0"] },
    { lhs := sym "q", rhs := call .cos [sym "r0"] },
    { lhs := sym "r1", rhs := sum [sym "a", sym "b"] }]

/-- The sum gets a temporary because it occurs twice, each time in its negation. -/
theorem eliminate_keeps_unread :
    (∀ a ∈ negated, Canonical a.rhs) ∧
      eliminate (⟨"r", 0⟩ : Names).name negated = unread ∧
      (∀ a ∈ unread, sym "r1" ∉ a.rhs.inputs) ∧
      totalCost true unread = totalCost true negated ∧
      ¬ PaysOff negated unread := by
  have he : Canonical (product [num (-1), sum [sym "a", sym "b"]] : Expr ℚ) :=
    canonical_product (by simp [canonical_sum, Canonical.sym, Canonical.num])
  have hinputs : (unread.flatMap fun a => a.rhs.inputs) =
      ["a", "b", "r0", "r0", "a", "b"].map sym := by cbv
  have hunread : ∀ a ∈ unread, sym "r1" ∉ a.rhs.inputs := by
    intro a ha hi
    have hmem : sym "r1" ∈ unread.flatMap fun a => a.rhs.inputs := List.mem_flatMap.2 ⟨a, ha, hi⟩
    rw [hinputs] at hmem
    simp at hmem
  have hadded : { lhs := sym "r1", rhs := sum [sym "a", sym "b"] } ∈ additions negated unread := by
    have hall : additions negated unread =
        [{ lhs := sym "r0", rhs := product [num (-1), sum [sym "a", sym "b"]] },
          { lhs := sym "r1", rhs := sum [sym "a", sym "b"] }] := by cbv
    simp [hall]
  refine ⟨?_, by cbv, hunread, by cbv, fun h => ?_⟩
  · simp only [negated, List.forall_mem_cons]
    exact ⟨.call (by simp [he]), .call (by simp [he]), by simp⟩
  · obtain ⟨a, ha, -, hi⟩ := h.1 _ hadded
    exact hunread a ha hi

end Sharing

end Stencil
