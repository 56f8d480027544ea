import Stencil.Proofs.Assignment.Reuse
import Stencil.Proofs.Assignment.Round
import Stencil.Proofs.Assignment.Settling
import Stencil.Proofs.Rational

namespace Stencil.Sharing

open Stencil.Expr Stencil.Flow Schedule

variable {α : Type} [Arithmetic α]

def holder? (as : List (Assignment α)) (e : Expr α) : Option (Expr α) :=
  (as.find? fun a => a.lhs.isSymbol && a.rhs.isOperation && a.rhs == e).map (·.lhs)

/-- Every right-hand side of `bs` is the one of `as`, from the root down, with the operations that
`bs` has assigned to scalars before replaced by these. -/
structure Reuses (as bs : List (Assignment α)) : Prop where
  length : bs.length = as.length
  rhs : ∀ n a b, as[n]? = some a → bs[n]? = some b → ∃ known : Substitution α,
    (∀ e, known.get? e = holder? (bs.take n) e) ∧
      Assignment.Equal b (a.withRhs (a.rhs.replace known))

theorem holder?_append (as : List (Assignment α)) (a : Assignment α) (e : Expr α) :
    holder? (as ++ [a]) e = (holder? as e).or
      (if a.lhs.isSymbol && a.rhs.isOperation && a.rhs == e then some a.lhs else none) := by
  rw [holder?, List.find?_append, Option.map_or, List.find?_singleton, holder?]
  split <;> rfl

section Reuse

variable [LawfulLiterals α]

theorem get?_learn {known : Substitution α} {bs : List (Assignment α)}
    (h : ∀ e, known.get? e = holder? bs e) (b : Assignment α) (e : Expr α) :
    (learn known b).get? e = holder? (bs ++ [b]) e := by
  rw [holder?_append, ← h, learn]
  by_cases hop : (b.lhs.isSymbol && b.rhs.isOperation) = true
  · rw [if_pos hop, Table.get?_insertIfNew, hop, Bool.true_and]
  · rw [if_neg hop, Bool.eq_false_iff.2 hop, Bool.false_and, if_neg Bool.false_ne_true,
      Option.or_none]

theorem get?_learnAll {known : Substitution α} {bs : List (Assignment α)}
    (h : ∀ e, known.get? e = holder? bs e) (as : List (Assignment α)) (e : Expr α) :
    (learnAll known as).get? e = holder? (bs ++ reuseFrom known as) e := by
  induction as generalizing known bs with
  | nil => rw [reuseFrom, List.append_nil, ← h e]; rfl
  | cons a as ih =>
    rw [reuseFrom, List.append_cons]
    exact ih fun e => get?_learn h (reused known a) e

end Reuse

variable [LawfulArithmetic α]

theorem replace_of_none {known : Substitution α} (hnone : ∀ k, known.get? k = none) {e : Expr α}
    (hc : Canonical e) : (replace known e == e) = true := by
  have hs : Renames (fun _ => "") [] known := ⟨fun k t => by simp [hnone k], by simp⟩
  exact hs.replace_unnamed hc fun n hn => absurd hn (Nat.not_lt_zero n)

theorem reused_equal (known : Substitution α) {a : Assignment α} (hc : Canonical a.rhs) :
    Assignment.Equal (reused known a) (a.withRhs (a.rhs.replace known)) := by
  unfold reused
  split
  · rename_i hempty
    have hnone : ∀ k, known.get? k = none := fun k => by
      rw [Table.get?, List.isEmpty_iff.1 hempty]
      rfl
    exact ⟨rfl, rfl, rfl, BEq.symm (replace_of_none hnone hc)⟩
  · exact ⟨rfl, rfl, rfl, BEq.rfl⟩

theorem reuses_reuse {as : List (Assignment α)} (hc : ∀ a ∈ as, Canonical a.rhs) :
    Reuses as (reuse as) where
  length := by rw [reuse_eq, length_reuseFrom]
  rhs n a b ha hb := by
    obtain ⟨hn, rfl⟩ := List.getElem?_eq_some_iff.1 ha
    have hsplit : as = as.take n ++ as[n] :: as.drop (n + 1) := by
      rw [← List.drop_eq_getElem_cons hn, List.take_append_drop]
    have hlen : (reuseFrom (.empty : Substitution α) (as.take n)).length = n := by
      rw [length_reuseFrom, List.length_take_of_le hn.le]
    have hreuse := reuseFrom_append .empty (as.take n) (as[n] :: as.drop (n + 1))
    rw [reuseFrom, ← hsplit, ← reuse_eq] at hreuse
    rw [hreuse, List.getElem?_append_right hlen.le, hlen, Nat.sub_self, List.getElem?_cons_zero,
      Option.some.injEq] at hb
    subst hb
    refine ⟨learnAll .empty (as.take n), fun e => ?_, reused_equal _ (hc _ (List.getElem_mem hn))⟩
    rw [hreuse, List.take_left' hlen]
    have hempty : ∀ e : Expr α, (.empty : Substitution α).get? e = holder? [] e := fun _ => rfl
    exact get?_learnAll hempty _ e

def additions (as out : List (Assignment α)) : List (Assignment α) :=
  out.filter fun b => !as.any fun a => a.lhs == b.lhs

section Eliminate

variable {fresh : Nat → String} {as : List (Assignment α)}
  (hf : Function.Injective fresh) (hc : ∀ a ∈ as, Canonical a.rhs)
  (hfresh : ∀ a ∈ as, ∀ n, a.lhs ≠ sym (fresh n) ∧ sym (fresh n) ∉ a.rhs.inputs)

include hf hc hfresh

omit hf in
theorem consistent_reuse (top : Nat) : Consistent fresh top ⟨[], reuse as⟩ fun _ => 0 := by
  have hempty : ∀ {P : Expr α → Prop}, ∀ t ∈ (.empty : Substitution α).values, P t := by
    simp [Table.values, Table.empty]
  refine consistent_start ?_ ?_
  · rw [reuse_eq]
    refine forall_reuseFrom hereditary_canonical (fun a _ hsym => ?_) hc hempty
    cases hl : a.lhs <;> first | exact .sym _ | simp [hl, isSymbol] at hsym
  · intro a ha n _ hi
    rw [reuse_eq] at ha
    refine forall_reuseFrom (hereditary_inputs {i | i ≠ sym (fresh n)}) (fun b hb hsym i hi => ?_)
      (fun b hb i hi heq => (hfresh b hb n).2 (heq ▸ hi)) hempty a ha _ hi rfl
    rw [inputs_of_isInput (by simp [isInput, hsym]), List.mem_singleton] at hi
    exact hi ▸ (hfresh b hb n).1

theorem exists_meant_eliminated (top : Nat) (htop : (eliminated fresh as).defs.length ≤ top) :
    ∃ weight, Consistent fresh top (eliminated fresh as) weight ∧
      ∃ T, Meant T (reuse as) (eliminated fresh as) := by
  obtain ⟨n, hn⟩ := exists_rounds fresh as
  rw [hn] at htop ⊢
  exact exists_meant hf (consistent_reuse hc hfresh top) htop

omit hf hc [LawfulArithmetic α] in
theorem targets_eliminated {T : String → Option (Expr α)}
    (hm : Meant T (reuse as) (eliminated fresh as)) :
    ∀ a ∈ (eliminated fresh as).assignments, (∃ b ∈ as, b.lhs = a.lhs) ∧
      ∀ n, a.lhs ≠ sym (fresh n) := by
  intro a ha
  obtain ⟨b, hb, heq, -⟩ := forall₂_mem_right hm.assignments a ha
  have hl : b.lhs ∈ as.map (·.lhs) := map_lhs_reuse as ▸ List.mem_map_of_mem hb
  obtain ⟨c, hc, hl⟩ := List.mem_map.1 hl
  have heq : a.lhs = b.lhs := by rw [heq]; rfl
  exact ⟨⟨c, hc, hl.trans heq.symm⟩, fun n hn => (hfresh c hc n).1 (hl.trans (heq.symm.trans hn))⟩

omit hc [LawfulArithmetic α] in
theorem orderly_eliminated {top : Nat} {weight : String → Nat} {T : String → Option (Expr α)}
    (h : Consistent fresh top (eliminated fresh as) weight)
    (hm : Meant T (reuse as) (eliminated fresh as)) :
    Orderly (eliminated fresh as).defs (eliminated fresh as).assignments weight :=
  h.orderly hf fun a ha t htemp => by
    obtain ⟨n, -, rfl⟩ := h.temp_iff.1 htemp
    exact (targets_eliminated hfresh hm a ha).2 n

omit hc in
theorem perm_additions {top : Nat} {weight : String → Nat} {T : String → Option (Expr α)}
    (h : Consistent fresh top (eliminated fresh as) weight)
    (hm : Meant T (reuse as) (eliminated fresh as)) :
    (additions as (eliminate fresh as)).Perm (eliminated fresh as).defs := by
  have hperm := (orderly_eliminated hf hfresh h hm).perm.filter
    fun b => !as.any fun a => a.lhs == b.lhs
  have hexprs : (eliminated fresh as).assignments.filter
      (fun b => !as.any fun a => a.lhs == b.lhs) = [] := by
    refine List.filter_eq_nil_iff.2 fun a ha hnot => ?_
    obtain ⟨b, hb, hl⟩ := (targets_eliminated hfresh hm a ha).1
    simp only [Bool.not_eq_true', List.any_eq_false] at hnot
    exact hnot b hb (hl ▸ BEq.rfl)
  have hdefs : (eliminated fresh as).defs.filter
      (fun b => !as.any fun a => a.lhs == b.lhs) = (eliminated fresh as).defs := by
    refine List.filter_eq_self.2 fun d hd => ?_
    obtain ⟨n, -, hl⟩ := h.exists_name hd
    simp only [Bool.not_eq_true', List.any_eq_false]
    intro a ha heq
    rw [hl] at heq
    exact (hfresh a ha n).1 (sym_beq.1 (BEq.symm heq))
  rw [List.filter_append, hexprs, hdefs, List.nil_append] at hperm
  exact hperm

omit hc [LawfulArithmetic α] in
theorem eliminate_perm {top : Nat} {weight : String → Nat} {T : String → Option (Expr α)}
    (h : Consistent fresh top (eliminated fresh as) weight)
    (hm : Meant T (reuse as) (eliminated fresh as)) :
    (eliminate fresh as).Perm (eliminated fresh as).all :=
  (orderly_eliminated hf hfresh h hm).perm.trans List.perm_append_comm

/-- Elimination defines what it introduces once, before it is read, and leaves no operation twice
that costs anything. With the definitions put back, the assignments are those in which scalars have
been reused. -/
theorem eliminate_unshares :
    (∀ d ∈ additions as (eliminate fresh as), ∃ n, d.lhs = sym (fresh n)) ∧
      (∀ n, (∃ a ∈ eliminate fresh as, a.lhs = sym (fresh n) ∨ sym (fresh n) ∈ a.rhs.inputs) →
        DefinedOnce (eliminate fresh as) (fresh n)) ∧
      (∀ e : Expr α, 0 < e.cost true → occurrences (eliminate fresh as) e ≤ 1) ∧
      Reuses as (reuse as) ∧
      List.Forall₂ Assignment.Equal
        (undo (additions as (eliminate fresh as)) (eliminate fresh as)) (reuse as) := by
  obtain ⟨weight, h, T, hm⟩ := exists_meant_eliminated hf hc hfresh _ le_rfl
  have htargets := targets_eliminated hfresh hm
  have horderly := orderly_eliminated hf hfresh h hm
  have hperm := eliminate_perm hf hfresh h hm
  have hadditions := perm_additions hf hfresh h hm
  refine ⟨fun d hd => ?_, fun n hn => ?_, fun e he => ?_, reuses_reuse hc, ?_⟩
  · obtain ⟨n, -, hl⟩ := h.exists_name (hadditions.subset hd)
    exact ⟨n, hl⟩
  · refine horderly.definedOnce (h.temp_iff.2 ⟨n, ?_, rfl⟩)
    by_contra hlt
    obtain ⟨a, ha, hl | hi⟩ := hn
    · rcases List.mem_append.1 (hperm.subset ha) with ha | ha
      · obtain ⟨m, hm, hl'⟩ := h.exists_name ha
        exact hlt (hf (sym.inj (hl.symm.trans hl')) ▸ hm)
      · exact (htargets a ha).2 n hl
    · -- No name that has not been taken is read, however many there are.
      obtain ⟨weight, h, -⟩ := exists_meant_eliminated hf hc hfresh (n + 1) (by omega)
      exact h.spare a (hperm.subset ha) n (Nat.lt_succ_self n) (not_lt.1 hlt) hi
  · have hop : e.isOperation = true := by cases e <;> simp_all [cost, isOperation, isLeaf]
    rw [occurrences_perm hperm e, State.all, ← count_operations hop]
    exact count_le_one_of_chosen_eq_nil (State.round?_eq_none.1 (round?_eliminated fresh as)) he
  · refine horderly.undo hm.toSpelled hadditions (ready_filter horderly.ready ?_)
    rintro a ha hnot t hl u hu htemp
    obtain rfl := sym.inj hu
    obtain ⟨n, -, rfl⟩ := h.temp_iff.1 htemp
    simp only [Bool.not_eq_false', List.any_eq_true] at hnot
    obtain ⟨b, hb, heq⟩ := hnot
    rw [hl] at heq
    exact (hfresh b hb n).1 (sym_beq.1 (BEq.symm heq))

end Eliminate

/-- `v = sin(a*b + c)` and `u = sin(a*b + c) + a*b`. -/
def nested : List (Assignment ℚ) :=
  let e := call .sin [sum [product [sym "a", sym "b"], sym "c"]]
  [{ lhs := sym "v", rhs := e }, { lhs := sym "u", rhs := sum [e, product [sym "a", sym "b"]] }]

/-- `r = a*b`, `v = sin(r + c)` and `u = v + r`. -/
def unnested : List (Assignment ℚ) :=
  [{ lhs := sym (strokes 0), rhs := product [sym "a", sym "b"] },
    { lhs := sym "v", rhs := call .sin [sum [sym (strokes 0), sym "c"]] },
    { lhs := sym "u", rhs := sum [sym "v", sym (strokes 0)] }]

theorem canonical_nested : ∀ a ∈ nested, Canonical a.rhs := by
  have hab : Canonical (product [sym "a", sym "b"] : Expr ℚ) :=
    canonical_product (by simp [Canonical.sym])
  have he : Canonical (call .sin [sum [product [sym "a", sym "b"], sym "c"]] : Expr ℚ) :=
    .call (by simp [canonical_sum, hab, Canonical.sym])
  simp only [nested, List.forall_mem_cons]
  exact ⟨he, canonical_sum (by simp [he, hab]), by simp⟩

theorem fresh_nested : ∀ a ∈ nested, ∀ n,
    a.lhs ≠ sym (strokes n) ∧ sym (strokes n) ∉ a.rhs.inputs := by
  have hall : (nested.flatMap fun a => a.lhs :: a.rhs.inputs) =
      ["v", "c", "a", "b", "u", "a", "b", "c", "a", "b"].map sym := by cbv
  have hletters : ∀ s ∈ ["v", "c", "a", "b", "u", "a", "b", "c", "a", "b"],
      s.toList.head? ≠ some 'r' := by decide
  have hne : ∀ a ∈ nested, ∀ n, sym (strokes n) ∉ a.lhs :: a.rhs.inputs := by
    intro a ha n hi
    have hmem : sym (strokes n) ∈ nested.flatMap fun a => a.lhs :: a.rhs.inputs :=
      List.mem_flatMap.2 ⟨a, ha, hi⟩
    rw [hall] at hmem
    obtain ⟨s, hs, heq⟩ := List.mem_map.1 hmem
    exact ne_strokes (hletters s hs) n (sym.inj heq)
  exact fun a ha n => ⟨fun h => hne a ha n (h ▸ List.mem_cons_self),
    fun h => hne a ha n (List.mem_cons_of_mem _ h)⟩

theorem eliminate_unshares_nested :
    eliminate strokes nested = unnested ∧ DefinedOnce unnested (strokes 0) ∧
      List.Forall₂ Assignment.Equal (undo (additions nested unnested) unnested) (reuse nested) := by
  have hout : eliminate strokes nested = unnested := by cbv
  obtain ⟨-, honce, -, -, hundo⟩ :=
    eliminate_unshares strokes_injective canonical_nested fresh_nested
  rw [hout] at honce hundo
  exact ⟨hout, honce 0 ⟨_, List.mem_cons_self, .inl rfl⟩, hundo⟩

end Stencil.Sharing
