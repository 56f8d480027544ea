import Stencil.Expr.Rewriting
import Stencil.Proofs.Expr.Denotation
import Stencil.Proofs.Table

namespace Stencil.Expr

variable {α : Type}

structure Within (S : Set (Expr α)) (e : Expr α) : Prop where
  unary : Unary e
  inputs : ∀ i ∈ e.inputs, i ∈ S

theorem Within.mono {S S' : Set (Expr α)} {e : Expr α} (h : Within S e)
    (hS : ∀ i ∈ e.inputs, i ∈ S → i ∈ S') : Within S' e :=
  ⟨h.unary, fun i hi => hS i hi (h.inputs i hi)⟩

theorem Within.args {S : Set (Expr α)} {e : Expr α} (h : Within S e) : ∀ a ∈ e.args, Within S a :=
  fun a ha => ⟨h.unary.args a ha, fun i hi => h.inputs i (mem_inputs_args ⟨a, ha, hi⟩)⟩

theorem within_num (S : Set (Expr α)) (v : α) : Within S (num v) :=
  ⟨unary_of_leaf rfl, by simp [inputs_num]⟩

theorem within_of_isInput {S : Set (Expr α)} {e : Expr α} (he : e.isInput = true) (h : e ∈ S) :
    Within S e where
  unary := unary_of_leaf (by cases e <;> simp_all [isInput, isSymbol, isAccess, isLeaf])
  inputs := by simpa [inputs_of_isInput he] using h

theorem within_of_args {S : Set (Expr α)} {e : Expr α} (he : e.isInput = false)
    (hcall : ∀ f es, e = call f es → es.length = 1) (h : ∀ a ∈ e.args, Within S a) :
    Within S e where
  unary f es hc := by
    rcases mem_subterms.1 hc with heq | ⟨a, ha, hc⟩
    · exact hcall f es heq.symm
    · exact (h a ha).unary f es hc
  inputs i hi := by
    obtain ⟨a, ha, hia⟩ := (mem_inputs_iff he).1 hi
    exact (h a ha).inputs i hia

theorem args_rebuildRaw {e : Expr α} {es : List (Expr α)} (he : e.isLeaf = false)
    (hlen : es.length = e.args.length) : (rebuildRaw e es).args = es := by
  cases e with
  | num | sym | access => simp [isLeaf] at he
  | pow b x =>
    obtain ⟨b', x', rfl⟩ := List.length_eq_two.1 hlen
    rfl
  | _ => rfl

theorem isLeaf_rebuildRaw {e : Expr α} {es : List (Expr α)} (he : e.isLeaf = false)
    (hlen : es.length = e.args.length) : (rebuildRaw e es).isLeaf = false := by
  cases e with
  | num | sym | access => simp [isLeaf] at he
  | pow b x =>
    obtain ⟨b', x', rfl⟩ := List.length_eq_two.1 hlen
    rfl
  | _ => rfl

theorem mem_inputs_rebuildRaw {i e : Expr α} {es : List (Expr α)} (he : e.isLeaf = false)
    (hlen : es.length = e.args.length) (h : i ∈ (rebuildRaw e es).inputs) :
    ∃ a ∈ es, i ∈ a.inputs := by
  have hargs := (mem_inputs_iff (isInput_of_isLeaf (isLeaf_rebuildRaw he hlen))).1 h
  rwa [args_rebuildRaw he hlen] at hargs

variable [Arithmetic α]

structure Hereditary (P : Expr α → Prop) : Prop where
  num : ∀ v, P (num v)
  args : ∀ {e}, P e → ∀ a ∈ e.args, P a
  sum : ∀ {es}, (∀ e ∈ es, P e) → P (sum es)
  product : ∀ {es}, (∀ e ∈ es, P e) → P (product es)
  rebuild : ∀ {e es}, P e → es.length = e.args.length → (∀ a ∈ es, P a) → P (rebuild e es)

structure Closed (P : Expr α → Prop) : Prop where
  num : ∀ v, P (num v)
  sum : ∀ {es}, (∀ e ∈ es, P e) → P (sum es)
  product : ∀ {es}, (∀ e ∈ es, P e) → P (product es)

section Closed

variable {P : Expr α → Prop} (hP : Closed P) {a b : Expr α}

include hP

theorem Closed.plus (ha : P a) (hb : P b) : P (plus a b) := by
  apply hP.sum
  rintro e (_ | ⟨_, _ | ⟨_, ⟨⟩⟩⟩)
  · exact ha
  · exact hb

theorem Closed.times (ha : P a) (hb : P b) : P (times a b) := by
  apply hP.product
  rintro e (_ | ⟨_, _ | ⟨_, ⟨⟩⟩⟩)
  · exact ha
  · exact hb

theorem Closed.difference (ha : P a) (hb : P b) : P (difference a b) :=
  hP.plus ha (hP.times (hP.num _) hb)

end Closed

theorem Hereditary.subterms {P : Expr α → Prop} (hP : Hereditary P) {e : Expr α} (he : P e) :
    ∀ t ∈ e.subterms, P t := by
  induction e using inductArgs with
  | node e ih =>
    intro t ht
    rcases mem_subterms.1 ht with rfl | ⟨a, ha, ht⟩
    · exact he
    · exact ih a ha (hP.args he a ha) t ht

theorem hereditary_inputs (S : Set (Expr α)) :
    Hereditary fun e : Expr α => ∀ i ∈ e.inputs, i ∈ S where
  num v := by simp [inputs_num]
  args h a ha i hi := h i (mem_inputs_args ⟨a, ha, hi⟩)
  sum h i hi := by
    obtain ⟨a, ha, hia⟩ := mem_inputs_sum hi
    exact h a ha i hia
  product h i hi := by
    obtain ⟨a, ha, hia⟩ := mem_inputs_product hi
    exact h a ha i hia
  rebuild {e es} he hlen h i hi := by
    by_cases hl : e.isLeaf = true
    · refine he i ?_
      cases e <;> first | exact hi | simp [isLeaf] at hl
    · obtain ⟨a, ha, hia⟩ := mem_inputs_rebuild (Bool.eq_false_iff.2 hl) hlen hi
      exact h a ha i hia

theorem hereditary_within (S : Set (Expr α)) : Hereditary (Within S) where
  num := within_num S
  args := Within.args
  sum h := ⟨unary_sum fun a ha => (h a ha).unary,
    (hereditary_inputs S).sum fun a ha => (h a ha).inputs⟩
  product h := ⟨unary_product fun a ha => (h a ha).unary,
    (hereditary_inputs S).product fun a ha => (h a ha).inputs⟩
  rebuild he hlen h := ⟨unary_rebuild he.unary hlen fun a ha => (h a ha).unary,
    (hereditary_inputs S).rebuild he.inputs hlen fun a ha => (h a ha).inputs⟩

theorem hereditary_canonical [LawfulLiterals α] : Hereditary (Canonical : Expr α → Prop) where
  num := .num
  args := Canonical.args
  sum := canonical_sum
  product := canonical_product
  rebuild he _ h := canonical_rebuild he h

theorem replace_eq (s : Substitution α) (e : Expr α) :
    replace s e = match s.get? e with
      | some e' => e'
      | none => if e.args.isEmpty then e else rebuild e (e.args.map (replace s)) :=
  replaceBy_eq rebuild s e

theorem Hereditary.replace {P : Expr α → Prop} (hP : Hereditary P) {s : Substitution α}
    {e : Expr α} (he : P e) (hs : ∀ k ∈ e.subterms, ∀ e', s.get? k = some e' → P e') :
    P (replace s e) := by
  induction e using inductArgs with
  | node e ih =>
    rw [replace_eq]
    cases hget : s.get? e with
    | some e' => exact hs e (mem_subterms_self e) e' hget
    | none =>
      by_cases hargs : e.args.isEmpty = true
      · simpa [hargs] using he
      · simp only [hargs]
        refine hP.rebuild he (List.length_map _) fun a ha => ?_
        obtain ⟨b, hb, rfl⟩ := List.mem_map.1 ha
        exact ih b hb (hP.args he b hb) fun k hk => hs k (mem_subterms.2 (.inr ⟨b, hb, hk⟩))

theorem exists_of_mem_inputs_replaceBy {build : Expr α → List (Expr α) → Expr α}
    {s : Substitution α} {i e : Expr α}
    (hbuild : ∀ {e : Expr α} {es : List (Expr α)}, e.isLeaf = false →
      es.length = e.args.length → i ∈ (build e es).inputs → ∃ a ∈ es, i ∈ a.inputs)
    (h : i ∈ (replaceBy build s e).inputs) :
    i ∈ e.inputs ∧ s.get? i = none ∨ ∃ k e', s.get? k = some e' ∧ i ∈ e'.inputs := by
  induction e using inductArgs with
  | node e ih =>
    rw [replaceBy_eq] at h
    cases hget : s.get? e with
    | some e' =>
      rw [hget] at h
      exact .inr ⟨e, e', hget, h⟩
    | none =>
      simp only [hget] at h
      split at h
      · rename_i hargs
        refine .inl ⟨h, ?_⟩
        rw [mem_inputs, mem_subterms, List.isEmpty_iff.1 hargs] at h
        obtain ⟨rfl | ⟨a, ha, -⟩, -⟩ := h
        · exact hget
        · exact absurd ha List.not_mem_nil
      · rename_i hargs
        obtain ⟨a, ha, hia⟩ := hbuild (isLeaf_of_args hargs) (List.length_map _) h
        obtain ⟨b, hb, rfl⟩ := List.mem_map.1 ha
        exact (ih b hb hia).imp_left fun hi => ⟨mem_inputs_args ⟨b, hb, hi.1⟩, hi.2⟩

theorem mem_inputs_replaceBy {build : Expr α → List (Expr α) → Expr α} {s : Substitution α}
    {i e : Expr α} (hbuild : ∀ {e : Expr α} {es : List (Expr α)}, e.isLeaf = false →
      es.length = e.args.length → i ∈ (build e es).inputs → ∃ a ∈ es, i ∈ a.inputs)
    (h : i ∈ (replaceBy build s e).inputs) :
    i ∈ e.inputs ∨ ∃ e' ∈ s.values, i ∈ e'.inputs :=
  (exists_of_mem_inputs_replaceBy hbuild h).imp And.left
    fun ⟨_, e', hget, hi⟩ => ⟨e', Table.mem_values_of_get? hget, hi⟩

structure Faithful [AlgebraicField α] (build : Expr α → List (Expr α) → Expr α) : Prop where
  denote : ∀ (ρ : Expr α → α) {e es}, e.isLeaf = false → es.length = e.args.length →
    denote ρ (build e es) = combine e (es.map (denote ρ))
  within : ∀ (S : Set (Expr α)) {e es}, e.isLeaf = false → es.length = e.args.length → Unary e →
    (∀ a ∈ es, Within S a) → Within S (build e es)

section Faithful

variable [AlgebraicField α]

theorem faithful_rebuild [Exact α] : Faithful (rebuild : Expr α → List (Expr α) → Expr α) where
  denote ρ _ _ he hlen := denote_rebuild ρ he hlen
  within S e es he hlen hu h := by
    refine ⟨unary_rebuild hu hlen fun a ha => (h a ha).unary, fun i hi => ?_⟩
    obtain ⟨a, ha, hia⟩ := mem_inputs_rebuild he hlen hi
    exact (h a ha).inputs i hia

theorem faithful_rebuildRaw : Faithful (rebuildRaw : Expr α → List (Expr α) → Expr α) where
  denote ρ e es he hlen := by
    cases e with
    | num | sym | access => simp [isLeaf] at he
    | pow b x =>
      obtain ⟨b', x', rfl⟩ := List.length_eq_two.1 hlen
      exact denote_pow ρ b' x'
    | call f as =>
      rw [rebuildRaw, denote_of_not_isInput rfl]
      cases es <;> rfl
    | _ => exact denote_of_not_isInput rfl
  within S e es he hlen hu h := by
    cases e with
    | num | sym | access => simp [isLeaf] at he
    | pow b x =>
      obtain ⟨b', x', rfl⟩ := List.length_eq_two.1 hlen
      exact within_of_args rfl (by simp [rebuildRaw]) (by simpa [rebuildRaw, args] using h)
    | call f as =>
      refine within_of_args rfl (fun g es' heq => ?_) h
      obtain ⟨-, rfl⟩ := call.inj heq
      exact hlen.trans (hu f as (mem_subterms_self _))
    | _ => exact within_of_args rfl (by simp [rebuildRaw]) h

variable {build : Expr α → List (Expr α) → Expr α} {s : Substitution α} {e : Expr α}

theorem denote_replaceBy {ρ ρ' : Expr α → α} (hb : Faithful build)
    (hs : ∀ k ∈ e.subterms, ∀ e', s.get? k = some e' → denote ρ' e' = denote ρ k)
    (hi : ∀ i ∈ e.inputs, s.get? i = none → ρ' i = ρ i) :
    denote ρ' (replaceBy build s e) = denote ρ e := by
  induction e using inductArgs with
  | node e ih =>
    rw [replaceBy_eq]
    cases hget : s.get? e with
    | some e' => exact hs e (mem_subterms_self e) e' hget
    | none =>
      by_cases hargs : e.args.isEmpty = true
      · simp only [hargs, if_true]
        by_cases hin : e.isInput = true
        · rw [denote_of_isInput hin, denote_of_isInput hin]
          exact hi e (by simp [inputs_of_isInput hin]) hget
        · rw [Bool.not_eq_true] at hin
          rw [denote_of_not_isInput hin, denote_of_not_isInput hin, List.isEmpty_iff.1 hargs]
          rfl
      · have hleaf := isLeaf_of_args hargs
        simp only [hargs]
        rw [if_neg Bool.false_ne_true, hb.denote ρ' hleaf (List.length_map _),
          denote_of_not_isInput (isInput_of_isLeaf hleaf), List.map_map]
        refine congrArg _ (List.map_congr_left fun a ha => ?_)
        exact ih a ha (fun k hk => hs k (mem_subterms.2 (.inr ⟨a, ha, hk⟩)))
          fun i hia => hi i (mem_inputs_args ⟨a, ha, hia⟩)

theorem within_replaceBy {S : Set (Expr α)} (hb : Faithful build) (hu : Unary e)
    (hs : ∀ k ∈ e.subterms, ∀ e', s.get? k = some e' → Within S e')
    (hi : ∀ i ∈ e.inputs, s.get? i = none → i ∈ S) : Within S (replaceBy build s e) := by
  induction e using inductArgs with
  | node e ih =>
    rw [replaceBy_eq]
    cases hget : s.get? e with
    | some e' => exact hs e (mem_subterms_self e) e' hget
    | none =>
      by_cases hargs : e.args.isEmpty = true
      · simp only [hargs, if_true]
        by_cases hin : e.isInput = true
        · exact within_of_isInput hin (hi e (by simp [inputs_of_isInput hin]) hget)
        · refine within_of_args (Bool.eq_false_iff.2 hin) ?_ (by simp [List.isEmpty_iff.1 hargs])
          rintro f es rfl
          exact hu f es (mem_subterms_self _)
      · simp only [hargs]
        rw [if_neg Bool.false_ne_true]
        refine hb.within S (isLeaf_of_args hargs) (List.length_map _) hu fun a ha => ?_
        obtain ⟨b, hb, rfl⟩ := List.mem_map.1 ha
        exact ih b hb (hu.args b hb) (fun k hk => hs k (mem_subterms.2 (.inr ⟨b, hb, hk⟩)))
          fun i hib => hi i (mem_inputs_args ⟨b, hb, hib⟩)

theorem denote_replace [Exact α] {ρ : Expr α → α}
    (hs : ∀ k ∈ e.subterms, ∀ e', s.get? k = some e' → denote ρ e' = denote ρ k) :
    denote ρ (replace s e) = denote ρ e :=
  denote_replaceBy faithful_rebuild hs fun _ _ _ => rfl

omit [AlgebraicField α] in
theorem replaceRaw_of_none (hs : ∀ k, s.get? k = none) (e : Expr α) : replaceRaw s e = e := by
  induction e using inductArgs with
  | node e ih =>
    rw [replaceRaw, replaceBy_eq, hs]
    have hid : e.args.map (replaceBy rebuildRaw s) = e.args :=
      (List.map_congr_left ih).trans (List.map_id _)
    rw [hid]
    cases e <;> simp [rebuildRaw, args]

end Faithful

end Stencil.Expr
