import Stencil.Proofs.Assignment.Choice
import Stencil.Proofs.Assignment.Inlining

/-!
Rounds of elimination keep a set of definitions that can be scheduled. The delicate point is a
definition that nobody reads: whatever it reads is needed by others. For such a definition there is
always one of its negation, because only a negation costs as much as the operation itself, and the
operation never becomes a key again.
-/

namespace Stencil.Sharing

open Stencil.Expr Stencil.Flow Schedule

variable {α : Type} [Arithmetic α]

theorem sum_le_count {β : Type} [BEq β] {f : β → Nat} {z : β} {xs : List β}
    (h : ∀ x ∈ xs, f x ≤ if x == z then 1 else 0) : (xs.map f).sum ≤ xs.count z := by
  induction xs with
  | nil => simp
  | cons x xs ih =>
    have hx := h x List.mem_cons_self
    have htail := ih fun y hy => h y (List.mem_cons_of_mem x hy)
    rw [List.map_cons, List.sum_cons, List.count_cons]
    omega

def Negation (e e' : Expr α) : Prop :=
  ∃ v x, Arithmetic.isMinusOne v = true ∧ e' = mul [num v, x] ∧ (x == e) = true

/-- What rounds preserve, when the names up to `top` are not in use at the start. `weight` says how
large an expression a name stands for. -/
structure Consistent (fresh : Nat → String) (top : Nat) (s : State α) (weight : String → Nat) :
    Prop where
  names : s.defs.map (·.lhs) = (List.range s.defs.length).map fun n => sym (fresh n)
  canonical : ∀ a ∈ s.all, Canonical a.rhs
  spare : ∀ a ∈ s.all, ∀ n < top, s.defs.length ≤ n → sym (fresh n) ∉ a.rhs.inputs
  operation : ∀ d ∈ s.defs, d.rhs.isOperation = true
  size : ∀ d ∈ s.defs, ∀ t, d.lhs = sym t → weight t = Expr.size weight d.rhs
  once : ∀ d ∈ s.defs, occurrences s.all d.rhs ≤ 1
  read : ∀ d ∈ s.defs, ∀ t, d.lhs = sym t → Read s.all t ∨
    ∃ d' ∈ s.defs, ∃ t', d'.lhs = sym t' ∧ Negation d.rhs d'.rhs ∧ Read s.all t'

section Choice

variable [LawfulArithmetic α] {s : State α} {keys : List (Expr α)} {most : Nat}
  (hk : Choice s keys most)

include hk

theorem Choice.renames (fresh : Nat → String) :
    Renames (s.spare fresh) keys (s.table fresh keys) where
  get := get?_labels hk.distinct
  operation _ := hk.operation

omit [LawfulArithmetic α] in
theorem Choice.two_le_occurrences {k : Expr α} (hmem : k ∈ keys) : 2 ≤ occurrences s.all k := by
  have htwice := hk.twice k hmem
  rwa [count_operations (hk.operation hmem)] at htwice

omit [LawfulArithmetic α] in
theorem Choice.exists_part {k : Expr α} (hmem : k ∈ keys) : ∃ a ∈ s.all, k ∈ parts a :=
  have ⟨a, ha, hka, _⟩ := mem_operations.1 (hk.mem k hmem)
  ⟨a, ha, hka⟩

theorem Choice.eq_mul {k k' x : Expr α} (hc : Canonical k') (hmem : k ∈ keys) (hmem' : k' ∈ keys)
    (hx : x ∈ k'.inner) (heq : (x == k) = true) :
    ∃ v, Arithmetic.isMinusOne v = true ∧ k' = mul [num v, x] := by
  have hxk : Expr.cost true x = Expr.cost true k := cost_congr heq
  have hcost : Expr.cost true x = Expr.cost true k' :=
    hxk.trans ((hk.cost k hmem).trans (hk.cost k' hmem').symm)
  obtain ⟨v, rfl⟩ := eq_mul_of_cost_eq hc hx hcost (by rw [hxk, hk.cost k hmem]; exact hk.pos)
  exact ⟨v, isMinusOne_of_cost_eq ((isOperation_congr heq).trans (hk.operation hmem)) hcost, rfl⟩

theorem Choice.count_inner_le (hc : ∀ k ∈ keys, Canonical k) {k : Expr α} (hmem : k ∈ keys) :
    (keys.flatMap inner).count k ≤ 1 := by
  rw [List.count_flatMap]
  by_cases hany : ∃ z ∈ keys, ∃ x ∈ z.inner, (x == k) = true
  · obtain ⟨z, hz, x, hx, hxk⟩ := hany
    obtain ⟨v, hv, rfl⟩ := hk.eq_mul (hc z hz) hmem hz hx hxk
    refine (sum_le_count (z := mul [num v, x]) fun k' hmem' => ?_).trans
      (hk.distinct.count_le_one _)
    split
    · rw [Function.comp_apply, List.count, List.countP_eq_length_filter]
      refine ((hc k' hmem').tight.inner_filter ?_ fun y _ hy => ?_).2
      · rw [hk.cost k' hmem']
        exact hk.pos
      · exact (cost_congr hy).trans ((hk.cost k hmem).trans (hk.cost k' hmem').symm)
    · rename_i hne
      refine (List.countP_eq_zero.2 fun y hy hyk => hne ?_).le
      obtain ⟨v', hv', rfl⟩ := hk.eq_mul (hc k' hmem') hmem hmem' hy hyk
      rw [← kind_eq, kind_mul, List.map_cons, List.map_cons, List.map_cons, List.map_cons,
        kind_num.2 (LawfulArithmetic.same_of_isMinusOne v' v hv' hv),
        kind_eq.2 (BEq.trans hyk (BEq.symm hxk))]
  · refine (List.sum_eq_zero fun n hn => ?_).le.trans (Nat.zero_le 1)
    obtain ⟨k', hmem', rfl⟩ := List.mem_map.1 hn
    exact List.countP_eq_zero.2 fun x hx hxk => hany ⟨k', hmem', x, hx, hxk⟩

end Choice

noncomputable def State.weights (fresh : Nat → String) (s : State α) (keys : List (Expr α))
    (weight : String → Nat) : String → Nat :=
  Function.extend (s.spare fresh)
    (fun n => (keys[n]?).elim (weight (s.spare fresh n)) (size weight)) weight

section Weights

variable {fresh : Nat → String} {s : State α} {keys : List (Expr α)} {weight : String → Nat}

omit [Arithmetic α] in
theorem weights_name (hf : Function.Injective fresh) {n : Nat} {k : Expr α}
    (hn : keys[n]? = some k) :
    s.weights fresh keys weight (s.spare fresh n) = size weight k := by
  rw [State.weights, (State.spare_injective hf s).extend_apply, hn]
  rfl

omit [Arithmetic α] in
theorem weights_other (hf : Function.Injective fresh) {t : String}
    (ht : ∀ n < keys.length, t ≠ s.spare fresh n) :
    s.weights fresh keys weight t = weight t := by
  by_cases hname : ∃ n, s.spare fresh n = t
  · obtain ⟨n, rfl⟩ := hname
    have hn : keys[n]? = none :=
      List.getElem?_eq_none_iff.2 (not_lt.1 fun hlt => ht n hlt rfl)
    rw [State.weights, (State.spare_injective hf s).extend_apply, hn]
    rfl
  · exact Function.extend_apply' _ _ t hname

end Weights

section Step

variable [LawfulArithmetic α] {fresh : Nat → String} {top : Nat} {s : State α}
  {weight : String → Nat} {keys : List (Expr α)} {most : Nat}
  (h : Consistent fresh top s weight)

include h

omit [LawfulArithmetic α] in
theorem Consistent.exists_name {d : Assignment α} (hd : d ∈ s.defs) :
    ∃ n < s.defs.length, d.lhs = sym (fresh n) := by
  have hmem : d.lhs ∈ s.defs.map (·.lhs) := List.mem_map.2 ⟨d, hd, rfl⟩
  rw [h.names, List.mem_map] at hmem
  obtain ⟨n, hn, heq⟩ := hmem
  exact ⟨n, List.mem_range.1 hn, heq.symm⟩

omit [LawfulArithmetic α] in
theorem Consistent.temp_iff {t : String} :
    Temp s.defs t ↔ ∃ n < s.defs.length, t = fresh n := by
  constructor
  · rintro ⟨d, hd, hl⟩
    obtain ⟨n, hn, hname⟩ := h.exists_name hd
    exact ⟨n, hn, sym.inj (hl.symm.trans hname)⟩
  · rintro ⟨n, hn, rfl⟩
    have hmem : (sym (fresh n) : Expr α) ∈ s.defs.map (·.lhs) :=
      h.names ▸ List.mem_map_of_mem (List.mem_range.2 hn)
    obtain ⟨d, hd, hl⟩ := List.mem_map.1 hmem
    exact ⟨d, hd, hl⟩

variable (hroom : s.defs.length + keys.length ≤ top)

include hroom

omit [LawfulArithmetic α] in
theorem Consistent.unnamed {a : Assignment α} (ha : a ∈ s.all) :
    Unnamed (s.spare fresh) keys a.rhs := fun n hn =>
  h.spare a ha (s.defs.length + n) (by omega) (Nat.le_add_right _ _)

variable (hk : Choice s keys most)

include hk

omit hroom [LawfulArithmetic α] in
theorem Consistent.key_canonical {k : Expr α} (hmem : k ∈ keys) : Canonical k := by
  obtain ⟨a, ha, hka⟩ := hk.exists_part hmem
  exact (h.canonical a ha).subterms k (mem_subterms_of_parts hka)

omit [LawfulArithmetic α] in
theorem Consistent.key_unnamed {k : Expr α} (hmem : k ∈ keys) :
    Unnamed (s.spare fresh) keys k := by
  obtain ⟨a, ha, hka⟩ := hk.exists_part hmem
  exact (h.unnamed hroom ha).subterms (mem_subterms_of_parts hka)

omit hroom in
theorem Consistent.parts_shorten {a : Assignment α} (ha : a ∈ s.all) :
    (parts (shorten (s.table fresh keys) a)).Subperm
      ((parts a).map (replace (s.table fresh keys))) := by
  have hc := h.canonical a ha
  by_cases hsym : a.lhs.isSymbol = true
  · simp only [parts, shorten, Assignment.withRhs, hsym, if_true]
    exact (hk.renames fresh).inner_replace hc
  · simp only [parts, shorten, Assignment.withRhs, hsym]
    exact (hk.renames fresh).subterms_replace hc

omit hroom in
theorem Consistent.occurrences_shorten {e e' : Expr α}
    (heq : ∀ a ∈ s.all, ∀ x ∈ parts a, (replace (s.table fresh keys) x == e') = true →
      (x == e) = true) :
    occurrences (s.all.map (shorten (s.table fresh keys))) e' ≤ occurrences s.all e := by
  have hsub : ((s.all.map (shorten (s.table fresh keys))).flatMap parts).Subperm
      ((s.all.flatMap parts).map (replace (s.table fresh keys))) := by
    rw [List.flatMap_map, List.map_flatMap]
    exact flatMap_subperm fun a ha => h.parts_shorten hk ha
  refine (hsub.countP_le _).trans ?_
  rw [List.countP_map]
  refine List.countP_mono_left fun x hx hxe => ?_
  obtain ⟨a, ha, hxa⟩ := List.mem_flatMap.1 hx
  exact heq a ha x hxa hxe

theorem Consistent.occurrences_key {k : Expr α} (hmem : k ∈ keys) :
    occurrences (s.all.map (shorten (s.table fresh keys))) k = 0 := by
  refine List.countP_eq_zero.2 fun e he hek => ?_
  obtain ⟨b, hb, heb⟩ := List.mem_flatMap.1 he
  obtain ⟨a, ha, rfl⟩ := List.mem_map.1 hb
  obtain ⟨x, hx, rfl⟩ := List.mem_map.1 ((h.parts_shorten hk ha).subset heb)
  have hc := (h.canonical a ha).subterms x (mem_subterms_of_parts hx)
  have hself : (replace (s.table fresh keys) x == x) = true := by
    refine (hk.renames fresh).replace_unnamed hc fun n hn hi => ?_
    rw [inputs_congr hek] at hi
    exact h.key_unnamed hroom hk hmem n hn hi
  obtain ⟨n, hn⟩ := List.mem_iff_getElem?.1 hmem
  have hget := ((hk.renames fresh).get x _).2
    ⟨n, k, hn, BEq.trans (BEq.symm hek) hself, rfl⟩
  have hop := (isOperation_congr hek).trans (hk.operation hmem)
  rw [replace_eq, hget] at hop
  exact absurd hop (by simp [isOperation, isLeaf])

omit h hroom hk [LawfulArithmetic α] in
theorem occurrences_advance (e : Expr α) : occurrences (s.advance fresh keys).all e =
    occurrences (s.all.map (shorten (s.table fresh keys))) e + (keys.flatMap inner).count e := by
  have hparts : ((labels (s.spare fresh) keys).map fun x =>
      ({ lhs := x.2, rhs := x.1 } : Assignment α)).flatMap parts = keys.flatMap inner := by
    conv_rhs => rw [← map_fst_labels (s.spare fresh) keys, List.flatMap_map]
    rw [List.flatMap_map]
    refine List.flatMap_congr fun x hx => ?_
    obtain ⟨n, -, hn⟩ := mem_labels.1 (show (x.1, x.2) ∈ _ from hx)
    rw [hn]
    rfl
  rw [← hparts]
  simp only [State.all, State.advance, List.map_append, occurrences_append]
  rw [← occurrences]
  omega

theorem Consistent.once_advance (hf : Function.Injective fresh) {d : Assignment α}
    (hd : d ∈ (s.advance fresh keys).defs) :
    occurrences (s.advance fresh keys).all d.rhs ≤ 1 := by
  rw [occurrences_advance]
  rcases State.mem_defs_advance.1 hd with ⟨b, hb, rfl⟩ | ⟨n, k, hn, rfl⟩
  · have hall : b ∈ s.all := List.mem_append_left _ hb
    have honce := h.once b hb
    have hold : occurrences (s.all.map (shorten (s.table fresh keys)))
        (replace (s.table fresh keys) b.rhs) ≤ occurrences s.all b.rhs := by
      refine h.occurrences_shorten hk fun a ha x hx heq => ?_
      have hsub := mem_subterms_of_parts hx
      exact (hk.renames fresh).replace_injective (State.spare_injective hf s)
        ((h.canonical a ha).subterms x hsub) (h.canonical b hall)
        ((h.unnamed hroom ha).subterms hsub) (h.unnamed hroom hall) heq
    -- A key that contains it would have occurred twice, and it with the key.
    have hnew : (keys.flatMap inner).count (replace (s.table fresh keys) b.rhs) = 0 := by
      refine List.countP_eq_zero.2 fun x hx hxb => ?_
      obtain ⟨k, hmem, hxk⟩ := List.mem_flatMap.1 hx
      have hself : (replace (s.table fresh keys) b.rhs == b.rhs) = true := by
        refine (hk.renames fresh).replace_unnamed (h.canonical b hall) fun n hn hi => ?_
        rw [← inputs_congr hxb] at hi
        exact (h.key_unnamed hroom hk hmem).subterms
          (subterms_eq_inner k ▸ List.mem_cons_of_mem k hxk) n hn hi
      have hin : 0 < k.inner.count b.rhs :=
        List.countP_pos_iff.2 ⟨x, hxk, BEq.trans hxb hself⟩
      have hmul := occurrences_mul_le s.all b.rhs k
      have htwo := Nat.mul_le_mul (hk.two_le_occurrences hmem) hin
      omega
    have hrhs : (shorten (s.table fresh keys) b).rhs = replace (s.table fresh keys) b.rhs := rfl
    rw [hrhs, hnew]
    omega
  · have hmem := List.mem_of_getElem? hn
    have hold := h.occurrences_key hroom hk hmem
    have hnew := hk.count_inner_le (fun _ => h.key_canonical hk) hmem
    show occurrences _ k + List.count k _ ≤ 1
    omega

omit hroom in
theorem Consistent.not_key {d : Assignment α} (hd : d ∈ s.defs) {k : Expr α} (hmem : k ∈ keys) :
    (k == d.rhs) = false := by
  by_contra heq
  rw [Bool.not_eq_false] at heq
  have htwo := hk.two_le_occurrences hmem
  have honce := h.once d hd
  rw [occurrences_congr _ heq] at htwo
  omega

omit hroom in
theorem Consistent.canonical_advance {a : Assignment α} (ha : a ∈ (s.advance fresh keys).all) :
    Canonical a.rhs := by
  rcases State.mem_all_advance.1 ha with ⟨b, hb, rfl⟩ | ⟨n, k, hn, rfl⟩
  · refine hereditary_canonical.replace (h.canonical b hb) fun k _ e he => ?_
    obtain ⟨n, -, -, -, rfl⟩ := ((hk.renames fresh).get k e).1 he
    exact .sym _
  · exact h.key_canonical hk (List.mem_of_getElem? hn)

omit hroom in
theorem Consistent.spare_advance (hf : Function.Injective fresh) {a : Assignment α}
    (ha : a ∈ (s.advance fresh keys).all) {n : Nat} (hn : n < top)
    (hlen : (s.advance fresh keys).defs.length ≤ n) : sym (fresh n) ∉ a.rhs.inputs := by
  rw [State.length_defs_advance] at hlen
  intro hi
  rcases State.mem_all_advance.1 ha with ⟨b, hb, rfl⟩ | ⟨m, k, hm, rfl⟩
  · rcases (hk.renames fresh).inputs_replace (h.canonical b hb) hi with hi | hname
    · exact h.spare b hb n hn (by omega) hi
    · obtain ⟨m, k, -, hm, -, -, heq⟩ := hname
      have hlt := (List.getElem?_eq_some_iff.1 hm).1
      have := hf (sym.inj heq)
      omega
  · obtain ⟨b, hb, hkb⟩ := hk.exists_part (List.mem_of_getElem? hm)
    exact h.spare b hb n hn (by omega) (mem_inputs_trans (mem_subterms_of_parts hkb) hi)

omit hroom in
theorem Consistent.operation_advance {d : Assignment α} (hd : d ∈ (s.advance fresh keys).defs) :
    d.rhs.isOperation = true := by
  rcases State.mem_defs_advance.1 hd with ⟨b, hb, rfl⟩ | ⟨n, k, hn, rfl⟩
  · have hop := h.operation b hb
    show (replace _ b.rhs).isOperation = true
    have hc := h.canonical b (List.mem_append_left _ hb)
    refine (hk.renames fresh).cases hc (fun n k hn heq _ => ?_) (fun _ _ hrep => ?_)
      fun _ _ _ hrank _ => ?_
    · have hne := h.not_key hk hb (List.mem_of_getElem? hn)
      exact absurd heq (by simp [hne])
    · rwa [hrep]
    · rwa [isOperation, isLeaf_of_rank hrank]
  · exact hk.operation (List.mem_of_getElem? hn)

theorem Consistent.size_advance (hf : Function.Injective fresh) {d : Assignment α}
    (hd : d ∈ (s.advance fresh keys).defs) {t : String} (hl : d.lhs = sym t) :
    s.weights fresh keys weight t = Expr.size (s.weights fresh keys weight) d.rhs := by
  have hkept : ∀ {e : Expr α}, Unnamed (s.spare fresh) keys e → ∀ u, sym u ∈ e.inputs →
      s.weights fresh keys weight u = weight u := fun hu u hi =>
    weights_other hf fun n hn heq => hu n hn (heq ▸ hi)
  rcases State.mem_defs_advance.1 hd with ⟨b, hb, rfl⟩ | ⟨n, k, hn, rfl⟩
  · have hall : b ∈ s.all := List.mem_append_left _ hb
    obtain ⟨m, hm, hname⟩ := h.exists_name hb
    obtain rfl : t = fresh m := sym.inj (hl.symm.trans hname)
    rw [weights_other hf fun n hn heq => ?_, h.size b hb _ hname]
    · exact ((hk.renames fresh).size_replace (h.canonical b hall) (hkept (h.unnamed hroom hall))
        fun n k hn => weights_name hf hn).symm
    · have := hf heq
      omega
  · obtain rfl := sym.inj hl
    rw [weights_name hf hn]
    have hmem := List.mem_of_getElem? hn
    exact size_congr fun u hu => (hkept (h.key_unnamed hroom hk hmem) u hu).symm

omit hroom in
theorem Consistent.read_of_read {t : String} (hr : Read s.all t) :
    Read (s.advance fresh keys).all t := by
  obtain ⟨a, ha, ht⟩ := hr
  rcases (hk.renames fresh).mem_inputs_replace (h.canonical a ha) ht with ht | ⟨k, hmem, ht⟩
  · exact ⟨_, State.mem_all_advance.2 (.inl ⟨a, ha, rfl⟩), ht⟩
  · obtain ⟨n, hn⟩ := List.mem_iff_getElem?.1 hmem
    exact ⟨_, State.mem_all_advance.2 (.inr ⟨n, k, hn, rfl⟩), ht⟩

omit hroom in
theorem Consistent.negation_advance {d d' : Assignment α} (hd : d ∈ s.defs) (hd' : d' ∈ s.defs)
    (hn : Negation d.rhs d'.rhs) :
    Negation (replace (s.table fresh keys) d.rhs) (replace (s.table fresh keys) d'.rhs) := by
  obtain ⟨v, x, hv, hrhs, heq⟩ := hn
  have hs := hk.renames fresh
  have hc' := h.canonical d' (List.mem_append_left _ hd')
  have hx : Canonical x := hc'.subterms x (by
    rw [hrhs]
    exact mem_subterms.2 (.inr ⟨x, by simp [args], mem_subterms_self x⟩))
  have hcanon : Canonical (replace (s.table fresh keys) d'.rhs) := by
    refine hereditary_canonical.replace hc' fun k _ e he => ?_
    obtain ⟨n, -, -, -, rfl⟩ := (hs.get k e).1 he
    exact .sym _
  have hnum : replace (s.table fresh keys) (num v) = num v := by
    have hnone : (s.table fresh keys).get? (num v) = none := by
      refine Option.eq_none_iff_forall_ne_some.2 fun t ht => ?_
      exact absurd (hs.operation_of_get ht) (by simp [isOperation, isLeaf])
    rw [replace_eq, hnone]
    rfl
  refine ⟨v, replace (s.table fresh keys) x, hv, ?_,
    hs.replace_congr hx (h.canonical d (List.mem_append_left _ hd)) heq⟩
  refine hs.cases hc' (fun n k hn hkd _ => ?_) (fun _ hargs _ => ?_) fun _ _ hperm hrank _ => ?_
  · have hne := h.not_key hk hd' (List.mem_of_getElem? hn)
    exact absurd hkd (by simp [hne])
  · rw [hrhs] at hargs
    exact absurd hargs (by simp [args])
  · rw [hrhs] at hperm hrank hcanon ⊢
    generalize replace (s.table fresh keys) (mul [num v, x]) = e at hperm hrank hcanon ⊢
    obtain ⟨es, rfl⟩ : ∃ es, e = mul es := by cases e <;> simp_all [rank]
    rw [args, args, List.map_cons, List.map_cons, List.map_nil, hnum] at hperm
    exact congrArg mul (eq_pair_of_canonical hcanon hperm)

omit hroom in
theorem Consistent.read_key {n : Nat} {k : Expr α} (hn : keys[n]? = some k) :
    Read (s.advance fresh keys).all (s.spare fresh n) ∨
      ∃ d ∈ (s.advance fresh keys).defs, ∃ t, d.lhs = sym t ∧ Negation k d.rhs ∧
        Read (s.advance fresh keys).all t := by
  have hmem := List.mem_of_getElem? hn
  obtain ⟨a, ha, hka⟩ := hk.exists_part hmem
  have hget := ((hk.renames fresh).get k _).2 ⟨n, k, hn, BEq.rfl, rfl⟩
  obtain ⟨n', k', y, hn', heq, hy, hky, hread⟩ := (hk.renames fresh).mem_inputs_of_key
    (h.canonical a ha) (mem_subterms_of_parts hka) (Option.isSome_of_eq_some hget)
  have hread' : Read (s.advance fresh keys).all (s.spare fresh n') :=
    ⟨_, State.mem_all_advance.2 (.inl ⟨a, ha, rfl⟩), hread⟩
  rw [subterms_eq_inner, List.mem_cons] at hky
  rcases hky with rfl | hin
  · exact .inl (hk.distinct.getElem?_inj hn' hn heq ▸ hread')
  · have hmem' := List.mem_of_getElem? hn'
    obtain ⟨x, hx, hxk⟩ : ∃ x ∈ k'.inner, (x == k) = true := by
      refine List.countP_pos_iff.1 ?_
      show 0 < k'.inner.count k
      rw [count_of_map_kind (map_kind_inner heq)]
      exact List.countP_pos_iff.2 ⟨k, hin, BEq.rfl⟩
    obtain ⟨v, hv, hrhs⟩ := hk.eq_mul (h.key_canonical hk hmem') hmem hmem' hx hxk
    exact .inr ⟨_, State.mem_defs_advance.2 (.inr ⟨n', k', hn', rfl⟩), _, rfl,
      ⟨v, x, hv, hrhs, hxk⟩, hread'⟩

omit hroom in
theorem Consistent.reads_advance {d : Assignment α} (hd : d ∈ (s.advance fresh keys).defs)
    {t : String} (hl : d.lhs = sym t) : Read (s.advance fresh keys).all t ∨
      ∃ d' ∈ (s.advance fresh keys).defs, ∃ t', d'.lhs = sym t' ∧ Negation d.rhs d'.rhs ∧
        Read (s.advance fresh keys).all t' := by
  rcases State.mem_defs_advance.1 hd with ⟨b, hb, rfl⟩ | ⟨n, k, hn, rfl⟩
  · rcases h.read b hb t hl with hr | ⟨d', hd', t', hl', hneg, hr⟩
    · exact .inl (h.read_of_read hk hr)
    · exact .inr ⟨_, State.mem_defs_advance.2 (.inl ⟨d', hd', rfl⟩), t', hl',
        h.negation_advance hk hb hd' hneg, h.read_of_read hk hr⟩
  · obtain rfl := sym.inj hl
    exact h.read_key hk hn

theorem Consistent.advance (hf : Function.Injective fresh) :
    Consistent fresh top (s.advance fresh keys) (s.weights fresh keys weight) where
  names := State.map_lhs_advance h.names
  canonical _ := h.canonical_advance hk
  spare _ ha _ := h.spare_advance hk hf ha
  operation _ := h.operation_advance hk
  size _ hd _ := h.size_advance hroom hk hf hd
  once _ := h.once_advance hroom hk hf
  read _ hd _ := h.reads_advance hk hd

end Step

section Rounds

variable [LawfulArithmetic α] {fresh : Nat → String} {top : Nat} {s : State α}
  {weight : String → Nat}

omit [LawfulArithmetic α] in
theorem consistent_start {as : List (Assignment α)} (hc : ∀ a ∈ as, Canonical a.rhs)
    (hspare : ∀ a ∈ as, ∀ n < top, sym (fresh n) ∉ a.rhs.inputs) :
    Consistent fresh top ⟨[], as⟩ weight where
  names := rfl
  canonical := hc
  spare a ha n hn _ := hspare a ha n hn
  operation _ hd := absurd hd List.not_mem_nil
  size _ hd := absurd hd List.not_mem_nil
  once _ hd := absurd hd List.not_mem_nil
  read _ hd := absurd hd List.not_mem_nil

theorem Consistent.rounds_induct {P : State α → Prop} (hf : Function.Injective fresh)
    (hstep : ∀ s weight, Consistent fresh top s weight →
      s.defs.length + s.chosen.length ≤ top → s.chosen ≠ [] → P s → P (s.advance fresh s.chosen))
    (h : Consistent fresh top s weight) (hP : P s) {n : Nat}
    (hroom : (s.rounds fresh n).defs.length ≤ top) :
    ∃ weight, Consistent fresh top (s.rounds fresh n) weight ∧ P (s.rounds fresh n) := by
  refine State.rounds_induct (P := fun s => s.defs.length ≤ top →
    ∃ weight, Consistent fresh top s weight ∧ P s) (fun s s' h hr hroom => ?_)
    (fun _ => ⟨weight, h, hP⟩) n hroom
  obtain ⟨hne, rfl⟩ := State.round?_eq_some.1 hr
  rw [State.length_defs_advance] at hroom
  obtain ⟨weight, h, hP⟩ := h (by omega)
  exact ⟨_, h.advance hroom (choice_chosen hne) hf, hstep s weight h hroom hne hP⟩

end Rounds

section Schedule

variable {fresh : Nat → String} {top : Nat} {s : State α} {weight : String → Nat}
  (h : Consistent fresh top s weight)

include h

theorem Consistent.lighter {d : Assignment α} (hd : d ∈ s.defs) {t u : String}
    (hl : d.lhs = sym t) (hu : sym u ∈ d.rhs.inputs) : weight u < weight t := by
  have hop := h.operation d hd
  have hinner : sym u ∈ d.rhs.inner := by
    have hsub := (mem_inputs.1 hu).1
    rw [subterms_eq_inner, List.mem_cons] at hsub
    rcases hsub with heq | hin
    · rw [← heq] at hop
      exact absurd hop (by simp [isOperation, isLeaf])
    · exact hin
  rw [h.size d hd t hl, ← size_sym (α := α) weight u]
  exact size_inner_lt weight hinner

theorem Consistent.needed {d : Assignment α} (hd : d ∈ s.defs) {t : String}
    (ht : sym t ∈ d.rhs.inputs) (htemp : Temp s.defs t) : Needed s.defs s.assignments t := by
  obtain ⟨b, hb⟩ := exists_weight_bound s.defs weight
  -- Induction from the heaviest definitions down, since what reads a definition is heavier.
  have hread : ∀ n, (∀ d ∈ s.defs, ∀ u, d.lhs = sym u → b - weight u < n →
      ∀ t, sym t ∈ d.rhs.inputs → Temp s.defs t → Needed s.defs s.assignments t) := by
    intro n
    induction n with
    | zero => exact fun d _ u _ hlt => absurd hlt (Nat.not_lt_zero _)
    | succ n ih =>
      have hneeded : ∀ d ∈ s.defs, ∀ u, d.lhs = sym u → b - weight u < n + 1 →
          Read s.all u → Needed s.defs s.assignments u := by
        rintro d hd u hl hlt ⟨a, ha, hua⟩
        rcases List.mem_append.1 ha with ha | ha
        · obtain ⟨m, -, hname⟩ := h.exists_name ha
          have hlight := h.lighter ha hname hua
          have hbound := hb _ ⟨a, ha, hname⟩
          exact ih a ha _ hname (by omega) u hua ⟨d, hd, hl⟩
        · exact .read ha hua ⟨d, hd, hl⟩
      intro d hd u hl hlt t ht htemp
      rcases h.read d hd u hl with hr | ⟨d', hd', u', hl', ⟨v, x, -, hrhs, heq⟩, hr⟩
      · exact .through hd hl (hneeded d hd u hl hlt hr) ht htemp
      · -- Nobody reads `d`, but the definition of its negation is read and reads the same.
        have hin : x ∈ d'.rhs.inner := by
          rw [hrhs]
          exact mem_inner.2 ⟨x, by simp [args], mem_subterms_self _⟩
        have hheavy := size_inner_lt weight hin
        rw [size_congr_beq heq, ← h.size d hd u hl, ← h.size d' hd' u' hl'] at hheavy
        refine .through hd' hl' (hneeded d' hd' u' hl' (by omega) hr) ?_ htemp
        rw [hrhs]
        exact mem_inputs_args ⟨x, by simp [args], inputs_congr heq ▸ ht⟩
  obtain ⟨m, -, hname⟩ := h.exists_name hd
  exact hread (b - weight (fresh m) + 1) d hd _ hname (Nat.lt_succ_self _) t ht htemp

theorem Consistent.scalar : ∀ d ∈ s.defs, d.lhs.isSymbol = true := by
  intro d hd
  obtain ⟨n, -, hname⟩ := h.exists_name hd
  rw [hname]
  rfl

theorem Consistent.nodup (hf : Function.Injective fresh) : (s.defs.map (·.lhs)).Nodup := by
  rw [h.names]
  exact List.nodup_range.map fun m n hmn => hf (sym.inj hmn)

theorem Consistent.orderly (hf : Function.Injective fresh)
    (htargets : ∀ a ∈ s.assignments, ∀ t, Temp s.defs t → a.lhs ≠ sym t) :
    Orderly s.defs s.assignments weight :=
  ⟨h.scalar, h.nodup hf, fun _ hd _ _ hl hu _ => h.lighter hd hl hu, fun _ hd _ => h.needed hd,
    htargets⟩

end Schedule

end Stencil.Sharing
