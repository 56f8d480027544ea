import Stencil.Proofs.Expr.Abbreviation
import Stencil.Proofs.Expr.Insertion
import Stencil.Proofs.Expr.Load

namespace Stencil.Expr

variable {α : Type} [Arithmetic α]

section Congr

variable {a b : Expr α}

theorem size_congr_beq {weight : String → Nat} (h : (a == b) = true) :
    size weight a = size weight b := by
  have hall : ∀ {as bs : List (Expr α)},
      List.Forall₂ (fun a b => (a == b) = true ∧ size weight a = size weight b) as bs →
        (as.map (size weight)).sum = (bs.map (size weight)).sum := by
    intro as bs h
    induction h with
    | nil => rfl
    | cons hab _ ih => rw [List.map_cons, List.map_cons, List.sum_cons, List.sum_cons, hab.2, ih]
  refine beqInduct (P := fun a b => size weight a = size weight b) (fun _ _ _ => rfl)
    (fun _ => rfl) (fun _ => rfl) (fun as bs h => ?_) (fun as bs h => ?_) (fun b x c y hb hx => ?_)
    (fun f as bs h => ?_) h
  · rw [size_of_not_symbol weight rfl, size_of_not_symbol weight rfl]
    exact congrArg _ (hall h)
  · rw [size_of_not_symbol weight rfl, size_of_not_symbol weight rfl]
    exact congrArg _ (hall h)
  · rw [size_of_not_symbol weight rfl, size_of_not_symbol weight rfl]
    simp [args, hb.2, hx.2]
  · rw [size_of_not_symbol weight rfl, size_of_not_symbol weight rfl]
    exact congrArg _ (hall h)

theorem isOperation_congr (h : (a == b) = true) : a.isOperation = b.isOperation :=
  congrArg not (isLeaf_of_rank (rank_eq_of_beq h))

variable [LawfulLiterals α]

theorem map_kind_inner (h : (a == b) = true) : a.inner.map kind = b.inner.map kind := by
  have hall : ∀ {as bs : List (Expr α)}, List.Forall₂ (fun a b =>
      (a == b) = true ∧ a.inner.map kind = b.inner.map kind) as bs →
        (as.flatMap subterms).map kind = (bs.flatMap subterms).map kind := by
    intro as bs h
    induction h with
    | nil => rfl
    | cons hab _ ih =>
      rw [List.flatMap_cons, List.flatMap_cons, List.map_append, List.map_append, ih,
        subterms_eq_inner, subterms_eq_inner, List.map_cons, List.map_cons, kind_eq.2 hab.1, hab.2]
  refine beqInduct (P := fun a b => a.inner.map kind = b.inner.map kind) (fun _ _ _ => rfl)
    (fun _ => rfl) (fun _ => rfl) (fun as bs h => hall h) (fun as bs h => hall h)
    (fun b x c y hb hx => ?_) (fun f as bs h => hall h) h
  exact hall (.cons hb (.cons hx .nil))

theorem count_of_map_kind {as bs : List (Expr α)} (h : as.map kind = bs.map kind) (c : Expr α) :
    as.count c = bs.count c := by
  induction map_kind_eq.1 h with
  | nil => rfl
  | cons hab _ ih => rw [List.count_cons, List.count_cons, ih (map_kind_eq.2 ‹_›), BEq.congr_left hab]

omit [LawfulLiterals α] in
theorem beq_of_mem_inner {k e : Expr α} (h : k ∈ e.inner) : (k == e) = false := by
  by_contra heq
  rw [Bool.not_eq_false] at heq
  exact (size_inner_lt (fun _ => 0) h).ne (size_congr_beq heq)

theorem count_subterms_mul_le (c k e : Expr α) :
    e.subterms.count k * k.inner.count c ≤ e.subterms.count c := by
  induction e using inductArgs with
  | node e ih =>
    have hinner : e.inner.count k * k.inner.count c ≤ e.inner.count c := by
      rw [inner, List.count_flatMap, List.count_flatMap, ← List.sum_map_mul_right]
      exact List.sum_le_sum ih
    rw [subterms_eq_inner, List.count_cons, List.count_cons]
    by_cases he : (e == k) = true
    · have hzero : e.inner.count k = 0 := by
        refine List.countP_eq_zero.2 fun x hx hxk => ?_
        exact absurd (beq_of_mem_inner hx) (by simp [BEq.trans hxk (BEq.symm he)])
      rw [hzero, if_pos he, Nat.zero_add, Nat.one_mul, ← count_of_map_kind (map_kind_inner he)]
      omega
    · rw [if_neg he, Nat.add_zero]
      omega

theorem count_inner_mul_le (c k e : Expr α) :
    e.inner.count k * k.inner.count c ≤ e.inner.count c := by
  rw [inner, List.count_flatMap, List.count_flatMap, ← List.sum_map_mul_right]
  exact List.sum_le_sum fun a _ => count_subterms_mul_le c k a

end Congr

theorem rootCost_of_keeps [LawfulArithmetic α] {weighted : Bool} {e : Expr α} (hc : Canonical e)
    {f : Expr α → Expr α} (h : ∀ a ∈ e.args, Keeps a (f a)) :
    rootCost weighted (rebuild e (e.args.map f)) = rootCost weighted e := by
  obtain ⟨hfits, hflat⟩ := fits_of_keeps hc h
  obtain ⟨as, has, heq⟩ := exists_arrange hfits
  rw [hflat] at has
  rw [heq]
  cases e with
  | num | sym | access => rfl
  | add es =>
    have hlen := ((sort_perm as).trans has).length_eq
    rw [args, List.length_map] at hlen
    rw [arrange, rootCost, rootCost, hlen]
  | mul es =>
    have hcount := ((sort_perm as).trans has).countP_eq fun a => !a.isMinusOne
    rw [args, List.countP_map] at hcount
    rw [arrange, rootCost, rootCost, hcount]
    congr 1
    refine List.countP_congr fun a ha => ?_
    rw [Function.comp_apply, isMinusOne, isMinusOne, (h a ha).number?]
  | pow b x =>
    obtain rfl : as = [f b, f x] := has
    simp only [arrange, rebuildRaw, rootCost, powerCost, integer?, (h x (by simp [args])).number?]
  | call => rfl

structure Renames (fresh : Nat → String) (keys : List (Expr α)) (s : Substitution α) : Prop where
  get : ∀ e t, s.get? e = some t ↔
    ∃ n k, keys[n]? = some k ∧ (k == e) = true ∧ t = sym (fresh n)
  operation : ∀ k ∈ keys, k.isOperation = true

def Unnamed (fresh : Nat → String) (keys : List (Expr α)) (e : Expr α) : Prop :=
  ∀ n < keys.length, sym (fresh n) ∉ e.inputs

section Renames

variable {fresh : Nat → String} {keys : List (Expr α)} {s : Substitution α} {e : Expr α}

omit [Arithmetic α] in
theorem Unnamed.arg {a : Expr α} (h : Unnamed fresh keys e) (ha : a ∈ e.args) :
    Unnamed fresh keys a := fun n hn hi => h n hn (mem_inputs_args ⟨a, ha, hi⟩)

omit [Arithmetic α] in
theorem Unnamed.subterms {a : Expr α} (h : Unnamed fresh keys e) (ha : a ∈ e.subterms) :
    Unnamed fresh keys a := fun n hn hi => h n hn (mem_inputs_trans ha hi)

variable (hs : Renames fresh keys s)

include hs

theorem Renames.operation_of_get {t : Expr α} (h : s.get? e = some t) : e.isOperation = true := by
  obtain ⟨n, k, hn, heq, -⟩ := (hs.get e t).1 h
  exact isOperation_congr heq ▸ hs.operation k (List.mem_of_getElem? hn)

theorem Renames.inserts : Inserts s := fun k t h => by
  obtain ⟨n, -, -, -, rfl⟩ := (hs.get k t).1 h
  have hop := hs.operation_of_get h
  exact ⟨isNumber_of_isLeaf (by simpa [isOperation] using hop), rfl⟩

variable [LawfulArithmetic α]

theorem Renames.keeps (hc : Canonical e) : Keeps e (replace s e) := hs.inserts.keeps hc

theorem Renames.fits (hc : Canonical e) : Fits e (e.args.map (replace s)) ∧
    Reorders e (rebuild e (e.args.map (replace s))).args (e.args.map (replace s)) := by
  obtain ⟨hfits, hflat⟩ := fits_of_keeps hc fun a ha => hs.keeps (hc.args a ha)
  have hargs := reorders_args hfits
  rw [hflat] at hargs
  exact ⟨hfits, hargs⟩

theorem Renames.cases {P : Prop} (hc : Canonical e)
    (key : ∀ n k, keys[n]? = some k → (k == e) = true → replace s e = sym (fresh n) → P)
    (leaf : s.get? e = none → e.args = [] → replace s e = e → P)
    (node : s.get? e = none → e.args ≠ [] →
      (replace s e).args.Perm (e.args.map (replace s)) → (replace s e).rank = e.rank →
      replace s e = rebuild e (e.args.map (replace s)) → P) : P := by
  cases hget : s.get? e with
  | some t =>
    obtain ⟨n, k, hn, heq, rfl⟩ := (hs.get e t).1 hget
    exact key n k hn heq (by rw [replace_eq, hget])
  | none =>
    by_cases hargs : e.args.isEmpty = true
    · exact leaf hget (List.isEmpty_iff.1 hargs) (by simp [replace_eq, hget, hargs])
    · have hrep : replace s e = rebuild e (e.args.map (replace s)) := by
        simp [replace_eq, hget, hargs]
      obtain ⟨hfits, hargs'⟩ := hs.fits hc
      exact node hget (fun hnil => hargs (List.isEmpty_iff.2 hnil)) (hrep ▸ hargs'.perm)
        (hrep ▸ rank_rebuild hfits) hrep

theorem Renames.subterms_replace (hc : Canonical e) :
    (replace s e).subterms.Subperm (e.subterms.map (replace s)) := by
  induction e using inductArgs with
  | node e ih =>
    rw [subterms_eq (replace s e), subterms_eq e, List.map_cons, List.subperm_cons]
    refine hs.cases hc (fun n k _ _ hrep => ?_) (fun _ hargs hrep => ?_) fun _ _ hperm _ _ => ?_
    · rw [hrep]
      exact List.nil_subperm
    · rw [hrep, hargs]
      exact .refl _
    · have hflat := hperm.flatMap_right subterms
      rw [List.flatMap_map] at hflat
      rw [List.map_flatMap]
      exact hflat.subperm.trans (flatMap_subperm fun a ha => ih a ha (hc.args a ha))

theorem Renames.inner_replace (hc : Canonical e) :
    (replace s e).inner.Subperm (e.inner.map (replace s)) := by
  have hsub := hs.subterms_replace hc
  rwa [subterms_eq_inner, subterms_eq_inner, List.map_cons, List.subperm_cons] at hsub

theorem Renames.inputs_replace (hc : Canonical e) {i : Expr α} (h : i ∈ (replace s e).inputs) :
    i ∈ e.inputs ∨ ∃ n k x, keys[n]? = some k ∧ x ∈ e.subterms ∧ (k == x) = true ∧
      i = sym (fresh n) := by
  obtain ⟨hsub, hinput⟩ := mem_inputs.1 h
  obtain ⟨x, hx, rfl⟩ := List.mem_map.1 ((hs.subterms_replace hc).subset hsub)
  refine hs.cases (hc.subterms x hx) (fun n k hn heq hrep => ?_) (fun _ _ hrep => ?_)
    fun _ hargs _ hrank _ => ?_
  · exact .inr ⟨n, k, x, hn, hx, heq, hrep⟩
  · rw [hrep] at hinput ⊢
    exact .inl (mem_inputs.2 ⟨hx, hinput⟩)
  · have hleaf := isLeaf_of_args (mt List.isEmpty_iff.1 hargs)
    rw [isInput_of_rank hrank, isInput_of_isLeaf hleaf] at hinput
    exact absurd hinput Bool.false_ne_true

theorem Renames.mem_inputs_replace (hc : Canonical e) {i : Expr α} (h : i ∈ e.inputs) :
    i ∈ (replace s e).inputs ∨ ∃ k ∈ keys, i ∈ k.inputs := by
  refine (hs.inserts.mem_inputs_replace_or hc h).imp_right fun ⟨x, hx, hi⟩ => ?_
  obtain ⟨t, ht⟩ := hx.exists_get?
  obtain ⟨n, k, hn, heq, -⟩ := (hs.get x t).1 ht
  exact ⟨k, List.mem_of_getElem? hn, inputs_congr heq ▸ hi⟩

theorem Renames.mem_inputs_of_key (hc : Canonical e) {x : Expr α} (hx : x ∈ e.subterms)
    (hget : (s.get? x).isSome = true) : ∃ n k y, keys[n]? = some k ∧ (k == y) = true ∧
      y ∈ e.subterms ∧ x ∈ y.subterms ∧ sym (fresh n) ∈ (replace s e).inputs := by
  induction e using inductArgs with
  | node e ih =>
    refine hs.cases hc (fun n k hn heq hrep => ?_) (fun hnone hargs _ => ?_)
      fun hnone _ hperm _ _ => ?_
    · exact ⟨n, k, e, hn, heq, mem_subterms_self e, hx,
        by simp [hrep, inputs_of_isInput, isInput, isSymbol]⟩
    · rw [mem_subterms, hargs] at hx
      rcases hx with rfl | ⟨a, ha, -⟩
      · simp [hnone] at hget
      · exact absurd ha List.not_mem_nil
    · rcases mem_subterms.1 hx with rfl | ⟨a, ha, hxa⟩
      · simp [hnone] at hget
      · obtain ⟨n, k, y, hn, heq, hy, hxy, hmem⟩ := ih a ha (hc.args a ha) hxa
        refine ⟨n, k, y, hn, heq, mem_subterms.2 (.inr ⟨a, ha, hy⟩), hxy,
          mem_inputs_args ⟨replace s a, ?_, hmem⟩⟩
        exact hperm.mem_iff.2 (List.mem_map.2 ⟨a, ha, rfl⟩)

theorem Renames.size_replace {weight weight' : String → Nat} (hc : Canonical e)
    (hold : ∀ t, sym t ∈ e.inputs → weight' t = weight t)
    (hnames : ∀ n k, keys[n]? = some k → weight' (fresh n) = size weight k) :
    size weight' (replace s e) = size weight e := by
  induction e using inductArgs with
  | node e ih =>
    refine hs.cases hc (fun n k hn heq hrep => ?_) (fun _ _ hrep => ?_)
      fun _ hargs hperm hrank _ => ?_
    · rw [hrep, size_sym, hnames n k hn, size_congr_beq heq]
    · rw [hrep]
      exact size_congr hold
    · have hsym : e.isSymbol = false := by cases e <;> simp_all [args, isSymbol]
      rw [size_of_not_symbol weight' ((isSymbol_of_rank hrank).trans hsym),
        size_of_not_symbol weight hsym, (hperm.map _).sum_eq, List.map_map]
      congr 2
      exact List.map_congr_left fun a ha =>
        ih a ha (hc.args a ha) fun t ht => hold t (mem_inputs_args ⟨a, ha, ht⟩)

theorem Renames.replace_unnamed (hc : Canonical e) (h : Unnamed fresh keys (replace s e)) :
    (replace s e == e) = true := by
  induction e using inductArgs with
  | node e ih =>
    refine hs.cases hc (fun n k hn _ hrep => ?_) (fun _ _ hrep => ?_) fun _ _ hperm _ hrep => ?_
    · refine absurd ?_ (h n (List.getElem?_eq_some_iff.1 hn).1)
      simp [hrep, inputs_of_isInput, isInput, isSymbol]
    · rw [hrep]
      exact BEq.rfl
    · rw [hrep]
      refine kind_eq.1 (fits_map_of_kinds hc fun a ha => kind_eq.2 (ih a ha (hc.args a ha) ?_)).2
      exact h.arg (hperm.mem_iff.2 (List.mem_map.2 ⟨a, ha, rfl⟩))

theorem Renames.replace_congr {a b : Expr α} (ha : Canonical a) (hb : Canonical b)
    (h : (a == b) = true) : (replace s a == replace s b) = true := by
  induction a using inductArgs generalizing b with
  | node a ih =>
    have hget := Table.get?_congr s h
    have hkind := args_of_kind (kind_eq.2 h)
    refine hs.cases ha (fun n k hn heq hrep => ?_) (fun hnone hargs hrep => ?_)
      fun hnone hargs _ _ hrep => ?_
    · have hb' : replace s b = sym (fresh n) := by
        rw [replace_eq, (hs.get b _).2 ⟨n, k, hn, BEq.trans heq h, rfl⟩]
      rw [hrep, hb']
      exact BEq.rfl
    · have hargs' : b.args = [] := by
        rw [hargs, List.map_nil, eq_comm, List.map_eq_nil_iff] at hkind
        exact hkind
      rw [hrep, replace_eq, ← hget, hnone]
      simp [hargs', h]
    · have hne : ¬ b.args.isEmpty = true := by
        intro hempty
        rw [List.isEmpty_iff.1 hempty, List.map_nil, List.map_eq_nil_iff] at hkind
        exact hargs hkind
      have hall := map_kind_eq.1 hkind
      have hmap : (a.args.map (replace s)).map kind = (b.args.map (replace s)).map kind := by
        rw [map_kind_eq, List.forall₂_map_left_iff, List.forall₂_map_right_iff]
        refine List.forall₂_iff_zip.2 ⟨hall.length_eq, fun {x y} hxy => ?_⟩
        have hmem := List.of_mem_zip hxy
        exact ih x hmem.1 (ha.args x hmem.1) (hb.args y hmem.2)
          ((List.forall₂_iff_zip.1 hall).2 hxy)
      have hb' : replace s b = rebuild b (b.args.map (replace s)) := by
        simp [replace_eq s b, ← hget, hnone, hne]
      rw [hrep, hb']
      exact kind_eq.1 (kind_rebuild_of_kind (kind_eq.2 h) (hs.fits ha).1 (List.length_map _) hmap)

theorem Renames.abbreviates (hf : Function.Injective fresh) (hc : Canonical e)
    (h : Unnamed fresh keys e) :
    Abbreviates (meanings fresh (fun n => keys[n]?) fun _ => none) (replace s e) e := by
  have hself : Abbreviates (fun _ => none) e e := .refl hc fun _ _ => rfl
  refine hself.replace (fun k hk t ht => ?_) fun t ht _ => ?_
  · obtain ⟨n, key, hn, heq, rfl⟩ := (hs.get k t).1 ht
    have hk' : Abbreviates (fun _ => none) k k := .refl (hc.subterms k hk) fun _ _ => rfl
    exact abbreviates_sym ((meanings_name hf _ n).trans hn) (BEq.trans heq (BEq.symm hk'.value))
  · by_cases hname : ∃ n, t = fresh n
    · obtain ⟨n, rfl⟩ := hname
      rw [meanings_name hf, List.getElem?_eq_none_iff]
      exact not_lt.1 fun hn => h n hn ht
    · exact meanings_other fun n hn => hname ⟨n, hn⟩

theorem Renames.replace_injective (hf : Function.Injective fresh) {a b : Expr α}
    (ha : Canonical a) (hb : Canonical b) (ha' : Unnamed fresh keys a)
    (hb' : Unnamed fresh keys b) (h : (replace s a == replace s b) = true) : (a == b) = true :=
  (hs.abbreviates hf ha ha').unique (hs.abbreviates hf hb hb') h

end Renames

end Stencil.Expr
