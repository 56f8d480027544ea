import Mathlib.Logic.Function.Basic
import Stencil.Proofs.Expr.Hereditary
import Stencil.Proofs.Expr.Operands

/-!
Expressions in which names stand for other expressions. Writing the names out loses nothing as long
as the operands of every node fit when they are written out, and substitution of expressions by
what abbreviates them keeps it so.
-/

namespace Stencil.Expr

variable {α : Type} [Arithmetic α]

def expand (T : String → Option (Expr α)) : Expr α → Expr α :=
  fold fun e below =>
    match e with
    | sym s => (T s).getD (sym s)
    | e => rebuild e below

variable {T T' : String → Option (Expr α)}

theorem expand_sym (s : String) : expand T (sym s) = (T s).getD (sym s) := rfl

theorem expand_num (v : α) : expand T (num v) = num v := rfl

theorem expand_of_not_symbol {e : Expr α} (h : e.isSymbol = false) :
    expand T e = rebuild e (e.args.map (expand T)) := by
  rw [expand, fold_eq]
  cases e <;> first | rfl | simp [isSymbol] at h

theorem expand_congr {x : Expr α} (h : ∀ t, sym t ∈ x.inputs → T' t = T t) :
    expand T' x = expand T x := by
  induction x using inductArgs with
  | node x ih =>
    by_cases hsym : x.isSymbol = true
    · obtain ⟨t, rfl⟩ := exists_sym hsym
      rw [expand_sym, expand_sym, h t (by simp [inputs_of_isInput, isInput, isSymbol])]
    · rw [Bool.not_eq_true] at hsym
      rw [expand_of_not_symbol hsym, expand_of_not_symbol hsym]
      exact congrArg _ (List.map_congr_left fun a ha =>
        ih a ha fun t ht => h t (mem_inputs_args ⟨a, ha, ht⟩))

noncomputable def meanings (fresh : Nat → String) (f : Nat → Option (Expr α))
    (T : String → Option (Expr α)) : String → Option (Expr α) := Function.extend fresh f T

omit [Arithmetic α] in
theorem meanings_name {fresh : Nat → String} (hf : Function.Injective fresh)
    (f : Nat → Option (Expr α)) (n : Nat) : meanings fresh f T (fresh n) = f n :=
  hf.extend_apply f T n

omit [Arithmetic α] in
theorem meanings_other {fresh : Nat → String} {f : Nat → Option (Expr α)} {t : String}
    (h : ∀ n, t ≠ fresh n) : meanings fresh f T t = T t :=
  Function.extend_apply' f T t fun ⟨n, hn⟩ => h n hn.symm

structure Abbreviates (T : String → Option (Expr α)) (x e : Expr α) : Prop where
  canonical : Canonical x
  fits : ∀ n ∈ x.subterms, Fits n (n.args.map (expand T))
  value : (expand T x == e) = true

section LawfulArithmetic

variable [LawfulArithmetic α] {x e : Expr α}

theorem Abbreviates.self (h : Abbreviates T x e) : Abbreviates T x (expand T x) :=
  ⟨h.canonical, h.fits, BEq.rfl⟩

theorem Abbreviates.congr {e' : Expr α} (h : Abbreviates T x e) (he : (e == e') = true) :
    Abbreviates T x e' :=
  ⟨h.canonical, h.fits, BEq.trans h.value he⟩

theorem Abbreviates.args (h : Abbreviates T x e) : ∀ a ∈ x.args, Abbreviates T a (expand T a) :=
  fun a ha => ⟨h.canonical.args a ha,
    fun n hn => h.fits n (mem_subterms.2 (.inr ⟨a, ha, hn⟩)), BEq.rfl⟩

theorem Abbreviates.subterms (h : Abbreviates T x e) :
    ∀ a ∈ x.subterms, Abbreviates T a (expand T a) :=
  fun a ha => ⟨h.canonical.subterms a ha,
    fun n hn => h.fits n (mem_subterms_trans ha hn), BEq.rfl⟩

omit [LawfulArithmetic α] in
theorem Abbreviates.agree (h : Abbreviates T x e) (hT : ∀ t, sym t ∈ x.inputs → T' t = T t) :
    Abbreviates T' x e where
  canonical := h.canonical
  fits n hn := by
    have hargs : n.args.map (expand T') = n.args.map (expand T) :=
      List.map_congr_left fun a ha => expand_congr fun t ht =>
        hT t (mem_inputs_trans hn (mem_inputs_args ⟨a, ha, ht⟩))
    rw [hargs]
    exact h.fits n hn
  value := (expand_congr hT).symm ▸ h.value

theorem Abbreviates.mem_inputs (h : Abbreviates T x e) {i : Expr α} :
    i ∈ e.inputs ↔ ∃ j ∈ x.inputs, i ∈ (expand T j).inputs := by
  rw [← inputs_congr h.value]
  replace h := h.self
  induction x using inductArgs with
  | node x ih =>
    by_cases hinput : x.isInput = true
    · rw [inputs_of_isInput hinput]
      simp
    · rw [Bool.not_eq_true] at hinput
      have hsym : x.isSymbol = false := by cases x <;> simp_all [isInput]
      have hfits := h.fits x (mem_subterms_self x)
      have hargs : i ∈ (expand T x).inputs ↔ ∃ a ∈ x.args, i ∈ (expand T a).inputs := by
        rw [expand_of_not_symbol hsym]
        constructor
        · intro hi
          obtain ⟨y, hy, hiy⟩ := exists_of_mem_inputs_rebuild hfits hinput hi
          obtain ⟨a, ha, rfl⟩ := List.mem_map.1 hy
          exact ⟨a, ha, hiy⟩
        · rintro ⟨a, ha, hi⟩
          exact mem_inputs_rebuild_of_fits hfits (List.mem_map_of_mem ha) hi
      rw [hargs]
      simp only [mem_inputs_iff hinput]
      constructor
      · rintro ⟨a, ha, hi⟩
        obtain ⟨j, hj, hij⟩ := (ih a ha (h.args a ha)).1 hi
        exact ⟨j, ⟨a, ha, hj⟩, hij⟩
      · rintro ⟨j, ⟨a, ha, hj⟩, hij⟩
        exact ⟨a, ha, (ih a ha (h.args a ha)).2 ⟨j, hj, hij⟩⟩

omit [LawfulArithmetic α] in
theorem abbreviates_sym {t : String} {k : Expr α} (hT : T t = some k) (hk : (k == e) = true) :
    Abbreviates T (sym t) e where
  canonical := .sym t
  fits n hn := by
    rw [subterms_of_leaf rfl, List.mem_singleton] at hn
    exact hn ▸ rfl
  value := by rwa [expand_sym, hT]

theorem fits_map_of_kinds {f : Expr α → Expr α} (hc : Canonical e)
    (h : ∀ a ∈ e.args, (f a).kind = a.kind) :
    Fits e (e.args.map f) ∧ (rebuild e (e.args.map f)).kind = e.kind := by
  have hmap : e.args.map kind = (e.args.map f).map kind := by
    rw [List.map_map]
    exact List.map_congr_left fun a ha => (h a ha).symm
  have hflat : Reorders e ((flatten e e.args).map kind) ((flatten e (e.args.map f)).map kind) :=
    .of_eq (map_kind_flatten hmap)
  exact ⟨hc.fits.of_kinds hflat, (kind_rebuild hc.fits hflat).symm.trans (kind_rebuild_self hc)⟩

theorem Abbreviates.refl (hc : Canonical e) (h : ∀ t, sym t ∈ e.inputs → T t = none) :
    Abbreviates T e e := by
  induction e using inductArgs with
  | node e ih =>
    by_cases hsym : e.isSymbol = true
    · obtain ⟨s, rfl⟩ := exists_sym hsym
      have hs : T s = none := h s (by simp [inputs_of_isInput, isInput, isSymbol])
      refine ⟨hc, fun n hn => ?_, ?_⟩
      · rw [subterms_of_leaf rfl, List.mem_singleton] at hn
        exact hn ▸ rfl
      · rw [expand_sym, hs]
        exact BEq.rfl
    · rw [Bool.not_eq_true] at hsym
      have hargs : ∀ a ∈ e.args, Abbreviates T a a := fun a ha =>
        ih a ha (hc.args a ha) fun t ht => h t (mem_inputs_args ⟨a, ha, ht⟩)
      obtain ⟨hfits, hkind⟩ := fits_map_of_kinds hc fun a ha => kind_eq.2 (hargs a ha).value
      refine ⟨hc, fun n hn => ?_, ?_⟩
      · rcases mem_subterms.1 hn with rfl | ⟨a, ha, hn⟩
        · exact hfits
        · exact (hargs a ha).fits n hn
      · rw [expand_of_not_symbol hsym]
        exact kind_eq.1 hkind

theorem Abbreviates.unique {y e' : Expr α} (hx : Abbreviates T x e) (hy : Abbreviates T y e')
    (h : (x == y) = true) : (e == e') = true := by
  refine BEq.trans (BEq.symm hx.value) (BEq.trans ?_ hy.value)
  replace hx := hx.self
  replace hy := hy.self
  induction x using inductArgs generalizing y with
  | node x ih =>
    by_cases hsym : x.isSymbol = true
    · obtain ⟨t, rfl⟩ := exists_sym hsym
      obtain rfl : y = sym t := sym_beq.1 h
      exact BEq.rfl
    · rw [Bool.not_eq_true] at hsym
      have hkind := kind_eq.2 h
      have hargs : (x.args.map (expand T)).map kind = (y.args.map (expand T)).map kind := by
        have hall := map_kind_eq.1 (args_of_kind hkind)
        rw [map_kind_eq, List.forall₂_map_left_iff, List.forall₂_map_right_iff]
        refine List.forall₂_iff_zip.2 ⟨hall.length_eq, fun {a b} hab => ?_⟩
        have hmem := List.of_mem_zip hab
        exact ih a hmem.1 ((List.forall₂_iff_zip.1 hall).2 hab) (hx.args a hmem.1)
          (hy.args b hmem.2)
      rw [expand_of_not_symbol hsym,
        expand_of_not_symbol ((isSymbol_of_rank (rank_of_kind hkind)).symm.trans hsym)]
      exact kind_eq.1 (kind_rebuild_of_kind hkind (hx.fits x (mem_subterms_self x))
        (List.length_map _) hargs)

section Rebuild

variable {xs : List (Expr α)}

theorem flatten_expand (h : ∀ x ∈ xs, Abbreviates T x (expand T x)) :
    (flatten e (xs.map (expand T))).Perm (flatten e ((flatten e xs).map (expand T))) := by
  have hone : ∀ x ∈ xs, (operands e (expand T x)).Perm
      ((operands e x).flatMap fun y => operands e (expand T y)) := by
    intro x hx
    rcases operands_cases e x with hself | ⟨hargs, hop, hac⟩
    · rw [hself, List.flatMap_singleton]
    · have hsym : x.isSymbol = false := by cases x <;> simp_all [isSum, isProduct, isSymbol]
      have hfits := (h x hx).fits x (mem_subterms_self x)
      have hperm := (reorders_args hfits).perm
      rw [flatten_eq_flatMap, List.flatMap_map, hop] at hperm
      rw [expand_of_not_symbol hsym, ← hop, operands_rebuild hfits hac, hop, hargs]
      exact hperm
  rw [flatten_eq_flatMap, flatten_eq_flatMap, flatten_eq_flatMap, List.flatMap_map,
    List.flatMap_map, List.flatMap_assoc]
  clear h
  induction xs with
  | nil => exact .nil
  | cons x xs ih =>
    rw [List.flatMap_cons, List.flatMap_cons]
    exact (hone x List.mem_cons_self).append (ih fun y hy => hone y (List.mem_cons_of_mem x hy))

theorem reorders_flatten_expand (h : ∀ x ∈ xs, Abbreviates T x (expand T x)) :
    Reorders e (flatten e (xs.map (expand T))) (flatten e ((flatten e xs).map (expand T))) := by
  cases e <;> first | exact flatten_expand h | rfl

omit [LawfulArithmetic α] in
theorem Canonical.one_le_operands (h : Canonical x) : 1 ≤ (operands e x).length := by
  rcases operands_cases e x with hx | ⟨hx, -, hac⟩
  · rw [hx, List.length_singleton]
  · rw [hx]
    exact Nat.le_of_succ_le (h.two_le_args hac)

omit [LawfulArithmetic α] in
theorem length_le_flatten (h : ∀ x ∈ xs, Canonical x) : xs.length ≤ (flatten e xs).length := by
  rw [flatten_eq_flatMap]
  induction xs with
  | nil => exact le_rfl
  | cons x xs ih =>
    have hx := (h x List.mem_cons_self).one_le_operands (e := e)
    have hxs := ih fun y hy => h y (List.mem_cons_of_mem x hy)
    rw [List.flatMap_cons, List.length_append, List.length_cons]
    omega

omit [LawfulArithmetic α] in
theorem countP_isNumber_le (xs : List (Expr α)) :
    xs.countP isNumber ≤ (flatten e (xs.map (expand T))).countP isNumber := by
  rw [flatten_eq_flatMap]
  induction xs with
  | nil => exact le_rfl
  | cons x xs ih =>
    rw [List.map_cons, List.flatMap_cons, List.countP_append, List.countP_cons]
    cases x with
    | num v =>
      have hone : (operands e (expand T (num v))).countP isNumber = 1 := by
        rw [expand_num, operands_eq]
        simp [isSum, isProduct, isNumber]
      rw [hone]
      simp only [isNumber, if_true]
      omega
    | _ =>
      simp only [isNumber, Bool.false_eq_true, if_false]
      omega

omit [LawfulArithmetic α] in
theorem normal_of_expand {same : Expr α → Bool} {dropped : α → Prop}
    (hflat : ∀ a ∈ xs, same a = false) (htwo : 2 ≤ xs.length)
    (h : Normal same dropped (flatten e (xs.map (expand T)))) : Normal same dropped xs where
  flat := hflat
  literal := by
    have hle := countP_isNumber_le (e := e) (T := T) xs
    have hone := h.literal
    rw [length_literals] at hone ⊢
    omega
  proper v hv := by
    refine h.proper v (mem_literals.2 (mem_flatten.2 ⟨num v, ?_, ?_⟩))
    · exact List.mem_map.2 ⟨num v, mem_literals.1 hv, rfl⟩
    · rw [operands_eq]
      simp [isSum, isProduct]
  two := htwo

theorem fits_of_expand (hxs : ∀ x ∈ xs, Abbreviates T x (expand T x))
    (hfits : Fits e (xs.map (expand T)))
    (htwo : e.isSum = true ∨ e.isProduct = true → 2 ≤ xs.length) : Fits e xs := by
  have hperm := flatten_expand (e := e) hxs
  have hlen : xs.length ≤ (flatten e xs).length := length_le_flatten fun x hx => (hxs x hx).canonical
  cases e with
  | add es =>
    refine normal_of_expand (e := add es) (T := T) (fun a ha => ?_) ?_ (Normal.perm hfits hperm)
    · obtain ⟨x, hx, hax⟩ := List.mem_flatMap.1 ha
      exact (canonical_addends (hxs x hx).canonical a hax).2
    · exact (htwo (.inl rfl)).trans hlen
  | mul es =>
    refine normal_of_expand (e := mul es) (T := T) (fun a ha => ?_) ?_ (Normal.perm hfits hperm)
    · obtain ⟨x, hx, hax⟩ := List.mem_flatMap.1 ha
      exact (canonical_factors (hxs x hx).canonical a hax).2
    · exact (htwo (.inr rfl)).trans hlen
  | pow =>
    obtain ⟨b', y', hmap, hv⟩ := hfits
    obtain ⟨b, y, rfl⟩ : ∃ b y, xs = [b, y] := by
      have hlen := congrArg List.length hmap
      exact List.length_eq_two.1 (by simpa using hlen)
    simp only [List.map_cons, List.map_nil, List.cons.injEq, and_true] at hmap
    refine ⟨b, y, rfl, fun v hy => ?_⟩
    subst hy
    obtain ⟨ht, hb⟩ := hv v (by rw [← hmap.2, expand_num])
    refine ⟨ht, ?_⟩
    rw [← hmap.1] at hb
    cases b <;> first | rfl | simp [expand_num, isNumber] at hb
  | call => trivial
  | _ => exact List.map_eq_nil_iff.1 hfits

theorem Abbreviates.rebuild (hc : Canonical e) (he : e.isSymbol = false)
    (hxs : ∀ x ∈ xs, Abbreviates T x (expand T x)) (hfits : Fits e (xs.map (expand T)))
    (htwo : e.isSum = true ∨ e.isProduct = true → 2 ≤ xs.length) :
    Abbreviates T (rebuild e xs) (rebuild e (xs.map (expand T))) := by
  have hself := fits_of_expand hxs hfits htwo
  have hargs := reorders_args hself
  have hakin := akin_rebuild hself
  have hflat : Reorders e (flatten e (xs.map (expand T)))
      (flatten e ((Expr.rebuild e xs).args.map (expand T))) :=
    (reorders_flatten_expand hxs).trans (hargs.symm.map (expand T)).flatten
  have hnode : Fits e ((Expr.rebuild e xs).args.map (expand T)) :=
    hfits.of_kinds (hflat.map kind)
  refine ⟨canonical_rebuild hc fun x hx => (hxs x hx).canonical, fun n hn => ?_, ?_⟩
  · rcases mem_subterms.1 hn with rfl | ⟨a, ha, hna⟩
    · rwa [hakin.fits]
    · obtain ⟨x, hx, hax⟩ := mem_flatten.1 (hargs.perm.mem_iff.1 ha)
      exact (hxs x hx).fits n (mem_subterms_trans (mem_operands_subterms hax) hna)
  · rw [expand_of_not_symbol ((isSymbol_of_rank (rank_rebuild hself)).trans he), hakin.rebuild _ hnode]
    exact kind_eq.1 (kind_rebuild hfits (hflat.map kind)).symm

theorem Abbreviates.regroup {zs : List (Expr α)} (hc : Canonical e) (he : e.isSymbol = false)
    (hxs : ∀ x ∈ xs, Abbreviates T x (expand T x)) (hzs : Fits e zs)
    (hflat : Reorders e ((flatten e zs).map kind) ((flatten e (xs.map (expand T))).map kind))
    (htwo : e.isSum = true ∨ e.isProduct = true → 2 ≤ xs.length) :
    Abbreviates T (Expr.rebuild e xs) (Expr.rebuild e zs) :=
  (Abbreviates.rebuild hc he hxs (hzs.of_kinds hflat) htwo).congr
    (kind_eq.1 (kind_rebuild hzs hflat).symm)

end Rebuild

theorem Abbreviates.replace {s : Substitution α} (h : Abbreviates T x e)
    (hs : ∀ k ∈ x.subterms, ∀ v, s.get? k = some v → Abbreviates T' v (expand T k))
    (hi : ∀ t, sym t ∈ x.inputs → s.get? (sym t) = none → T' t = T t) :
    Abbreviates T' (replace s x) e := by
  refine congr ?_ h.value
  -- Induction on `x`, whose subterms abbreviate what they are written out to.
  replace h := h.self
  induction x using inductArgs with
  | node x ih =>
    rw [replace_eq]
    cases hget : s.get? x with
    | some v => exact hs x (mem_subterms_self x) v hget
    | none =>
      by_cases hsym : x.isSymbol = true
      · obtain ⟨t, rfl⟩ := exists_sym hsym
        have ht := hi t (by simp [inputs_of_isInput, isInput, isSymbol]) hget
        refine ⟨h.canonical, fun n hn => ?_, ?_⟩
        · have hn : n ∈ (sym t : Expr α).subterms := hn
          rw [subterms_of_leaf rfl, List.mem_singleton] at hn
          exact hn ▸ rfl
        · show (expand T' (sym t) == expand T (sym t)) = true
          rw [expand_sym, expand_sym, ht]
          exact BEq.rfl
      · rw [Bool.not_eq_true] at hsym
        have hargs : ∀ a ∈ x.args, Abbreviates T' (Expr.replace s a) (expand T a) := fun a ha =>
          ih a ha (fun k hk => hs k (mem_subterms.2 (.inr ⟨a, ha, hk⟩)))
            (fun t ht => hi t (mem_inputs_args ⟨a, ha, ht⟩)) (h.args a ha)
        have hmap : (x.args.map (expand T)).map kind =
            ((x.args.map (Expr.replace s)).map (expand T')).map kind := by
          rw [List.map_map, List.map_map, List.map_map]
          exact List.map_congr_left fun a ha => (kind_eq.2 (hargs a ha).value).symm
        have hflat := Reorders.of_eq (e := x) (map_kind_flatten (e := x) hmap)
        have hrebuild : Abbreviates T' (Expr.rebuild x (x.args.map (Expr.replace s)))
            (expand T x) := by
          rw [expand_of_not_symbol hsym]
          refine regroup h.canonical hsym (fun y hy => ?_) (h.fits x (mem_subterms_self x)) hflat ?_
          · obtain ⟨a, ha, rfl⟩ := List.mem_map.1 hy
            exact (hargs a ha).self
          · rw [List.length_map]
            exact h.canonical.two_le_args
        by_cases hempty : x.args.isEmpty = true
        · have hnil := List.isEmpty_iff.1 hempty
          simp only [hempty, if_true]
          rwa [hnil, List.map_nil, rebuild_of_no_args h.canonical hnil] at hrebuild
        · simp only [hempty]
          exact hrebuild

end LawfulArithmetic

end Stencil.Expr
