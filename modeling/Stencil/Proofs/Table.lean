import Mathlib.Algebra.BigOperators.Group.List.Basic
import Mathlib.Algebra.GroupWithZero.Nat
import Mathlib.Data.List.Induction
import Mathlib.Data.List.Nodup
import Mathlib.Data.List.Perm.Basic
import Mathlib.Data.List.Perm.Subperm
import Stencil.Table

namespace Stencil

namespace Table

def Distinct {κ : Type} [BEq κ] (ks : List κ) : Prop := ks.Pairwise fun k k' => (k == k') = false

section EquivBEq

variable {κ ν : Type} [BEq κ] [EquivBEq κ]

theorem Distinct.count_le_one {ks : List κ} (h : Distinct ks) (k : κ) : ks.count k ≤ 1 := by
  induction ks with
  | nil => simp
  | cons k' ks ih =>
    obtain ⟨hne, hks⟩ := List.pairwise_cons.1 h
    rw [List.count_cons]
    split
    · rename_i heq
      have hzero : ks.count k = 0 := List.countP_eq_zero.2 fun x hx hxk =>
        absurd (BEq.trans heq (BEq.symm hxk)) (by simp [hne x hx])
      omega
    · exact ih hks

theorem Distinct.getElem?_inj {ks : List κ} (h : Distinct ks) {m n : Nat} {k k' : κ}
    (hm : ks[m]? = some k) (hn : ks[n]? = some k') (heq : (k == k') = true) : m = n := by
  obtain ⟨hm, rfl⟩ := List.getElem?_eq_some_iff.1 hm
  obtain ⟨hn, rfl⟩ := List.getElem?_eq_some_iff.1 hn
  have hpair := List.pairwise_iff_getElem.1 h
  rcases Nat.lt_trichotomy m n with hlt | rfl | hlt
  · exact absurd heq (Bool.eq_false_iff.1 (hpair m n _ _ hlt))
  · rfl
  · exact absurd (BEq.symm heq) (Bool.eq_false_iff.1 (hpair n m _ _ hlt))

omit [EquivBEq κ] in
theorem exists_mem_of_get? {t : Table κ ν} {k : κ} {v : ν} (h : t.get? k = some v) :
    ∃ k', (k', v) ∈ t.entries ∧ (k' == k) = true := by
  obtain ⟨es⟩ := t
  simp only [get?] at h ⊢
  induction es with
  | nil => simp [find?] at h
  | cons e es ih =>
    rw [find?] at h
    split at h
    · rename_i heq
      exact ⟨e.1, List.mem_cons.2 (.inl (by rw [← Option.some.inj h])), heq⟩
    · obtain ⟨k', hk', heq⟩ := ih h
      exact ⟨k', List.mem_cons_of_mem _ hk', heq⟩

omit [EquivBEq κ] in
theorem put_of_find?_eq_none {k : κ} (v : ν) {es : List (κ × ν)} (h : find? k es = none) :
    put k v es = es ++ [(k, v)] := by
  induction es with
  | nil => rfl
  | cons e es ih =>
    rw [find?] at h
    split at h
    · contradiction
    · rename_i hne
      rw [put, if_neg hne, ih h, List.cons_append]

theorem get?_congr (t : Table κ ν) {k k' : κ} (h : (k == k') = true) : t.get? k = t.get? k' := by
  obtain ⟨es⟩ := t
  simp only [get?]
  induction es with
  | nil => rfl
  | cons e es ih => rw [find?, find?, BEq.congr_right h, ih]

omit [EquivBEq κ] in
theorem keys_insert_cases (t : Table κ ν) (k : κ) (v : ν) :
    (t.insert k v).keys = t.keys ∨
      (∀ k' ∈ t.keys, (k' == k) = false) ∧ (t.insert k v).keys = t.keys ++ [k] := by
  obtain ⟨es⟩ := t
  simp only [insert, keys]
  induction es with
  | nil => exact .inr ⟨by simp, rfl⟩
  | cons e es ih =>
    rw [put]
    split
    · exact .inl rfl
    · rename_i hne
      rcases ih with ih | ⟨hnew, ih⟩
      · exact .inl (by rw [List.map_cons, List.map_cons, ih])
      · refine .inr ⟨?_, by rw [List.map_cons, List.map_cons, ih]; rfl⟩
        rw [List.map_cons]
        exact List.forall_mem_cons.2 ⟨Bool.eq_false_iff.2 hne, hnew⟩

omit [EquivBEq κ] in
theorem distinct_keys_insert {t : Table κ ν} (h : Distinct t.keys) (k : κ) (v : ν) :
    Distinct (t.insert k v).keys := by
  rcases keys_insert_cases t k v with heq | ⟨hnew, heq⟩
  · rwa [heq]
  · rw [heq]
    refine List.pairwise_append.2 ⟨h, List.pairwise_singleton _ k, fun k' hk' k'' hk'' => ?_⟩
    exact List.mem_singleton.1 hk'' ▸ hnew k' hk'

theorem get?_eq_some_of_distinct {t : Table κ ν} (h : Distinct t.keys) {k k' : κ} {v : ν}
    (hmem : (k, v) ∈ t.entries) (hk : (k == k') = true) : t.get? k' = some v := by
  obtain ⟨es⟩ := t
  simp only [get?, keys] at h hmem ⊢
  induction es with
  | nil => simp at hmem
  | cons e es ih =>
    rw [List.map_cons, Distinct, List.pairwise_cons] at h
    rw [find?]
    rcases List.mem_cons.1 hmem with rfl | hmem
    · rw [if_pos hk]
    · have hne : (e.1 == k') = false := Bool.eq_false_iff.2 fun he =>
        Bool.eq_false_iff.1 (h.1 k (List.mem_map.2 ⟨_, hmem, rfl⟩)) (BEq.trans he (BEq.symm hk))
      rw [if_neg (by simp [hne])]
      exact ih h.2 hmem

omit [EquivBEq κ] in
theorem entries_ofList_of_distinct {xs : List (κ × ν)} (h : Distinct (xs.map (·.1))) :
    (ofList xs).entries = xs := by
  induction xs using List.reverseRecOn with
  | nil => rfl
  | append_singleton xs x ih =>
    rw [List.map_append, Distinct, List.pairwise_append] at h
    have hnone : find? x.1 (ofList xs).entries = none := by
      rw [ih h.1]
      have hnew := fun k hk => h.2.2 k hk x.1 (List.mem_singleton_self _)
      clear h ih
      induction xs with
      | nil => rfl
      | cons y ys ih =>
        rw [find?, if_neg (by simpa using hnew y.1 List.mem_cons_self)]
        exact ih fun k hk => hnew k (List.mem_cons_of_mem _ hk)
    rw [ofList, List.foldl_append]
    show (put x.1 x.2 (ofList xs).entries) = _
    rw [put_of_find?_eq_none _ hnone, ih h.1]

theorem get?_ofList_of_distinct {xs : List (κ × ν)} (h : Distinct (xs.map (·.1))) (k : κ) (v : ν) :
    (ofList xs).get? k = some v ↔ ∃ k', (k', v) ∈ xs ∧ (k' == k) = true := by
  have hentries := entries_ofList_of_distinct h
  constructor
  · intro hget
    obtain ⟨k', hmem, hk⟩ := exists_mem_of_get? hget
    exact ⟨k', hentries ▸ hmem, hk⟩
  · rintro ⟨k', hmem, hk⟩
    refine get?_eq_some_of_distinct ?_ (hentries.symm ▸ hmem) hk
    rwa [keys, hentries]

omit [EquivBEq κ] in
theorem counts_append (xs : List κ) (x : κ) :
    counts (xs ++ [x]) = (counts xs).update x 0 (· + 1) := by
  rw [counts, List.foldl_append]
  rfl

omit [EquivBEq κ] in
theorem distinct_keys_counts (xs : List κ) : Distinct (counts xs).keys := by
  induction xs using List.reverseRecOn with
  | nil => exact List.Pairwise.nil
  | append_singleton xs x ih =>
    rw [counts_append]
    exact distinct_keys_insert ih _ _

theorem get?_counts (xs : List κ) (k : κ) : ((counts xs).get? k).getD 0 = xs.count k := by
  induction xs using List.reverseRecOn with
  | nil => rfl
  | append_singleton xs x ih =>
    rw [counts_append, update, get?_insert, List.count_append, List.count_cons, List.count_nil, ← ih]
    by_cases hx : (x == k) = true
    · simp [hx, get?_congr _ hx]
    · simp [hx]

theorem count_of_mem_counts {xs : List κ} {k : κ} {n : Nat} (h : (k, n) ∈ (counts xs).entries) :
    n = xs.count k := by
  rw [← get?_counts, get?_eq_some_of_distinct (distinct_keys_counts xs) h BEq.rfl, Option.getD_some]

theorem sum_count_mul_le {ks xs : List κ} {m : κ → Nat} (hd : Distinct ks)
    (hm : ∀ a b, (a == b) = true → m a = m b) :
    (ks.map fun k => xs.count k * m k).sum ≤ ((xs.filter fun x => ks.any (· == x)).map m).sum := by
  -- At most one of the distinct keys is equal to `x`.
  have hone : ∀ x, (ks.map fun k => if x == k then m k else 0).sum ≤
      if ks.any (· == x) then m x else 0 := by
    intro x
    induction ks with
    | nil => exact Nat.zero_le _
    | cons k ks ih =>
      obtain ⟨hk, hks⟩ := List.pairwise_cons.1 hd
      rw [List.map_cons, List.sum_cons, List.any_cons]
      by_cases hx : (x == k) = true
      · have hnone : ks.any (· == x) = false := by
          refine List.any_eq_false.2 fun k' hk' heq => ?_
          exact Bool.eq_false_iff.1 (hk k' hk') (BEq.symm (BEq.trans heq hx))
        have hrest := ih hks
        rw [hnone, if_neg Bool.false_ne_true] at hrest
        simp only [BEq.symm hx, hx, hm x k hx, Bool.true_or, if_true]
        omega
      · have hx' : (k == x) = false := Bool.eq_false_iff.2 fun h => hx (BEq.symm h)
        simp only [hx, hx', Bool.false_or, Bool.false_eq_true, if_false, zero_add]
        exact ih hks
  induction xs with
  | nil => simp
  | cons x xs ih =>
    have hcount : (ks.map fun k => (x :: xs).count k * m k).sum =
        (ks.map fun k => xs.count k * m k).sum + (ks.map fun k => if x == k then m k else 0).sum := by
      rw [← List.sum_map_add]
      refine congrArg _ (List.map_congr_left fun k _ => ?_)
      rw [List.count_cons, Nat.add_mul]
      split <;> simp
    have hx := hone x
    rw [hcount, List.filter_cons]
    by_cases hany : ks.any (· == x) = true
    · rw [if_pos hany] at hx ⊢
      rw [List.map_cons, List.sum_cons]
      omega
    · rw [if_neg hany] at hx ⊢
      omega

end EquivBEq

variable {κ ν β : Type} [BEq κ] [LawfulBEq κ]

theorem get?_eq_some_of_mem {t : Table κ ν} (hn : t.keys.Nodup) {k : κ} {v : ν}
    (h : (k, v) ∈ t.entries) : t.get? k = some v := by
  obtain ⟨es⟩ := t
  simp only [get?, keys] at hn h ⊢
  induction es with
  | nil => simp at h
  | cons e es ih =>
    rw [List.map_cons, List.nodup_cons] at hn
    rcases List.mem_cons.1 h with rfl | h
    · simp [find?]
    · have hne : e.1 ≠ k := by
        rintro rfl
        exact hn.1 (List.mem_map.2 ⟨_, h, rfl⟩)
      simp [find?, hne, ih hn.2 h]

theorem mem_of_get? {t : Table κ ν} {k : κ} {v : ν} (h : t.get? k = some v) :
    (k, v) ∈ t.entries := by
  obtain ⟨es⟩ := t
  simp only [get?] at h ⊢
  induction es with
  | nil => simp [find?] at h
  | cons e es ih =>
    by_cases he : e.1 = k
    · simp only [find?, he, beq_self_eq_true, if_true, Option.some.injEq] at h
      exact List.mem_cons.2 (.inl (by rw [← he, ← h]))
    · simp only [find?, beq_iff_eq, he, if_false] at h
      exact List.mem_cons_of_mem _ (ih h)

theorem nodup_keys_insert {t : Table κ ν} (h : t.keys.Nodup) (k : κ) (v : ν) :
    (t.insert k v).keys.Nodup := by
  by_cases hk : k ∈ t.keys
  · rwa [keys_insert_of_mem v hk]
  · rw [keys_insert_of_not_mem v hk]
    exact List.nodup_append.2 ⟨h, List.nodup_singleton k, fun a ha b hb hab =>
      hk (List.mem_singleton.1 hb ▸ hab ▸ ha)⟩

theorem get?_map {μ : Type} (f : κ → ν → μ) (t : Table κ ν) (k : κ) :
    (⟨t.entries.map fun x => (x.1, f x.1 x.2)⟩ : Table κ μ).get? k = (t.get? k).map (f k) := by
  obtain ⟨es⟩ := t
  simp only [get?]
  induction es with
  | nil => rfl
  | cons e es ih =>
    by_cases he : e.1 = k
    · simp [find?, he]
    · simp [find?, he, ih]

theorem get?_mapValues {μ : Type} (f : ν → μ) (t : Table κ ν) (k : κ) :
    (t.mapValues f).get? k = (t.get? k).map f :=
  get?_map (fun _ => f) t k

theorem get?_of_perm {t t' : Table κ ν} (hn : t.keys.Nodup) (h : t'.entries.Perm t.entries)
    (k : κ) : t'.get? k = t.get? k := by
  have hn' : t'.keys.Nodup := (h.map Prod.fst).nodup_iff.2 hn
  ext v
  exact ⟨fun hv => get?_eq_some_of_mem hn (h.mem_iff.1 (mem_of_get? hv)),
    fun hv => get?_eq_some_of_mem hn' (h.mem_iff.2 (mem_of_get? hv))⟩

omit [LawfulBEq κ] in
theorem mem_values_of_get? {t : Table κ ν} {k : κ} {v : ν} (h : t.get? k = some v) :
    v ∈ t.values := by
  obtain ⟨es⟩ := t
  simp only [get?, values] at h ⊢
  induction es with
  | nil => simp [find?] at h
  | cons e es ih =>
    rw [find?] at h
    rw [List.map_cons, List.mem_cons]
    split at h
    · exact .inl (Option.some.inj h).symm
    · exact .inr (ih h)

omit [LawfulBEq κ] in
theorem mem_values_insert {t : Table κ ν} {k : κ} {v w : ν} (h : w ∈ (t.insert k v).values) :
    w ∈ t.values ∨ w = v := by
  obtain ⟨es⟩ := t
  simp only [insert, values] at h ⊢
  induction es with
  | nil => exact .inr (List.mem_singleton.1 h)
  | cons e es ih =>
    rw [put] at h
    split at h
    · rcases List.mem_cons.1 h with rfl | h
      · exact .inr rfl
      · exact .inl (List.mem_cons_of_mem _ h)
    · rcases List.mem_cons.1 h with rfl | h
      · exact .inl List.mem_cons_self
      · exact (ih h).imp_left (List.mem_cons_of_mem _)

omit [LawfulBEq κ] in
theorem mem_flatten_update {t : Table κ (List β)} {k : κ} {f : List β → List β} {P : β → Prop}
    (hf : ∀ ys, ∀ y ∈ f ys, y ∈ ys ∨ P y) {y : β}
    (h : y ∈ (t.update k [] f).values.flatten) : y ∈ t.values.flatten ∨ P y := by
  obtain ⟨ys, hys, hy⟩ := List.mem_flatten.1 h
  rcases mem_values_insert hys with hys | rfl
  · exact .inl (List.mem_flatten.2 ⟨ys, hys, hy⟩)
  · refine (hf _ y hy).imp_left fun hy => ?_
    cases hget : t.get? k with
    | none => simp [hget] at hy
    | some ys => exact List.mem_flatten.2 ⟨ys, mem_values_of_get? hget, by simpa [hget] using hy⟩

omit [LawfulBEq κ] in
theorem mem_keys_insert {t : Table κ ν} {k k' : κ} {v : ν} (h : k' ∈ (t.insert k v).keys) :
    k' ∈ t.keys ∨ k' = k := by
  obtain ⟨es⟩ := t
  simp only [insert, keys] at h ⊢
  induction es with
  | nil => exact .inr (List.mem_singleton.1 h)
  | cons e es ih =>
    rw [put] at h
    split at h
    · exact .inl h
    · rcases List.mem_cons.1 h with rfl | h
      · exact .inl List.mem_cons_self
      · exact (ih h).imp_left (List.mem_cons_of_mem _)

omit [LawfulBEq κ] in
theorem mem_values_ofList {xs : List (κ × ν)} {v : ν} (h : v ∈ (ofList xs).values) :
    ∃ x ∈ xs, v = x.2 := by
  have hloop : ∀ w ∈ (ofList xs).values, ∃ x ∈ xs, w = x.2 := by
    refine List.foldlRecOn
      (motive := fun t : Table κ ν => ∀ w ∈ t.values, ∃ x ∈ xs, w = x.2) xs _ ?_ ?_
    · exact fun w hw => absurd hw List.not_mem_nil
    · intro t ht x hx w hw
      rcases mem_values_insert hw with hw | rfl
      · exact ht w hw
      · exact ⟨x, hx, rfl⟩
  exact hloop v h

theorem put_append {k : κ} (v : ν) {es : List (κ × ν)} (h : k ∉ es.map (·.1))
    (r : List (κ × ν)) : put k v (es ++ r) = es ++ put k v r := by
  induction es with
  | nil => rfl
  | cons e es ih =>
    rw [List.map_cons, List.mem_cons, not_or] at h
    rw [List.cons_append, put, if_neg (by simpa using Ne.symm h.1), ih h.2, List.cons_append]

theorem put_of_not_mem {k : κ} (v : ν) {es : List (κ × ν)} (h : k ∉ es.map (·.1)) :
    put k v es = es ++ [(k, v)] := by
  have hput := put_append v h []
  rwa [List.append_nil] at hput

theorem drop_append {k : κ} {es : List (κ × ν)} (h : k ∉ es.map (·.1)) (r : List (κ × ν)) :
    drop k (es ++ r) = es ++ drop k r := by
  induction es with
  | nil => rfl
  | cons e es ih =>
    rw [List.map_cons, List.mem_cons, not_or] at h
    rw [List.cons_append, drop, if_neg (by simpa using Ne.symm h.1), ih h.2, List.cons_append]

theorem entries_ofList {xs : List (κ × ν)} (h : (xs.map (·.1)).Nodup) :
    (ofList xs).entries = xs := by
  induction xs using List.reverseRecOn with
  | nil => rfl
  | append_singleton xs x ih =>
    rw [List.map_append, List.nodup_append] at h
    have hx : x.1 ∉ (ofList xs).entries.map (·.1) := by
      rw [ih h.1]
      exact fun hm => h.2.2 _ hm _ (List.mem_singleton_self _) rfl
    rw [ofList, List.foldl_append]
    show (put x.1 x.2 (ofList xs).entries) = _
    rw [put_of_not_mem _ hx, ih h.1]

theorem get?_ofList_filterMap {key : β → Option κ} {value : β → ν}
    {xs : List β} (h : (xs.filterMap key).Nodup) (k : κ) (v : ν) :
    (ofList (xs.filterMap fun x => (key x).map fun k => (k, value x))).get? k = some v ↔
      ∃ x ∈ xs, key x = some k ∧ value x = v := by
  have hkeys : (xs.filterMap fun x => (key x).map fun k => (k, value x)).map (·.1) =
      xs.filterMap key := by
    rw [List.map_filterMap]
    refine List.filterMap_congr fun x _ => ?_
    cases key x <;> rfl
  have hdistinct : Distinct
      ((xs.filterMap fun x => (key x).map fun k => (k, value x)).map (·.1)) := by
    rw [hkeys]
    exact h.imp fun hne => beq_eq_false_iff_ne.2 hne
  rw [get?_ofList_of_distinct hdistinct]
  constructor
  · rintro ⟨k', hmem, hk⟩
    obtain ⟨x, hx, hpair⟩ := List.mem_filterMap.1 hmem
    obtain ⟨k'', hkey, heq⟩ := Option.map_eq_some_iff.1 hpair
    obtain ⟨rfl, rfl⟩ := Prod.mk.inj heq
    exact ⟨x, hx, eq_of_beq hk ▸ hkey, rfl⟩
  · rintro ⟨x, hx, hkey, rfl⟩
    exact ⟨k, List.mem_filterMap.2 ⟨x, hx, Option.map_eq_some_iff.2 ⟨k, hkey, rfl⟩⟩, BEq.rfl⟩

omit [LawfulBEq κ] in
theorem perm_values_erase {t : Table κ ν} {k : κ} {v : ν} (h : t.get? k = some v) :
    t.values.Perm (v :: (t.erase k).values) := by
  obtain ⟨es⟩ := t
  simp only [get?, values, erase] at h ⊢
  induction es with
  | nil => simp [find?] at h
  | cons e es ih =>
    rw [find?] at h
    rw [drop, List.map_cons]
    split at h
    · rename_i heq
      rw [if_pos heq, Option.some.inj h]
    · rename_i hne
      rw [if_neg hne, List.map_cons]
      exact ((ih h).cons e.2).trans (.swap v e.2 _)

omit [LawfulBEq κ] in
theorem drop_sublist (k : κ) (es : List (κ × ν)) : (drop k es).Sublist es := by
  induction es with
  | nil => exact .slnil
  | cons e es ih =>
    rw [drop]
    split
    · exact List.sublist_cons_self _ _
    · exact ih.cons_cons _

theorem length_drop {k : κ} {v : ν} {es : List (κ × ν)} (h : (k, v) ∈ es) :
    (drop k es).length + 1 = es.length := by
  induction es with
  | nil => simp at h
  | cons e es ih =>
    rw [drop]
    split
    · rfl
    · rename_i hne
      rcases List.mem_cons.1 h with rfl | h
      · simp at hne
      · rw [List.length_cons, List.length_cons, ih h]

theorem mem_drop {k : κ} {x : κ × ν} {es : List (κ × ν)} (h : x ∈ es) (hk : x.1 ≠ k) :
    x ∈ drop k es := by
  induction es with
  | nil => simp at h
  | cons e es ih =>
    rw [drop]
    rcases List.mem_cons.1 h with rfl | h
    · rw [if_neg (by simpa using hk)]
      exact List.mem_cons_self
    · split
      · exact h
      · exact List.mem_cons_of_mem _ (ih h)

def group (f : β → Option κ) (xs : List β) : Table κ (List β) :=
  xs.foldl (fun t x =>
    match f x with
    | some k => t.update k [] (· ++ [x])
    | none => t) .empty

omit [LawfulBEq κ] in
theorem group_append (f : β → Option κ) (xs : List β) (x : β) :
    group f (xs ++ [x]) = match f x with
      | some k => (group f xs).update k [] (· ++ [x])
      | none => group f xs := by
  rw [group, List.foldl_append]
  rfl

omit [LawfulBEq κ] in
theorem mem_keys_group {f : β → Option κ} {xs : List β} {k : κ} (h : k ∈ (group f xs).keys) :
    ∃ x ∈ xs, f x = some k := by
  induction xs using List.reverseRecOn with
  | nil => exact absurd h List.not_mem_nil
  | append_singleton xs x ih =>
    have hbefore : k ∈ (group f xs).keys → ∃ y ∈ xs ++ [x], f y = some k := fun h => by
      obtain ⟨y, hy, hk⟩ := ih h
      exact ⟨y, List.mem_append_left _ hy, hk⟩
    rw [group_append] at h
    split at h
    · rename_i hk
      rcases mem_keys_insert h with h | rfl
      · exact hbefore h
      · exact ⟨x, List.mem_append_right _ (List.mem_singleton_self x), hk⟩
    · exact hbefore h

omit [LawfulBEq κ] in
theorem subset_of_mem_values_group {f : β → Option κ} {xs ys : List β}
    (h : ys ∈ (group f xs).values) : ys ⊆ xs := by
  suffices hall : ∀ y ∈ (group f xs).values.flatten, y ∈ xs from
    fun y hy => hall y (List.mem_flatten.2 ⟨ys, h, hy⟩)
  refine List.foldlRecOn (motive := fun t : Table κ (List β) => ∀ y ∈ t.values.flatten, y ∈ xs)
    xs _ (fun y hy => absurd hy List.not_mem_nil) fun t ih x hx y hy => ?_
  split at hy
  · rcases mem_flatten_update (P := (· = x)) (fun ys z hz =>
      (List.mem_append.1 hz).imp_right List.mem_singleton.1) hy with hy | rfl
    · exact ih y hy
    · exact hx
  · exact ih y hy

theorem nodup_keys_group (f : β → Option κ) (xs : List β) : (group f xs).keys.Nodup := by
  induction xs using List.reverseRecOn with
  | nil => exact List.nodup_nil
  | append_singleton xs x ih =>
    rw [group_append]
    split
    · exact nodup_keys_insert ih _ _
    · exact ih

theorem get?_group (f : β → Option κ) (xs : List β) (k : κ) :
    ((group f xs).get? k).getD [] = xs.filter fun x => f x == some k := by
  induction xs using List.reverseRecOn with
  | nil => rfl
  | append_singleton xs x ih =>
    rw [group_append, List.filter_append, ← ih]
    cases hf : f x with
    | none => simp [hf]
    | some k' =>
      simp only [update, get?_insert]
      by_cases hk : k' = k
      · simp [hk, hf]
      · simp [hk, hf]

omit [LawfulBEq κ] in
theorem mem_of_mem_keys_counts {xs : List κ} {k : κ} (h : k ∈ (counts xs).keys) : k ∈ xs := by
  induction xs using List.reverseRecOn with
  | nil => exact absurd h List.not_mem_nil
  | append_singleton xs x ih =>
    rw [counts_append] at h
    rcases mem_keys_insert h with h | rfl
    · exact List.mem_append_left _ (ih h)
    · exact List.mem_append_right _ (List.mem_singleton_self k)

end Table

theorem flatMap_classes_perm {β κ : Type} [BEq κ] [LawfulBEq κ] (f : β → Option κ) {ks : List κ}
    (hn : ks.Nodup) (xs : List β) :
    (ks.flatMap fun k => xs.filter fun x => f x == some k).Perm
      (xs.filter fun x => ks.any fun k => f x == some k) := by
  induction ks with
  | nil => simp
  | cons k ks ih =>
    rw [List.nodup_cons] at hn
    rw [List.flatMap_cons]
    refine ((ih hn.2).append_left _).trans ?_
    have hsplit := List.filter_append_perm (fun x => f x == some k)
      (xs.filter fun x => (k :: ks).any fun k => f x == some k)
    rw [List.filter_filter, List.filter_filter] at hsplit
    refine .trans (.of_eq ?_) hsplit
    congr 1
    · refine List.filter_congr fun x _ => ?_
      by_cases hx : f x = some k <;> simp [hx]
    · refine List.filter_congr fun x _ => ?_
      by_cases hx : f x = some k
      · have hne : ∀ k' ∈ ks, k ≠ k' := by
          rintro k' hk' rfl
          exact hn.1 hk'
        simpa [hx] using hne
      · simp [beq_eq_false_iff_ne.2 hx]

theorem flatMap_subperm {β γ : Type} {xs : List β} {F G : β → List γ}
    (h : ∀ x ∈ xs, (F x).Subperm (G x)) : (xs.flatMap F).Subperm (xs.flatMap G) := by
  induction xs with
  | nil => exact .refl _
  | cons x xs ih =>
    rw [List.flatMap_cons, List.flatMap_cons]
    exact (h x List.mem_cons_self).append (ih fun y hy => h y (List.mem_cons_of_mem x hy))

end Stencil
