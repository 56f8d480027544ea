import Mathlib.Algebra.Order.BigOperators.Group.List
import Mathlib.Algebra.Order.Ring.Int
import Stencil.Proofs.Alias.Corner

namespace Stencil

namespace AliasGroups

open Stencil.Expr

variable {α : Type} {d : Dimension} [Arithmetic α] [LawfulArithmetic α]

structure Belongs (as : List (Assignment α)) (key : Expr α) (m : Expr α × Distance) : Prop where
  atZero : (atZero m.1 == key) = true
  corner : m.2 = corner m.1
  eligible : ∃ a ∈ as, a.rhs = m.1

theorem Belongs.congr {as bs : List (Assignment α)} {key key' : Expr α} {m : Expr α × Distance}
    (h : Belongs as key m) (hk : (key == key') = true) (hsub : as ⊆ bs) : Belongs bs key' m :=
  ⟨BEq.trans h.atZero hk, h.corner, h.eligible.imp fun _ ha => ⟨hsub ha.1, ha.2⟩⟩

/-- The classes list what belongs to them, each expression once. -/
structure Classified (as : List (Assignment α)) (t : Table (Expr α) (List (Expr α × Distance))) :
    Prop where
  distinct : Table.Distinct t.keys
  key : ∀ key ∈ t.keys, ∃ a ∈ as, key = atZero a.rhs
  belongs : ∀ key ms, t.get? key = some ms → ∀ m ∈ ms, Belongs as key m
  once : ∀ key ms, t.get? key = some ms → Table.Distinct (ms.map (·.1))
  complete : ∀ a ∈ as, ∃ ms, t.get? (atZero a.rhs) = some ms ∧ ∃ m ∈ ms, (m.1 == a.rhs) = true

def enlist (a : Assignment α) (ms : List (Expr α × Distance)) : List (Expr α × Distance) :=
  if ms.any (·.1 == a.rhs) then ms else ms ++ [(a.rhs, corner a.rhs)]

variable {as : List (Assignment α)} {a : Assignment α} {ms : List (Expr α × Distance)}

omit [LawfulArithmetic α] in
theorem mem_enlist {m : Expr α × Distance} (h : m ∈ enlist a ms) :
    m ∈ ms ∨ m = (a.rhs, corner a.rhs) := by
  rw [enlist] at h
  split at h
  · exact .inl h
  · exact (List.mem_append.1 h).imp_right List.mem_singleton.1

omit [LawfulArithmetic α] in
theorem subset_enlist : ms ⊆ enlist a ms := by
  rw [enlist]
  split
  · exact List.Subset.refl ms
  · exact List.subset_append_left ms _

theorem exists_mem_enlist : ∃ m ∈ enlist a ms, (m.1 == a.rhs) = true := by
  rw [enlist]
  split
  · rename_i hany
    exact List.any_eq_true.1 hany
  · exact ⟨_, List.mem_append_right ms (List.mem_singleton_self _), BEq.rfl⟩

omit [LawfulArithmetic α] in
theorem distinct_enlist (h : Table.Distinct (ms.map (·.1))) :
    Table.Distinct ((enlist a ms).map (·.1)) := by
  rw [enlist]
  split
  · exact h
  · rename_i hany
    rw [List.map_append]
    refine List.pairwise_append.2 ⟨h, List.pairwise_singleton _ _, fun e he e' he' => ?_⟩
    obtain ⟨m, hm, rfl⟩ := List.mem_map.1 he
    obtain rfl := List.mem_singleton.1 he'
    rw [List.any_eq_true, not_exists] at hany
    exact Bool.eq_false_iff.2 fun heq => hany m ⟨hm, heq⟩

section add

variable {t : Table (Expr α) (List (Expr α × Distance))} (ht : Classified as t)

include ht

omit [LawfulArithmetic α] in
theorem Classified.belongs_getD {key : Expr α} {m : Expr α × Distance}
    (hm : m ∈ (t.get? key).getD []) : Belongs as key m := by
  cases hget : t.get? key with
  | none => simp [hget] at hm
  | some ms => exact ht.belongs key ms hget m (by simpa [hget] using hm)

omit [LawfulArithmetic α] in
theorem Classified.once_getD (key : Expr α) :
    Table.Distinct (((t.get? key).getD []).map (·.1)) := by
  cases hget : t.get? key with
  | none => exact List.Pairwise.nil
  | some ms => exact ht.once key ms hget

theorem Classified.add (a : Assignment α) :
    Classified (as ++ [a]) (t.update (atZero a.rhs) [] (enlist a)) := by
  have hsub : as ⊆ as ++ [a] := List.subset_append_left as [a]
  have hget : ∀ key, (t.update (atZero a.rhs) [] (enlist a)).get? key =
      if atZero a.rhs == key then some (enlist a ((t.get? (atZero a.rhs)).getD []))
      else t.get? key := fun key => Table.get?_insert ..
  refine ⟨Table.distinct_keys_insert ht.distinct _ _, fun key hkey => ?_,
    fun key ms hms m hm => ?_, fun key ms hms => ?_, fun b hb => ?_⟩
  · rcases Table.mem_keys_insert hkey with hkey | rfl
    · exact (ht.key key hkey).imp fun _ hb => ⟨hsub hb.1, hb.2⟩
    · exact ⟨a, by simp, rfl⟩
  · rw [hget] at hms
    split at hms
    · rename_i hkey
      rw [← Option.some.inj hms] at hm
      rcases mem_enlist hm with hm | rfl
      · exact (ht.belongs_getD hm).congr hkey hsub
      · exact ⟨hkey, rfl, a, by simp, rfl⟩
    · exact (ht.belongs key ms hms m hm).congr BEq.rfl hsub
  · rw [hget] at hms
    split at hms
    · rw [← Option.some.inj hms]
      exact distinct_enlist (ht.once_getD _)
    · exact ht.once key ms hms
  · rw [hget]
    rcases List.mem_append.1 hb with hb | hb
    · obtain ⟨ms, hms, m, hm, heq⟩ := ht.complete b hb
      split
      · rename_i hkey
        rw [t.get?_congr hkey, hms, Option.getD_some]
        exact ⟨_, rfl, m, subset_enlist hm, heq⟩
      · exact ⟨ms, hms, m, hm, heq⟩
    · obtain rfl := List.mem_singleton.1 hb
      rw [if_pos BEq.rfl]
      exact ⟨_, rfl, exists_mem_enlist⟩

end add

theorem classified_classes (as : List (Assignment α)) : Classified (eligible as) (classes as) := by
  unfold classes
  dsimp only
  rw [← eligible]
  generalize eligible as = xs
  induction xs using List.reverseRecOn with
  | nil => exact ⟨List.Pairwise.nil, by simp [Table.empty, Table.keys],
      by simp [Table.empty, Table.get?, Table.find?], by simp [Table.empty, Table.get?, Table.find?],
      by simp⟩
  | append_singleton xs a ih =>
    rw [List.foldl_append]
    exact ih.add a

section centre

theorem shift_foldl_update (xs : List (Dimension × Int)) (t : Distance) :
    Distance.shift (xs.foldl (fun t x => t.update x.1 0 (· + x.2)) t) d =
      t.shift d + ((xs.filter (·.1 = d)).map (·.2)).sum := by
  induction xs generalizing t with
  | nil => simp
  | cons x xs ih =>
    have hx : Distance.shift (t.update x.1 0 (· + x.2)) d =
        if x.1 = d then t.shift d + x.2 else t.shift d := by
      simp only [Distance.shift, Table.update, Table.get?_insert, beq_iff_eq]
      split
      · rename_i hd
        rw [hd, Option.getD_some]
      · rfl
    rw [List.foldl_cons, ih, hx]
    by_cases hd : x.1 = d
    · simp [hd, Int.add_assoc]
    · simp [hd]

theorem sum_entries {p : Distance} (hn : p.keys.Nodup) :
    ((p.entries.filter (·.1 = d)).map (·.2)).sum = p.shift d := by
  obtain ⟨es⟩ := p
  simp only [Table.keys] at hn
  simp only [Distance.shift, Table.get?]
  induction es with
  | nil => rfl
  | cons e es ih =>
    rw [List.map_cons, List.nodup_cons] at hn
    by_cases he : e.1 = d
    · have hnone : es.filter (·.1 = d) = [] :=
        List.filter_eq_nil_iff.2 fun x hx hxd => hn.1 (List.mem_map.2 ⟨x, hx, by simp_all⟩)
      simp [Table.find?, he, hnone]
    · simpa [Table.find?, he] using ih hn.2

theorem shift_foldl_entries {ps : List Distance} (hn : ∀ p ∈ ps, p.keys.Nodup) (t : Distance) :
    Distance.shift (ps.foldl (fun t p =>
      p.entries.foldl (fun t x => t.update x.1 0 (· + x.2)) t) t) d =
        t.shift d + (ps.map (Distance.shift · d)).sum := by
  induction ps generalizing t with
  | nil => simp
  | cons p ps ih =>
    obtain ⟨hp, hn⟩ := List.forall_mem_cons.1 hn
    rw [List.foldl_cons, ih hn, shift_foldl_update, sum_entries hp, List.map_cons, List.sum_cons,
      Int.add_assoc]

theorem shift_centre {ps : List Distance} (hn : ∀ p ∈ ps, p.keys.Nodup) :
    (centre ps).shift d = (ps.map (Distance.shift · d)).sum.tdiv ps.length := by
  rw [centre, shift_mapValues (f := (Int.tdiv · ps.length)) (Int.zero_tdiv _),
    shift_foldl_entries hn, shift_of_none rfl, Int.zero_add]

theorem exists_le_tdiv {xs : List Int} (h : xs ≠ []) : ∃ x ∈ xs, x ≤ xs.sum.tdiv xs.length := by
  by_contra hall
  simp only [not_exists, not_and, Int.not_le] at hall
  have hlen : (0 : Int) < xs.length := by exact_mod_cast List.length_pos_iff.2 h
  have hsum := List.card_nsmul_le_sum xs (xs.sum.tdiv xs.length + 1) fun x hx => hall x hx
  have hdiv := Int.tdiv_le_tdiv hlen hsum
  rw [Int.nsmul_eq_mul, Int.mul_tdiv_cancel_left _ hlen.ne'] at hdiv
  omega

theorem exists_tdiv_le {xs : List Int} (h : xs ≠ []) : ∃ x ∈ xs, xs.sum.tdiv xs.length ≤ x := by
  by_contra hall
  simp only [not_exists, not_and, Int.not_le] at hall
  have hlen : (0 : Int) < xs.length := by exact_mod_cast List.length_pos_iff.2 h
  have hsum := List.sum_le_card_nsmul xs (xs.sum.tdiv xs.length - 1) fun x hx =>
    Int.le_sub_one_of_lt (hall x hx)
  have hdiv := Int.tdiv_le_tdiv hlen hsum
  rw [Int.nsmul_eq_mul, Int.mul_tdiv_cancel_left _ hlen.ne'] at hdiv
  omega

end centre

section group

variable {key : Expr α} {ms : List (Expr α × Distance)}

omit [LawfulArithmetic α] [Arithmetic α] in
theorem mem_eligible {a : Assignment α} :
    a ∈ eligible as ↔ a ∈ as ∧ isEligible (as.filterMap Assignment.target?) a = true :=
  List.mem_filter

def middle (ms : List (Expr α × Distance)) : Shift := (centre (ms.map (·.2))).shift

theorem Belongs.get?_eq_none (hc : ∀ a ∈ as, Canonical a.rhs) {m : Expr α × Distance}
    (hm : Belongs as key m) : m.2.get? d = none ↔ d.isTime = true ∨ d ∉ key.dimensions := by
  obtain ⟨a, ha, heq⟩ := hm.eligible
  rw [hm.corner, get?_corner_eq_none, ← dimensions_congr hm.atZero, AliasGroups.atZero,
    mem_dimensions_displace (heq ▸ hc a ha)]

omit [LawfulArithmetic α] in
theorem nodup_keys_of_belongs (hms : ∀ m ∈ ms, Belongs as key m) :
    ∀ p ∈ ms.map (·.2), p.keys.Nodup :=
  List.forall_mem_map.2 fun m hm => (hms m hm).corner ▸ nodup_keys_corner m.1

omit [LawfulArithmetic α] in
theorem middle_eq (hms : ∀ m ∈ ms, Belongs as key m) (d : Dimension) : middle ms d =
    (ms.map fun m => (corner m.1).shift d).sum.tdiv (ms.map fun m => (corner m.1).shift d).length := by
  rw [middle, shift_centre (nodup_keys_of_belongs hms), List.map_map, List.length_map,
    List.length_map]
  refine congrArg (Int.tdiv · _) (congrArg List.sum (List.map_congr_left fun m hm => ?_))
  rw [Function.comp_apply, (hms m hm).corner]

omit [LawfulArithmetic α] in
theorem exists_le_middle (hms : ∀ m ∈ ms, Belongs as key m) (hne : ms ≠ []) (d : Dimension) :
    (∃ m ∈ ms, (corner m.1).shift d ≤ middle ms d) ∧ ∃ m ∈ ms, middle ms d ≤ (corner m.1).shift d := by
  have hcorners : ms.map (fun m => (corner m.1).shift d) ≠ [] := by simpa using hne
  obtain ⟨x, hx, hle⟩ := exists_le_tdiv hcorners
  obtain ⟨y, hy, hge⟩ := exists_tdiv_le hcorners
  obtain ⟨m, hm, rfl⟩ := List.mem_map.1 hx
  obtain ⟨m', hm', rfl⟩ := List.mem_map.1 hy
  rw [← middle_eq hms] at hle hge
  exact ⟨⟨m, hm, hle⟩, m', hm', hge⟩

theorem middle_of_none (hc : ∀ a ∈ as, Canonical a.rhs) (hms : ∀ m ∈ ms, Belongs as key m)
    (hd : d.isTime = true ∨ d ∉ key.dimensions) : middle ms d = 0 := by
  have hall : ms.map (fun m => (corner m.1).shift d) = ms.map fun _ => 0 :=
    List.map_congr_left fun m hm => by
      rw [← (hms m hm).corner]
      exact shift_of_none (((hms m hm).get?_eq_none hc).2 hd)
  rw [middle_eq hms, hall]
  simp

theorem shift_of_mem_group (hc : ∀ a ∈ as, Canonical a.rhs) (hms : ∀ m ∈ ms, Belongs as key m)
    {m : Expr α × Distance} (hm : m ∈ ms) (d : Dimension) :
    Distance.shift ⟨m.2.entries.map fun x => (x.1, x.2 - middle ms x.1)⟩ d =
      (corner m.1).shift d - middle ms d := by
  rw [Distance.shift, Table.get?_map fun d v => v - middle ms d, ← (hms m hm).corner]
  cases hget : m.2.get? d with
  | some v => rw [shift_of_get? hget, Option.map_some, Option.getD_some]
  | none =>
    rw [middle_of_none hc hms (((hms m hm).get?_eq_none hc).1 hget), shift_of_none hget]
    rfl

theorem atZero_origin (hc : ∀ a ∈ as, Canonical a.rhs) (hkey : ∃ a ∈ as, key = atZero a.rhs)
    (hms : ∀ m ∈ ms, Belongs as key m) : atZero (group key ms).origin = key := by
  obtain ⟨a, ha, rfl⟩ := hkey
  refine (atZero_displace (canonical_atZero (hc a ha)) fun d hd => ?_).trans ?_
  · exact middle_of_none hc hms (.inl hd)
  · refine atZero_displace (hc a ha) fun d hd => ?_
    rw [shift_neg, shift_of_none (corner_of_time hd _)]
    rfl

end group

end AliasGroups

end Stencil
