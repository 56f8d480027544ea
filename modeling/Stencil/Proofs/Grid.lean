import Mathlib.Data.List.Forall2
import Stencil.Grid

namespace Stencil.Grid

variable {α : Type} {lo hi v : Int} {ranges : List (Int × Int)} {p q : List Int}

theorem mem_range : v ∈ range lo hi ↔ lo ≤ v ∧ v ≤ hi := by
  simp only [range, List.mem_map, List.mem_range]
  constructor
  · rintro ⟨n, hn, rfl⟩
    omega
  · rintro ⟨hlo, hhi⟩
    exact ⟨(v - lo).toNat, by omega, by omega⟩

theorem pairwise_range (lo hi : Int) : (range lo hi).Pairwise (· < ·) := by
  rw [range, List.pairwise_map]
  exact List.pairwise_lt_range.imp fun h => by omega

theorem range_of_lt (h : hi < lo) : range lo hi = [] :=
  List.eq_nil_iff_forall_not_mem.2 fun v hv => by
    have := mem_range.1 hv
    omega

theorem range_of_le (h : lo ≤ hi) : range lo hi = lo :: range (lo + 1) hi := by
  have hcount : (hi - lo + 1).toNat = (hi - (lo + 1) + 1).toNat + 1 := by omega
  rw [range, hcount, List.range_succ_eq_map, List.map_cons, List.map_map, range]
  refine congrArg₂ _ (by omega) (List.map_congr_left fun n _ => ?_)
  simp only [Function.comp_apply, Nat.succ_eq_add_one]
  omega

section Points

def points : List (Int × Int) → List (List Int)
  | [] => [[]]
  | r :: rs => (range r.1 r.2).flatMap fun v => (points rs).map (v :: ·)

theorem mem_points :
    p ∈ points ranges ↔ List.Forall₂ (fun v r => r.1 ≤ v ∧ v ≤ r.2) p ranges := by
  induction ranges generalizing p with
  | nil => simp [points]
  | cons r rs ih =>
    simp only [points, List.mem_flatMap, List.mem_map, mem_range, ih]
    constructor
    · rintro ⟨v, hv, q, hq, rfl⟩
      exact .cons hv hq
    · intro h
      cases h with
      | cons hv hq => exact ⟨_, hv, _, hq, rfl⟩

theorem pairwise_points (ranges : List (Int × Int)) :
    (points ranges).Pairwise (List.Lex (· < ·)) := by
  induction ranges with
  | nil => exact List.pairwise_singleton _ _
  | cons r rs ih =>
    rw [points, List.pairwise_flatMap]
    constructor
    · intro v _
      exact List.pairwise_map.2 (ih.imp .cons)
    · refine (pairwise_range r.1 r.2).imp fun hvw a ha b hb => ?_
      obtain ⟨p, -, rfl⟩ := List.mem_map.1 ha
      obtain ⟨q, -, rfl⟩ := List.mem_map.1 hb
      exact .rel hvw

theorem points_eq_nil (h : ∃ r ∈ ranges, r.2 < r.1) : points ranges = [] := by
  obtain ⟨r, hr, hlt⟩ := h
  induction ranges with
  | nil => exact absurd hr List.not_mem_nil
  | cons r' rs ih =>
    rw [points, List.flatMap_eq_nil_iff]
    intro v hv
    rcases List.mem_cons.1 hr with rfl | hr
    · rw [range_of_lt hlt] at hv
      exact absurd hv List.not_mem_nil
    · rw [ih hr, List.map_nil]

def pointsFrom : List (Int × Int) → List Int → List (List Int)
  | r :: rs, v :: p =>
    (pointsFrom rs p).map (v :: ·) ++
      (range (v + 1) r.2).flatMap fun w => (points rs).map (w :: ·)
  | _, _ => [[]]

theorem pointsFrom_start (h : ∀ r ∈ ranges, r.1 ≤ r.2) :
    pointsFrom ranges (ranges.map Prod.fst) = points ranges := by
  induction ranges with
  | nil => rfl
  | cons r rs ih =>
    obtain ⟨hr, hrs⟩ := List.forall_mem_cons.1 h
    rw [List.map_cons, pointsFrom, ih hrs, points, range_of_le hr, List.flatMap_cons]

end Points

section Odometer

variable {wheels : List (Int × Int)} {vs : List Int}

theorem turn_append (h : vs.length = wheels.length) :
    turn (wheels ++ [(lo, hi)]) (vs ++ [v]) =
      match turn wheels vs with
      | some ws => some (ws ++ [v])
      | none => if v < hi then some (wheels.map Prod.fst ++ [v + 1]) else none := by
  induction wheels generalizing vs with
  | nil =>
    obtain rfl := List.length_eq_zero_iff.1 h
    simp [turn]
  | cons wheel wheels ih =>
    obtain ⟨lo', hi'⟩ := wheel
    cases vs with
    | nil => simp at h
    | cons u us =>
      simp only [List.cons_append, turn, List.map_cons]
      by_cases hu : u < hi'
      · rw [if_pos hu, if_pos hu]
        rfl
      · rw [if_neg hu, if_neg hu, ih (by simpa using h)]
        cases turn wheels us with
        | some ws => rfl
        | none => by_cases hv : v < hi <;> simp [hv]

theorem next?_cons (h : p.length = ranges.length) :
    next? ((lo, hi) :: ranges) (v :: p) =
      match next? ranges p with
      | some q => some (v :: q)
      | none => if v < hi then some ((v + 1) :: ranges.map Prod.fst) else none := by
  rw [next?, List.reverse_cons, List.reverse_cons, turn_append (by simpa using h), next?]
  cases turn ranges.reverse p.reverse with
  | some ws => simp
  | none => by_cases hv : v < hi <;> simp [hv]

theorem length_turn {ws : List Int} (h : turn wheels vs = some ws) : ws.length = vs.length := by
  induction wheels generalizing vs ws with
  | nil => simp [turn] at h
  | cons wheel wheels ih =>
    cases vs with
    | nil => simp [turn] at h
    | cons v vs =>
      rw [turn] at h
      split at h
      · obtain rfl := Option.some.inj h
        rfl
      · obtain ⟨us, hus, rfl⟩ := Option.map_eq_some_iff.1 h
        rw [List.length_cons, List.length_cons, ih hus]

theorem length_next? (h : next? ranges p = some q) : q.length = p.length := by
  obtain ⟨vs, hvs, rfl⟩ := Option.map_eq_some_iff.1 h
  rw [List.length_reverse, length_turn hvs, List.length_reverse]

theorem pointsFrom_eq (hranges : ∀ r ∈ ranges, r.1 ≤ r.2) (h : p.length = ranges.length) :
    pointsFrom ranges p =
      p :: match next? ranges p with
        | some q => pointsFrom ranges q
        | none => [] := by
  induction ranges generalizing p with
  | nil =>
    obtain rfl := List.length_eq_zero_iff.1 h
    rfl
  | cons r rs ih =>
    cases p with
    | nil => simp at h
    | cons v p =>
      have hlen : p.length = rs.length := by simpa using h
      obtain ⟨-, hrs⟩ := List.forall_mem_cons.1 hranges
      rw [pointsFrom, ih hrs hlen, next?_cons hlen]
      cases next? rs p with
      | some q => simp [pointsFrom]
      | none =>
        by_cases hv : v < r.2
        · have hstart := pointsFrom_start hrs
          rw [if_pos hv, range_of_le (show v + 1 ≤ r.2 by omega), List.flatMap_cons]
          simp [pointsFrom, hstart]
        · rw [if_neg hv, range_of_lt (show r.2 < v + 1 by omega)]
          rfl

end Odometer

section Fill

variable {m : Type → Type} [Monad m] [LawfulMonad m] {value : List Int → m α}

theorem fillFrom_eq (hranges : ∀ r ∈ ranges, r.1 ≤ r.2) (h : p.length = ranges.length)
    (es : Elements α) : fillFrom ranges value p es =
      (fun vs => es.insertMany ((pointsFrom ranges p).zip vs)) <$>
        (pointsFrom ranges p).mapM value := by
  induction hn : turnsLeft ranges.reverse p.reverse using Nat.strongRecOn
    generalizing p es with
  | ind n ih =>
    rw [fillFrom, pointsFrom_eq hranges h]
    split
    · rename_i hnext
      rw [hnext]
      simp
    · rename_i q hnext
      have hlt := hn ▸ turnsLeft_next? hnext
      rw [hnext]
      simp only [ih _ hlt ((length_next? hnext).trans h) _ rfl]
      simp [Std.TreeMap.insertMany_cons]

def store (g : Grid α) (name : String) (xs : List (List Int × α)) : Grid α :=
  { g with fields := g.fields.insert name (((g.fields.get? name).getD {}).insertMany xs) }

theorem fillM_eq (g : Grid α) (name : String) (ds : List Dimension) (halo : Int) :
    g.fillM name ds halo value =
      (fun vs => g.store name ((points (g.padded ds halo)).zip vs)) <$>
        (points (g.padded ds halo)).mapM value := by
  rw [fillM]
  split
  · rename_i hempty
    rw [points_eq_nil (by simpa using hempty)]
    simp [store]
  · rename_i hranges
    have hranges : ∀ r ∈ g.padded ds halo, r.1 ≤ r.2 := by simpa using hranges
    rw [fillFrom_eq hranges (List.length_map _), pointsFrom_start hranges]
    simp [store]

variable {g : Grid α} {name other : String} {xs : List (List Int × α)} {x : List Int × α}

omit [Monad m] [LawfulMonad m] in
theorem get?_store (p : List Int) : (g.store name xs).get? name p =
    (((g.fields.get? name).getD {}).insertMany xs)[p]? := by
  rw [get?, store, Table.get?_insert, beq_self_eq_true, if_pos rfl]
  rfl

omit [Monad m] [LawfulMonad m] in
theorem get?_store_of_mem (hxs : (xs.map Prod.fst).Nodup) (h : x ∈ xs) :
    (g.store name xs).get? name x.1 = some x.2 := by
  rw [get?_store]
  refine Std.TreeMap.getElem?_insertMany_list_of_mem Std.ReflCmp.compare_self ?_ h
  refine (List.pairwise_map.1 hxs).imp fun hne => ?_
  rwa [Std.LawfulEqCmp.compare_eq_iff_eq]

omit [Monad m] [LawfulMonad m] in
theorem get?_store_of_not_mem (h : p ∉ xs.map Prod.fst) :
    (g.store name xs).get? name p = g.get? name p := by
  rw [get?_store, get?,
    Std.TreeMap.getElem?_insertMany_list_of_contains_eq_false (by simpa using h)]
  cases g.fields.get? name <;> simp

omit [Monad m] [LawfulMonad m] in
theorem get?_fields_store (h : other ≠ name) :
    (g.store name xs).fields.get? other = g.fields.get? other := by
  rw [store, Table.get?_insert, if_neg (by simpa using h.symm)]

end Fill

/-- A field is filled by asking for a value at every point of the padded bounds, once and in
lexicographic order, and by storing it there. Nothing is asked if there is no point. All else is
left as it was. -/
theorem fillM_stores_points {m : Type → Type} [Monad m] [LawfulMonad m] (g : Grid α)
    (name : String) (ds : List Dimension) (halo : Int) (value : List Int → m α) :
    let box := g.padded ds halo
    (∀ p, p ∈ points box ↔ List.Forall₂ (fun v r => r.1 ≤ v ∧ v ≤ r.2) p box) ∧
      (points box).Pairwise (List.Lex (· < ·)) ∧
      g.fillM name ds halo value =
        (fun vs => g.store name ((points box).zip vs)) <$> (points box).mapM value ∧
      ((∃ r ∈ box, r.2 < r.1) → g.fillM name ds halo value = pure (g.store name [])) ∧
      ∀ vs : List α, vs.length = (points box).length →
        let filled := g.store name ((points box).zip vs)
        (∀ x ∈ (points box).zip vs, filled.get? name x.1 = some x.2) ∧
          (∀ p ∉ points box, filled.get? name p = g.get? name p) ∧
          (∀ other ≠ name, filled.fields.get? other = g.fields.get? other) ∧
          filled.bounds = g.bounds ∧ filled.params = g.params := by
  intro box
  refine ⟨fun p => mem_points, pairwise_points box, fillM_eq g name ds halo, fun hempty => ?_,
    fun vs hlen => ?_⟩
  · rw [fillM_eq, points_eq_nil hempty]
    simp
  · have hfst : ((points box).zip vs).map Prod.fst = points box :=
      List.map_fst_zip (Nat.le_of_eq hlen.symm)
    have hnodup : (points box).Nodup := (pairwise_points box).imp fun hlt => by
      rintro rfl
      exact List.lex_irrefl Int.lt_irrefl _ hlt
    refine ⟨fun x hx => ?_, fun p hp => ?_, fun other hother => ?_, rfl, rfl⟩
    · exact get?_store_of_mem (hfst.symm ▸ hnodup) hx
    · exact get?_store_of_not_mem (hfst.symm ▸ hp)
    · exact get?_fields_store hother

def narrow : Grid Int :=
  ((({} : Grid Int).withBounds (.space "x") 0 0).withBounds (.space "y") 5 4).set "u" [7, 7] 70

def rankOf (p : List Int) : StateM (List (List Int)) Int :=
  modifyGet fun asked => ((asked.length : Int), asked ++ [p])

theorem fillM_stores_points_narrow :
    let filled := (narrow.fillM "u" [.space "x", .space "y"] 1 rankOf).run []
    filled.2 = [[-1, 4], [-1, 5], [0, 4], [0, 5], [1, 4], [1, 5]] ∧
      filled.1.get? "u" [0, 5] = some 3 ∧ filled.1.get? "u" [7, 7] = some 70 := by
  have hbox : narrow.padded [.space "x", .space "y"] 1 = [(-1, 1), (4, 5)] := by decide
  have hpoints : points [(-1, 1), (4, 5)] =
      [[-1, 4], [-1, 5], [0, 4], [0, 5], [1, 4], [1, 5]] := by decide
  obtain ⟨-, -, hfill, -, hstored⟩ :=
    fillM_stores_points narrow "u" [.space "x", .space "y"] 1 rankOf
  simp only [hbox, hpoints] at hfill hstored
  obtain ⟨hnew, hold, -⟩ := hstored [0, 1, 2, 3, 4, 5] rfl
  have hrun : (narrow.fillM "u" [.space "x", .space "y"] 1 rankOf).run [] =
      (narrow.store "u" ([[-1, 4], [-1, 5], [0, 4], [0, 5], [1, 4], [1, 5]].zip [0, 1, 2, 3, 4, 5]),
        [[-1, 4], [-1, 5], [0, 4], [0, 5], [1, 4], [1, 5]]) := by
    rw [hfill]
    rfl
  rw [hrun]
  exact ⟨rfl, hnew ([0, 5], 3) (by decide), hold [7, 7] (by decide)⟩

end Stencil.Grid
