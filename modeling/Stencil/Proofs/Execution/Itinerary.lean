import Mathlib.Data.List.FinRange
import Stencil.Proofs.Execution.Tour

namespace Stencil.Nest

variable {α ι : Type} {m : Type → Type} [Monad m] [LawfulMonad m] [MonadExcept EvalError m]
  {bounds : Dimension → Option (Int × Int)} {f : ι → Cluster α} {ds : List Dimension}
  {n depth : Nat} {i j : ι} {is part : List ι} {cs : List (Cluster α)} {ws us : List Int}

def parts (f : ι → Cluster α) (depth : Nat) (is : List ι) : List (List ι) :=
  is.splitBy fun i j => level? depth (f i) == level? depth (f j)

def within (bounds : Dimension → Option (Int × Int)) (f : ι → Cluster α) (depth : Nat)
    (part : List ι) (ws : List Int) (inner : List Int → List (ι × List Int)) :
    List (ι × List Int) :=
  match part with
  | [] => []
  | i :: _ =>
    match level? depth (f i) with
    | none => part.map fun j => (j, ws)
    | some iv => (values (f i) iv ((bounds iv.dim).getD (0, 0))).flatMap fun v => inner (ws ++ [v])

/-- The places that are visited, with the values of the loops around them, by a walk from a level
inwards. The first argument is greater than the number of levels left. -/
def itineraryFrom (bounds : Dimension → Option (Int × Int)) (f : ι → Cluster α) :
    Nat → Nat → List ι → List Int → List (ι × List Int)
  | 0, _, _, _ => []
  | n + 1, depth, is, ws => (parts f depth is).flatMap fun part =>
    within bounds f depth part ws (itineraryFrom bounds f n (depth + 1) part)

def itinerary (bounds : Dimension → Option (Int × Int)) (cs : List (Cluster α)) :
    List (Fin cs.length × List Int) :=
  itineraryFrom bounds cs.get (levels cs) 0 (List.finRange cs.length) []

section Parts

omit [Monad m] [LawfulMonad m] [MonadExcept EvalError m]

theorem flatten_parts (f : ι → Cluster α) (depth : Nat) (is : List ι) :
    (parts f depth is).flatten = is :=
  List.flatten_splitBy _ is

theorem mem_of_mem_parts (hpart : part ∈ parts f depth is) (hi : i ∈ part) : i ∈ is := by
  rw [← flatten_parts f depth is]
  exact List.mem_flatten.2 ⟨part, hpart, hi⟩

theorem exists_mem_parts (f : ι → Cluster α) (depth : Nat) (hi : i ∈ is) :
    ∃ part ∈ parts f depth is, i ∈ part := by
  rw [← flatten_parts f depth is] at hi
  exact List.mem_flatten.1 hi

theorem level?_of_mem_parts (hpart : part ∈ parts f depth is) (hi : i ∈ part) (hj : j ∈ part) :
    level? depth (f i) = level? depth (f j) := by
  have htrans : IsTrans ι fun i j => (level? depth (f i) == level? depth (f j)) = true :=
    ⟨fun a b c hab hbc => by simp_all⟩
  have hsymm : Std.Symm fun i j => (level? depth (f i) == level? depth (f j)) = true :=
    ⟨fun a b hab => by simp_all⟩
  exact beq_iff_eq.1 ((List.isChain_of_mem_splitBy hpart).pairwise.forall_of_forall
    (fun _ _ => beq_self_eq_true _) hi hj)

theorem groups_map (f : ι → Cluster α) (depth : Nat) (is : List ι) :
    groups depth (is.map f) = (parts f depth is).map (List.map f) := by
  obtain ⟨hflatten, hne, hchain, hends⟩ := List.splitBy_eq_iff.1 (rfl : parts f depth is = _)
  refine List.splitBy_eq_iff.2 ⟨?_, ?_, ?_, ?_⟩
  · rw [← List.map_flatten, ← hflatten]
  · simpa using hne
  · refine List.forall_mem_map.2 fun part hpart => ?_
    rw [List.isChain_map]
    exact hchain part hpart
  · rw [List.isChain_map]
    refine hends.imp fun a b ⟨ha, hb, hr⟩ => ⟨by simpa using ha, by simpa using hb, ?_⟩
    rwa [List.getLast_map, List.head_map]

end Parts

section Within

variable {inner : List Int → List (ι × List Int)}

omit [Monad m] [LawfulMonad m] [MonadExcept EvalError m]

theorem within_of_none (h : ∀ i ∈ part, level? depth (f i) = none) :
    within bounds f depth part ws inner = part.map fun j => (j, ws) := by
  cases part with
  | nil => rfl
  | cons i part => simp only [within, h i List.mem_cons_self]

theorem within_of_some {iv : Interval} (h : level? depth (f i) = some iv) :
    within bounds f depth (i :: part) ws inner =
      (values (f i) iv ((bounds iv.dim).getD (0, 0))).flatMap fun v => inner (ws ++ [v]) := by
  simp only [within, h]

end Within

def station (f : ι → Cluster α) (q : ι × List Int) : Position :=
  stand (f q.1).space.box.dimensions q.2

structure Entered (bounds : Dimension → Option (Int × Int)) (f : ι → Cluster α)
    (ds : List Dimension) (is : List ι) : Prop where
  outer : ∀ i ∈ is, ds <+: (f i).space.box.dimensions
  names : ∀ i ∈ is, ((f i).space.box.dimensions.map Dimension.name).Nodup
  bounded : ∀ i ∈ is, ∀ d ∈ (f i).space.box.dimensions, (bounds d).isSome = true

namespace Entered

omit [Monad m] [LawfulMonad m] [MonadExcept EvalError m]

theorem of_mem_parts (h : Entered bounds f ds is) (hpart : part ∈ parts f depth is) :
    Entered bounds f ds part where
  outer i hi := h.outer i (mem_of_mem_parts hpart hi)
  names i hi := h.names i (mem_of_mem_parts hpart hi)
  bounded i hi := h.bounded i (mem_of_mem_parts hpart hi)

theorem eq_dimensions (h : Entered bounds f ds is) (hi : i ∈ is)
    (hlevel : level? ds.length (f i) = none) : (f i).space.box.dimensions = ds := by
  refine ((h.outer i hi).eq_of_length_le ?_).symm
  rw [level?, List.getElem?_eq_none_iff] at hlevel
  rwa [Box.dimensions, List.length_map]

theorem exists_dimensions (h : Entered bounds f ds is) (hi : i ∈ is) {iv : Interval}
    (hlevel : level? ds.length (f i) = some iv) :
    ∃ ds', (f i).space.box.dimensions = ds ++ iv.dim :: ds' := by
  obtain ⟨es, hes⟩ := h.outer i hi
  have hget : (f i).space.box.dimensions[ds.length]? = some iv.dim := by
    rw [Box.dimensions, List.getElem?_map, ← level?, hlevel]
    rfl
  rw [← hes, List.getElem?_append_right le_rfl, Nat.sub_self] at hget
  cases es with
  | nil => simp at hget
  | cons d es => exact ⟨es, by rw [← hes, ← Option.some.inj hget]⟩

theorem enter (h : Entered bounds f ds is) {iv : Interval}
    (hlevel : ∀ i ∈ is, level? ds.length (f i) = some iv) :
    Entered bounds f (ds ++ [iv.dim]) is where
  outer i hi := by
    obtain ⟨es, hes⟩ := h.exists_dimensions hi (hlevel i hi)
    exact ⟨es, (List.append_assoc ds [iv.dim] es).trans hes.symm⟩
  names := h.names
  bounded := h.bounded

end Entered

theorem walkFrom_eq_itinerary (visit : Cluster α → Position → m Unit)
    (hds : Entered bounds f ds is) (hlen : ds.length = ws.length) (n : Nat) :
    walkFrom bounds visit n ds.length (is.map f) (stand ds ws) =
      forM (itineraryFrom bounds f n ds.length is ws) (fun q => visit (f q.1) (station f q)) >>=
        fun _ => pure (stand ds ws) := by
  induction n generalizing ds is ws with
  | zero => simp [walkFrom, itineraryFrom]
  | succ n ih =>
    rw [walkFrom, itineraryFrom, groups_map, List.foldlM_map]
    refine foldlM_visits fun part hpart => ?_
    have hpds := hds.of_mem_parts hpart
    cases part with
    | nil => simp [within]
    | cons i part =>
      have hlevels : ∀ j ∈ i :: part, level? ds.length (f j) = level? ds.length (f i) :=
        fun j hj => level?_of_mem_parts hpart hj List.mem_cons_self
      simp only [List.map_cons]
      cases hlevel : level? ds.length (f i) with
      | none =>
        rw [hlevel] at hlevels
        have hstation : ∀ j ∈ i :: part, station f (j, ws) = stand ds ws := fun j hj => by
          rw [station, hpds.eq_dimensions hj (hlevels j hj)]
        have hmap : ((i :: part).map fun j => (f j, station f (j, ws))) =
            (i :: part).map fun j => (f j, stand ds ws) :=
          List.map_congr_left fun j hj => by rw [hstation j hj]
        have hvisits : (forM ((i :: part).map f) fun c => visit c (stand ds ws)) =
            forM ((i :: part).map fun j => (j, ws)) fun q => visit (f q.1) (station f q) := by
          have hforM := congrArg (forM · fun q => visit q.1 q.2) hmap
          simp only [List.forM_map] at hforM ⊢
          exact hforM.symm
        rw [within_of_none fun j hj => hlevels j hj]
        exact congrArg (· >>= fun _ => pure (stand ds ws)) hvisits
      | some iv =>
        rw [hlevel] at hlevels
        have hnext := hpds.enter hlevels
        obtain ⟨ds', hds'⟩ := hnext.outer i List.mem_cons_self
        have hnames : ((ds ++ [iv.dim]).map Dimension.name).Nodup := by
          have hi := hpds.names i List.mem_cons_self
          rw [← hds', List.map_append] at hi
          exact hi.of_append_left
        obtain ⟨b, hb⟩ := Option.isSome_iff_exists.1
          (hpds.bounded i List.mem_cons_self iv.dim (hds' ▸ by simp))
        have hinner := fun v => ih hnext (show (ds ++ [iv.dim]).length = (ws ++ [v]).length by
          simp [hlen])
        have hloop := foldlM_values hnames hlen hinner (values (f i) iv b) none
        rw [within_of_some hlevel]
        simp only [hb, Option.getD_some]
        rwa [Option.toList_none, List.append_nil, List.length_append, stand_prefix hlen] at hloop

omit [Monad m] [LawfulMonad m] [MonadExcept EvalError m] in
theorem size_lt_levels {c : Cluster α} (hc : c ∈ cs) : c.space.box.size < levels cs := by
  have hle : ∀ (l : List Nat) (a : Nat), a ≤ l.foldl max a ∧ ∀ x ∈ l, x ≤ l.foldl max a := by
    intro l
    induction l with
    | nil => simp
    | cons x l ih =>
      intro a
      obtain ⟨ha, hl⟩ := ih (max a x)
      exact ⟨(le_max_left a x).trans ha,
        List.forall_mem_cons.2 ⟨(le_max_right a x).trans ha, hl⟩⟩
  exact Nat.lt_succ_of_le ((hle _ 0).2 _ (List.mem_map_of_mem hc))

theorem entered_nil (hnames : ∀ c ∈ cs, (c.space.box.dimensions.map Dimension.name).Nodup)
    (hbounds : ∀ c ∈ cs, ∀ d ∈ c.space.box.dimensions, (bounds d).isSome = true) :
    Entered bounds cs.get [] (List.finRange cs.length) where
  outer _ _ := List.nil_prefix
  names i _ := hnames _ (cs.get_mem i)
  bounded i _ := hbounds _ (cs.get_mem i)

theorem walk_eq_itinerary
    (hnames : ∀ c ∈ cs, (c.space.box.dimensions.map Dimension.name).Nodup)
    (hbounds : ∀ c ∈ cs, ∀ d ∈ c.space.box.dimensions, (bounds d).isSome = true)
    (visit : Cluster α → Position → m Unit) :
    walk bounds visit cs =
      forM (itinerary bounds cs) (fun q => visit (cs.get q.1) (station cs.get q)) := by
  have hwalk := walkFrom_eq_itinerary visit (entered_nil hnames hbounds)
    (show ([] : List Dimension).length = ([] : List Int).length from rfl) (levels cs)
  rw [← List.ofFn_eq_map, List.ofFn_get] at hwalk
  have hstart : (Table.empty : Position) = stand [] [] := rfl
  rw [walk, hstart, ← List.length_nil (α := Dimension), hwalk, discard, LawfulFunctor.map_const]
  simp only [Function.comp_apply, map_bind, map_pure, Function.const_apply]
  exact bind_pure _

omit [Monad m] [LawfulMonad m] [MonadExcept EvalError m] in
theorem visits_eq_itinerary
    (hnames : ∀ c ∈ cs, (c.space.box.dimensions.map Dimension.name).Nodup)
    (hbounds : ∀ c ∈ cs, ∀ d ∈ c.space.box.dimensions, (bounds d).isSome = true) :
    visits bounds cs =
      (itinerary bounds cs).map fun q => (cs.get q.1, station cs.get q) := by
  have hlog := forM_log ((itinerary bounds cs).map fun q => (cs.get q.1, station cs.get q)) []
  rw [List.forM_map] at hlog
  simp only [visits, walk_eq_itinerary hnames hbounds, EStateM.run, hlog, List.nil_append]

omit [Monad m] [LawfulMonad m] [MonadExcept EvalError m]

theorem mem_within {inner : List Int → List (ι × List Int)} (hpart : part ∈ parts f depth is)
    (hinner : (∀ i ∈ part, depth < (f i).space.box.size) → ∀ v, (i, us) ∈ inner (ws ++ [v]) ↔
      i ∈ part ∧ ∃ vs, us = ws ++ [v] ++ vs ∧
        Inside bounds ((f i).space.box.intervals.drop (depth + 1)) vs) :
    (i, us) ∈ within bounds f depth part ws inner ↔
      i ∈ part ∧ ∃ vs, us = ws ++ vs ∧ Inside bounds ((f i).space.box.intervals.drop depth) vs := by
  cases part with
  | nil => simp [within]
  | cons l part =>
    have hlevels : ∀ j ∈ l :: part, level? depth (f j) = level? depth (f l) :=
      fun j hj => level?_of_mem_parts hpart hj List.mem_cons_self
    cases hlevel : level? depth (f l) with
    | none =>
      rw [hlevel] at hlevels
      have hdrop : ∀ j ∈ l :: part, (f j).space.box.intervals.drop depth = [] := fun j hj =>
        List.drop_eq_nil_iff.2 (List.getElem?_eq_none_iff.1 (hlevels j hj))
      rw [within_of_none hlevels, List.mem_map]
      constructor
      · rintro ⟨j, hj, heq⟩
        obtain ⟨rfl, rfl⟩ := Prod.mk.inj heq
        exact ⟨hj, [], (List.append_nil ws).symm, hdrop j hj ▸ .nil⟩
      · rintro ⟨hi, vs, rfl, hvs⟩
        rw [hdrop i hi, Inside, List.forall₂_nil_left_iff] at hvs
        exact ⟨i, hi, by rw [hvs, List.append_nil]⟩
    | some iv =>
      rw [hlevel] at hlevels
      have hdrop : ∀ j ∈ l :: part, (f j).space.box.intervals.drop depth =
          iv :: (f j).space.box.intervals.drop (depth + 1) := fun j hj =>
        (List.drop_eq_getElem?_toList_append).trans (by rw [← level?, hlevels j hj]; rfl)
      rw [within_of_some hlevel, List.mem_flatMap]
      simp only [mem_values, hinner fun j hj => (List.getElem?_eq_some_iff.1 (hlevels j hj)).1]
      constructor
      · rintro ⟨v, hv, hi, vs, rfl, hvs⟩
        refine ⟨hi, v :: vs, by simp, ?_⟩
        rw [hdrop i hi]
        exact .cons hv hvs
      · rintro ⟨hi, vs, rfl, hvs⟩
        rw [hdrop i hi, Inside, List.forall₂_cons_left_iff] at hvs
        obtain ⟨v, vs, hv, hvs, rfl⟩ := hvs
        exact ⟨v, hv, hi, vs, by simp, hvs⟩

theorem mem_itineraryFrom (hsize : ∀ i ∈ is, (f i).space.box.size < depth + n)
    (hdepth : ∀ i ∈ is, depth ≤ (f i).space.box.size) :
    (i, us) ∈ itineraryFrom bounds f n depth is ws ↔
      i ∈ is ∧ ∃ vs, us = ws ++ vs ∧ Inside bounds ((f i).space.box.intervals.drop depth) vs := by
  induction n generalizing depth is ws with
  | zero =>
    have hnone : i ∉ is := fun hi => by have := hsize i hi; have := hdepth i hi; omega
    simp [itineraryFrom, hnone]
  | succ n ih =>
    have hmem : ∀ part ∈ parts f depth is,
        (i, us) ∈ within bounds f depth part ws (itineraryFrom bounds f n (depth + 1) part) ↔
          i ∈ part ∧ ∃ vs, us = ws ++ vs ∧
            Inside bounds ((f i).space.box.intervals.drop depth) vs :=
      fun part hpart => mem_within hpart fun hdepth' v =>
        ih (fun j hj => by have := hsize j (mem_of_mem_parts hpart hj); omega) hdepth'
    rw [itineraryFrom, List.mem_flatMap]
    constructor
    · rintro ⟨part, hpart, h⟩
      obtain ⟨hi, h⟩ := (hmem part hpart).1 h
      exact ⟨mem_of_mem_parts hpart hi, h⟩
    · rintro ⟨hi, h⟩
      obtain ⟨part, hpart, hi⟩ := exists_mem_parts f depth hi
      exact ⟨part, hpart, (hmem part hpart).2 ⟨hi, h⟩⟩

theorem mem_itinerary {i : Fin cs.length} :
    (i, us) ∈ itinerary bounds cs ↔ Inside bounds (cs.get i).space.box.intervals us := by
  rw [itinerary, mem_itineraryFrom (fun i _ => ?_) fun i _ => Nat.zero_le _]
  · simp
  · rw [Nat.zero_add]
    exact size_lt_levels (cs.get_mem i)

end Stencil.Nest
