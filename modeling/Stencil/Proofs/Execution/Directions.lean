import Stencil.Proofs.Execution.Traversal

namespace Stencil.Nest

variable {α : Type} {bounds : Dimension → Option (Int × Int)} {c c' : Cluster α}
  {cs : List (Cluster α)} {k : Nat} {i f : Fin cs.length} {iv : Interval} {us vs : List Int}
  {v w : Int}

/-- Whether a cluster is visited in its own direction along a level, within each iteration of the
loops around it. -/
def InOrder (V : List (Visit cs)) (k : Nat) (i : Fin cs.length) : Prop :=
  ((V.filter (·.1 = i)).map (·.2)).Pairwise fun us vs => us.take k = vs.take k →
    ∀ v w, us[k]? = some v → vs[k]? = some w → v = w ∨ Ahead k (cs.get i) v w

theorem Ahead.congr (h : Descends k c ↔ Descends k c') (hvw : Ahead k c v w) : Ahead k c' v w := by
  rwa [Ahead, h] at hvw

theorem Ahead.descends_iff (h : Ahead k c v w) (h' : Ahead k c' v w) :
    Descends k c ↔ Descends k c' := by
  rcases h with ⟨hd, h⟩ | ⟨hd, h⟩ <;> rcases h' with ⟨hd', h'⟩ | ⟨hd', h'⟩
  · exact iff_of_true hd hd'
  · omega
  · omega
  · exact iff_of_false hd hd'

theorem exists_inside {is : List Interval} (h : ∀ iv ∈ is, range bounds iv ≠ []) :
    ∃ ws, Inside bounds is ws := by
  induction is with
  | nil => exact ⟨[], .nil⟩
  | cons iv is ih =>
    obtain ⟨hiv, his⟩ := List.forall_mem_cons.1 h
    obtain ⟨w, hw⟩ := List.exists_mem_of_ne_nil _ hiv
    obtain ⟨ws, hws⟩ := ih his
    exact ⟨w :: ws, .cons hw hws⟩

theorem exists_inside_append (hiv : level? k c = some iv)
    (hidle : ∀ iv ∈ c.space.box.intervals, range bounds iv ≠ []) :
    ∃ us vs, us.length = k ∧ ∀ w ∈ range bounds iv,
      Inside bounds c.space.box.intervals (us ++ w :: vs) := by
  obtain ⟨hk, rfl⟩ := List.getElem?_eq_some_iff.1 hiv
  obtain ⟨us, hus⟩ := exists_inside fun iv hiv => hidle iv (List.mem_of_mem_take (i := k) hiv)
  obtain ⟨vs, hvs⟩ := exists_inside fun iv hiv => hidle iv (List.mem_of_mem_drop (i := k + 1) hiv)
  refine ⟨us, vs, ?_, fun w hw => ?_⟩
  · rw [← hus.length_eq, List.length_take_of_le hk.le]
  · have happend := List.rel_append hus (.cons hw hvs)
    dsimp only at happend
    rwa [List.getElem_cons_drop, List.take_append_drop] at happend

theorem mem_range_of_inside {is : List Interval} (h : Inside bounds is us) (hiv : is[k]? = some iv)
    (hv : us[k]? = some v) : v ∈ range bounds iv := by
  obtain ⟨hk, rfl⟩ := List.getElem?_eq_some_iff.1 hiv
  obtain ⟨hk', rfl⟩ := List.getElem?_eq_some_iff.1 hv
  exact List.Forall₂.get h hk hk'

theorem Before.ahead (hf : IsLeast {j | Shares cs (k + 1) i j} f)
    (h : Before ((i, us) : Visit cs) (i, vs)) (htake : us.take k = vs.take k)
    (hv : us[k]? = some v) (hw : vs[k]? = some w) : v = w ∨ Ahead k (cs.get f) v w := by
  have hself : Shares cs (k + 1) i i := hf.1.trans hf.1.symm
  have htogether : Together k ((i, us) : Visit cs) (i, vs) := ⟨hself.mono k.le_succ, htake⟩
  obtain ⟨k', htogether', hnext⟩ := h
  rcases lt_trichotomy k' k with hlt | rfl | hgt
  · exact absurd (htogether.mono hlt) hnext.not_together
  · cases hnext with
    | place _ hlt => exact absurd hlt (lt_irrefl i)
    | loop _ hf' hv' hw' hvw =>
      obtain rfl := hf.unique hf'
      obtain rfl := Option.some.inj (hv.symm.trans hv')
      obtain rfl := Option.some.inj (hw.symm.trans hw')
      exact .inr hvw
  · refine .inl (Option.some.inj ?_)
    rw [← hv, ← hw, getElem?_eq (htogether'.mono hgt).2]

theorem inOrder_iff (hiv : level? k (cs.get i) = some iv)
    (hf : IsLeast {j | Shares cs (k + 1) i j} f) :
    InOrder (itinerary bounds cs) k i ↔ (Descends k (cs.get f) ↔ Descends k (cs.get i)) ∨
      (range bounds iv).length ≤ 1 ∨
        ∃ iv ∈ (cs.get i).space.box.intervals, range bounds iv = [] := by
  have hself : Shares cs (k + 1) i i := hf.1.trans hf.1.symm
  constructor
  · intro h
    by_contra hnot
    rw [not_or, not_or] at hnot
    obtain ⟨hdir, hlen, hidle⟩ := hnot
    obtain ⟨us, vs, hus, hinside⟩ := exists_inside_append hiv fun iv hmem hempty =>
      hidle ⟨iv, hmem, hempty⟩
    have htake : ∀ w, (us ++ w :: vs).take k = us := fun w => List.take_left' hus
    have hvalue : ∀ w, (us ++ w :: vs)[k]? = some w := fun w => by simp [← hus]
    -- What is ahead along the shared loop is ahead for the cluster.
    have hahead : ∀ v ∈ range bounds iv, ∀ w ∈ range bounds iv, ¬ Ahead k (cs.get f) v w := by
      intro v hv w hw hvw
      have hbefore : Before ((i, us ++ v :: vs) : Visit cs) (i, us ++ w :: vs) :=
        ⟨k, ⟨hself.mono k.le_succ, (htake v).trans (htake w).symm⟩,
          .loop hself hf (hvalue v) (hvalue w) hvw⟩
      have hsublist := (((before_iff (mem_itinerary.2 (hinside v hv))
        (mem_itinerary.2 (hinside w hw))).1 hbefore).filter (·.1 = i)).map (·.2)
      have hpair := h.sublist hsublist
      simp only [List.filter_cons_of_pos, decide_true, List.filter_nil, List.map_cons, List.map_nil,
        List.pairwise_pair] at hpair
      have hown := hpair ((htake v).trans (htake w).symm) v w (hvalue v) (hvalue w)
      exact hdir (hvw.descends_iff (hown.resolve_left hvw.ne))
    obtain ⟨v, hv, w, hw, hvw⟩ : ∃ v ∈ range bounds iv, ∃ w ∈ range bounds iv, v < w := by
      have hsorted : (range bounds iv).Pairwise (· < ·) := Grid.pairwise_range _ _
      rcases hvalues : range bounds iv with _ | ⟨v, _ | ⟨w, values⟩⟩
      · simp [hvalues] at hlen
      · simp [hvalues] at hlen
      · rw [hvalues] at hsorted
        exact ⟨v, by simp, w, by simp, List.rel_of_pairwise_cons hsorted List.mem_cons_self⟩
    by_cases hd : Descends k (cs.get f)
    · exact hahead w hw v hv (.inl ⟨hd, hvw⟩)
    · exact hahead v hv w hw (.inr ⟨hd, hvw⟩)
  · intro h
    rw [InOrder, List.pairwise_map]
    refine ((pairwise_itinerary bounds cs).filter _).imp_of_mem ?_
    rintro ⟨j, us⟩ ⟨j', vs⟩ hp hq hbefore htake v w hv hw
    rw [List.mem_filter, decide_eq_true_iff] at hp hq
    obtain ⟨hus, rfl⟩ := hp
    obtain ⟨hvs, rfl : j' = j⟩ := hq
    rw [mem_itinerary] at hus hvs
    rcases h with hdir | hlen | ⟨iv', hmem, hempty⟩
    · exact (hbefore.ahead hf htake hv hw).imp_right (Ahead.congr hdir)
    · have hv := mem_range_of_inside hus hiv hv
      have hw := mem_range_of_inside hvs hiv hw
      refine .inl (by_contra fun hne => ?_)
      rcases pair_sublist hv hw hne with h | h <;> exact absurd (h.length_le.trans hlen) (by simp)
    · obtain ⟨m, hm, rfl⟩ := List.mem_iff_getElem.1 hmem
      have hnone := mem_range_of_inside hus (List.getElem?_eq_getElem hm)
        (List.getElem?_eq_getElem (hus.length_eq ▸ hm))
      rw [hempty] at hnone
      exact absurd hnone List.not_mem_nil

/-- The visits that a walk makes, and along which of the loops around it each cluster is visited
in its own direction. -/
theorem visits_inOrder_iff
    (hnames : ∀ c ∈ cs, (c.space.box.dimensions.map Dimension.name).Nodup)
    (hbounds : ∀ c ∈ cs, ∀ d ∈ c.space.box.dimensions, (bounds d).isSome = true) :
    ∃ V, Traverses bounds cs V ∧
      visits bounds cs = V.map (fun q => (cs.get q.1, station cs.get q)) ∧
      ∀ {k i f iv}, level? k (cs.get i) = some iv → IsLeast {j | Shares cs (k + 1) i j} f →
        (InOrder V k i ↔ (Descends k (cs.get f) ↔ Descends k (cs.get i)) ∨
          (range bounds iv).length ≤ 1 ∨
            ∃ iv ∈ (cs.get i).space.box.intervals, range bounds iv = []) :=
  ⟨itinerary bounds cs, traverses_itinerary hbounds, visits_eq_itinerary hnames hbounds,
    inOrder_iff⟩

section Opposed

open Exec

def along (d : Direction) (lhs rhs : Access) : Cluster ℚ :=
  let as : List (Assignment ℚ) := [{ lhs := .access lhs, rhs := .access rhs }]
  let s : IterationSpace := ⟨.ofList [.exact (.space "x")], .ofList [(.space "x", d)]⟩
  { assignments := as, space := s, footprint := .ofAssignments as s }

def column (name : String) (o : Int) : Access := ⟨.input name, [.affine (.space "x") o]⟩

/-- Two clusters that carry a value along the same loop, one upwards and one downwards. -/
def opposed : List (Cluster ℚ) :=
  [along .forward (column "u" 1) (column "u" 0), along .backward (column "v" (-1)) (column "v" 0)]

def opposedGrid : Grid ℚ :=
  (((({} : Grid ℚ).withBounds (.space "x") 0 1).set "u" [0] 1).set "v" [0] 5).set "v" [1] 7

theorem level?_opposed (l : Fin opposed.length) :
    level? 0 (opposed.get l) = some ⟨.space "x", 0, 0⟩ := by
  revert l
  decide

theorem isLeast_opposed (i : Fin opposed.length) :
    IsLeast {j | Shares opposed (0 + 1) i j} ⟨0, by decide⟩ := by
  refine ⟨fun l _ m hm => ?_, fun j _ => Nat.zero_le j⟩
  obtain rfl : m = 0 := by omega
  exact ⟨_, level?_opposed i, level?_opposed l⟩

theorem descends_opposed : ¬ Descends 0 (opposed.get ⟨0, by decide⟩) ∧
    Descends 0 (opposed.get ⟨1, by decide⟩) := by
  refine ⟨?_, ⟨.space "x", 0, 0⟩, by decide, by decide⟩
  rintro ⟨iv, hiv, hdir⟩
  obtain rfl : (⟨.space "x", 0, 0⟩ : Interval) = iv := Option.some.inj hiv
  exact absurd hdir (by decide)

theorem visits_inOrder_iff_opposed :
    (∀ c ∈ opposed, (c.space.box.dimensions.map Dimension.name).Nodup) ∧
      (∀ c ∈ opposed, ∀ d ∈ c.space.box.dimensions,
        (opposedGrid.bounds.get? d).isSome = true) ∧
      ∃ V, Traverses opposedGrid.bounds.get? opposed V ∧
        visits opposedGrid.bounds.get? opposed =
          V.map (fun q => (opposed.get q.1, station opposed.get q)) ∧
        InOrder V 0 ⟨0, by decide⟩ ∧ ¬ InOrder V 0 ⟨1, by decide⟩ := by
  have hnames : ∀ c ∈ opposed, (c.space.box.dimensions.map Dimension.name).Nodup := by decide
  have hbounds : ∀ c ∈ opposed, ∀ d ∈ c.space.box.dimensions,
      (opposedGrid.bounds.get? d).isSome = true := by decide
  obtain ⟨V, htraverses, hvisits, hiff⟩ := visits_inOrder_iff hnames hbounds
  refine ⟨hnames, hbounds, V, htraverses, hvisits, ?_, ?_⟩
  · exact (hiff (level?_opposed _) (isLeast_opposed _)).2 (.inl Iff.rfl)
  · rw [hiff (level?_opposed _) (isLeast_opposed _)]
    have hdescends := descends_opposed
    simp only [hdescends.1, hdescends.2, false_iff, not_true, false_or]
    decide

/-- The second cluster goes upwards although it asks for the opposite, and spreads the value that
it would have replaced. -/
theorem backward_visited_forward :
    Descends 0 (opposed.get ⟨1, by decide⟩) ∧
      ¬ InOrder (itinerary opposedGrid.bounds.get? opposed) 0 ⟨1, by decide⟩ ∧
      (final? opposed opposedGrid).bind (·.get? "v" [-1]) = some 5 ∧
      (final? (opposed.drop 1) opposedGrid).bind (·.get? "v" [-1]) = some 7 := by
  refine ⟨descends_opposed.2, ?_, by cbv, by cbv⟩
  rw [inOrder_iff (level?_opposed _) (isLeast_opposed _)]
  have hdescends := descends_opposed
  simp only [hdescends.1, hdescends.2, false_iff, not_true, false_or]
  decide

end Opposed

end Stencil.Nest
