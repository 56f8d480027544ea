import Stencil.Proofs.Execution.Precedence
import Stencil.Proofs.Execution.Standing
import Stencil.Proofs.Pass.Coverage
import Stencil.Proofs.Pass.Readback
import Stencil.Proofs.Pass.Removed

/-!
When the arrays of the lifted groups are filled, and where in them what is stored. An array is
filled anew whenever the loops go on that it is not stored over, and it is complete before the
clusters that read it come to the points of these loops.
-/

namespace Stencil.Lifting

open Stencil.Expr Exec Nest

section Moves

variable {bounds : Dimension → Option (Int × Int)} {is : List Interval} {ws : List Int}

theorem inside_move {s : Shift} {pad r : Dimension → Int × Int}
    (h : Inside bounds (is.map fun i => ⟨i.dim, i.lower + (pad i.dim).1, i.upper + (pad i.dim).2⟩)
      ws)
    (hs : ∀ i ∈ is, (r i.dim).1 ≤ (pad i.dim).1 + s i.dim ∧
      (pad i.dim).2 + s i.dim ≤ (r i.dim).2) :
    Inside bounds (is.map fun i => ⟨i.dim, i.lower + (r i.dim).1, i.upper + (r i.dim).2⟩)
      (move s (is.map Interval.dim) ws) := by
  unfold Inside at h ⊢
  induction is generalizing ws with
  | nil =>
    rw [List.map_nil, List.forall₂_nil_left_iff] at h
    subst h
    exact .nil
  | cons i is ih =>
    obtain ⟨hsi, hs⟩ := List.forall_mem_cons.1 hs
    rw [List.map_cons, List.forall₂_cons_left_iff] at h
    obtain ⟨w, us, hw, hus, rfl⟩ := h
    refine .cons ?_ (ih hus hs)
    rw [mem_range] at hw ⊢
    dsimp only at hw ⊢
    omega

theorem take_move {ds : List Dimension} {s : Shift} {k : Nat} (hlen : ds.length = ws.length)
    (hs : ∀ d ∈ ds.take k, s d = 0) : (move s ds ws).take k = ws.take k := by
  refine List.ext_getElem (by simp [move, hlen]) fun j hj hj' => ?_
  simp only [List.length_take] at hj'
  have hd : s ds[j] = 0 := hs _ (List.mem_take_iff_getElem.2 ⟨j, by omega, rfl⟩)
  simp [move, hd]

theorem move_zero {ds : List Dimension} (hlen : ds.length = ws.length) :
    move (fun _ => 0) ds ws = ws := by
  have h := take_move (k := ws.length) (s := fun _ => 0) hlen fun _ _ => rfl
  rwa [List.take_length, List.take_of_length_le (length_move hlen ▸ hlen.le)] at h

end Moves

theorem exists_first (p : Nat → Prop) (n : Nat) :
    ∃ k ≤ n, (∀ j < k, p j) ∧ (k < n → ¬ p k) := by
  classical
  by_cases h : ∃ k < n, ¬ p k
  · obtain ⟨hlt, hnot⟩ := Nat.find_spec h
    refine ⟨Nat.find h, hlt.le, fun j hj => ?_, fun _ => hnot⟩
    by_contra hj'
    exact Nat.find_min h hj ⟨hj.trans hlt, hj'⟩
  · simp only [not_exists, not_and, not_not] at h
    exact ⟨n, le_rfl, h, fun hlt => absurd hlt (Nat.lt_irrefl n)⟩

section Slots

variable {α : Type} {ws us : List Int} {g : AliasGroup α} {s : IterationSpace}

def slot (s : IterationSpace) (g : AliasGroup α) (ws : List Int) : List Int :=
  List.zipWith (fun i w => w - (spread g i.dim).1) (s.box.intervals.drop (outer s g))
    (ws.drop (outer s g))

theorem place_element
    (htime : s.box.intervals.Pairwise fun i j => j.dim.isTime = true → i.dim.isTime = true)
    (f : Field) (shift : Shift) (hnames : (s.box.dimensions.map Dimension.name).Nodup)
    (hlen : s.box.intervals.length = ws.length) :
    ∃ y, (element f (storage s g) shift : Expr α) = access y ∧ y.field = f ∧
      y.place (stand s.box.dimensions ws) = .ok (slot s g (move shift s.box.dimensions ws)) := by
  have hforall := forall₂_stand hnames (show s.box.dimensions.length = ws.length by
    rw [Box.dimensions, List.length_map, hlen])
  rw [Box.dimensions, List.forall₂_map_left_iff] at hforall
  refine ⟨_, rfl, rfl, ?_⟩
  rw [(intervals_storage htime g).1, List.map_map]
  refine (Access.place_affine f _ (List.forall₂_drop (outer s g) hforall)).trans (congrArg _ ?_)
  refine List.ext_getElem (by simp [slot, move, Box.dimensions, hlen]) fun j _ _ => ?_
  simp only [slot, move, Box.dimensions, stored, List.getElem_zipWith, List.getElem_drop,
    List.getElem_map]
  omega

theorem slot_injective {k : Nat} (hk : outer s g ≤ k) (hws : s.box.intervals.length = ws.length)
    (hus : s.box.intervals.length = us.length) (htake : us.take k = ws.take k)
    (hslot : slot s g us = slot s g ws) : us = ws := by
  refine List.ext_getElem (hus.symm.trans hws) fun j hj hj' => ?_
  by_cases hjk : j < k
  · have hget := congrArg (·[j]?) htake
    simp only [List.getElem?_take_of_lt hjk, List.getElem?_eq_getElem hj,
      List.getElem?_eq_getElem hj'] at hget
    exact Option.some.inj hget
  · obtain ⟨m, rfl⟩ : ∃ m, j = outer s g + m := ⟨j - outer s g, by omega⟩
    have hget := congrArg (·[m]?) hslot
    simp only [slot, List.getElem?_zipWith, List.getElem?_drop] at hget
    rw [List.getElem?_eq_getElem hj, List.getElem?_eq_getElem hj',
      List.getElem?_eq_getElem (by omega)] at hget
    simpa using hget

end Slots

variable {α : Type} [Arithmetic α] [AlgebraicField α] [Exact α]

/-- When the arrays of a cluster are filled as they are to be. -/
structure Fillable (config : Config) (c : Cluster α) (names : Names) : Prop where
  target : ∀ a ∈ c.assignments, a.lhs.isInput = true
  distinct : (c.space.box.dimensions.map Dimension.name).Nodup
  dimensions : ∀ g ∈ lifted config c, ∀ d ∈ g.origin.dimensions, d ∈ c.space.box.dimensions
  /-- No origin reads the position along a loop along which its members differ. -/
  fixed : ∀ g ∈ lifted config c, ∀ i ∈ (storage c.space g).intervals, i.isExact = false →
    sym i.dim.name ∉ g.origin.inputs
  /-- A later group does not differ along loops that an earlier one is not stored over. -/
  nested : (lifted config c).Pairwise fun g g' => ∀ i ∈ (storage c.space g').intervals,
    i.isExact = false → i.dim ∈ (storage c.space g).dimensions
  /-- An array reaches as far as later ones are filled from it. -/
  reaches : (arrays c.space names (lifted config c)).Pairwise fun y x => ∀ m ∈ y.1.members,
    (fill config c names x).Reads (element y.2 (storage c.space y.1) m.2.shift) →
      Reaches c.space y.1 (spread x.1) m.2.shift

variable {config : Config} {c : Cluster α} {names : Names} {x : AliasGroup α × Field}

omit [AlgebraicField α] [Exact α] in
theorem pads_fill : (fill config c names x).Pads c (spread x.1) :=
  pads_composite c (scalars config c) (before config c names x) x

omit [AlgebraicField α] [Exact α] in
theorem uniform_parts (config : Config) (c : Cluster α) (names : Names) :
    Uniform c.space.box.dimensions (reader config c names) (parts config c names) where
  dimensions := List.forall_mem_append.2 ⟨List.forall_mem_map.2 fun _ _ => pads_fill.dimensions,
    List.forall_mem_singleton.2 (pads_reader config c names).dimensions⟩
  directions :=
    List.forall_mem_append.2 ⟨List.forall_mem_map.2 fun _ _ => rfl, List.forall_mem_singleton.2 rfl⟩

theorem reader_not_mem (hc : Liftable names (lifted config c).length c)
    (hf : Fillable config c names) :
    reader config c names ∉ (arrays c.space names (lifted config c)).map (fill config c names) := by
  intro hmem
  obtain ⟨x, hx, heq⟩ := List.mem_map.1 hmem
  have has : (fill config c names x).assignments = (reader config c names).assignments := by
    rw [heq]
  obtain ⟨a, ha, ha'⟩ := List.mem_map.1 (has ▸ List.mem_singleton_self _ :
    (⟨element x.2 (storage c.space x.1) fun _ => 0, x.1.origin.replace
      (table c.space (scalars config c) (before config c names x) .empty), false, false⟩ :
        Assignment α) ∈ (reader config c names).assignments)
  obtain ⟨ha, hkeep⟩ := List.mem_filter.1 ha
  have hin := hf.target a ha
  have hlhs : (a.replace (readings config c names)).lhs = a.lhs := by
    obtain ⟨build, -, heq⟩ := a.exists_replace (readings config c names)
    rw [heq]
    exact replaceBy_of_isInput hin (get?_readings_lhs hc ha (by simpa using hkeep) hin)
  rw [ha'] at hlhs
  exact hc.not_temporary ha (.inl hlhs.symm) (name_mem_temporaries hx)

theorem nodup_parts (hc : Liftable names (lifted config c).length c)
    (hf : Fillable config c names) : (parts config c names).Nodup := by
  let name : Cluster α → Option String := fun c =>
    (c.assignments.head?.bind (·.lhs.access?)).map (·.field.name)
  have hname : name ∘ fill config c names = some ∘ fun x => x.2.name := rfl
  rw [parts, ← List.concat_eq_append, List.nodup_concat]
  refine ⟨reader_not_mem hc hf, List.Nodup.of_map name ?_⟩
  rw [List.map_map, hname, ← List.map_map]
  exact (nodup_names_arrays c.space names _).map (Option.some_injective _)

omit [AlgebraicField α] [Exact α] in
theorem length_of_mem_tour {bounds : Dimension → Option (Int × Int)} {q : Cluster α × List Int}
    (hq : q ∈ tour bounds c.space.box.dimensions.length 0 (parts config c names) []) :
    q.1 ∈ parts config c names ∧ c.space.box.intervals.length = q.2.length := by
  obtain ⟨f, us⟩ := q
  have hdims := (uniform_parts config c names).dimensions
  obtain ⟨hmem, us, rfl, hin⟩ := (mem_tour hdims (Nat.zero_add _)).1 hq
  have hlen := congrArg List.length (hdims f hmem)
  rw [Box.dimensions, List.length_map, Box.dimensions, List.length_map] at hlen
  exact ⟨hmem, hlen.symm.trans hin.length_eq⟩

def Latest (config : Config) (c : Cluster α) (names : Names) (x : AliasGroup α × Field)
    (us : List Int) (V : List (Cluster α × List Int)) : Prop :=
  ∃ A B, V = A ++ (fill config c names x, us) :: B ∧ ∀ us',
    (fill config c names x, us') ∈ B → slot c.space x.1 us' = slot c.space x.1 us → us' = us

section Later

variable {w : Cluster α} {ys zs : List (AliasGroup α × Field)}
  (hxs : arrays c.space names (lifted config c) = ys ++ x :: zs)

include hxs

omit [AlgebraicField α] [Exact α] in
theorem level?_of_lt_outer (hc : Liftable names (lifted config c).length c)
    (hf : Fillable config c names)
    (hw : w ∈ (x :: zs).map (fill config c names) ++ [reader config c names]) {j : Nat}
    (hj : j < outer c.space x.1) : level? j w = level? j c := by
  rcases List.mem_append.1 hw with hw | hw
  · obtain ⟨y, hy, rfl⟩ := List.mem_map.1 hw
    obtain ⟨hstored, hexact⟩ := intervals_storage hc.timeFirst x.1
    have hlt : j < c.space.box.intervals.length := hj.trans_le (Nat.sub_le _ _)
    have hi : c.space.box.intervals[j] ∈ c.space.box.intervals.take (outer c.space x.1) :=
      List.mem_take_iff_getElem.2 ⟨j, by omega, rfl⟩
    refine (pads_fill.level?_eq_iff c.pads_self (List.getElem?_eq_getElem hlt)).2 ?_
    rcases List.mem_cons.1 hy with rfl | hy
    · exact hexact _ hi
    · by_contra hne
      have hnested := hf.nested
      rw [← groups_arrays c.space names (lifted config c), hxs, List.map_append, List.map_cons,
        List.pairwise_append, List.pairwise_cons] at hnested
      have hwide : (stored y.1 c.space.box.intervals[j]).isExact = false := by
        rw [Bool.eq_false_iff, ne_eq, isExact_stored]
        exact hne
      have hdim := hnested.2.1.1 y.1 (List.mem_map_of_mem hy) _
        (stored_mem_storage (List.getElem_mem hlt) hne) hwide
      rw [Box.dimensions, hstored, List.map_map] at hdim
      have hnodup := c.space.box.nodup
      rw [← List.take_append_drop (outer c.space x.1) c.space.box.intervals, List.map_append,
        List.nodup_append] at hnodup
      exact hnodup.2.2 _ (List.mem_map_of_mem hi) _ hdim rfl
  · rw [List.mem_singleton.1 hw]
    rfl

theorem exists_precedes (hc : Liftable names (lifted config c).length c)
    (hf : Fillable config c names)
    (hw : w ∈ zs.map (fill config c names) ++ [reader config c names])
    (bounds : Dimension → Option (Int × Int)) :
    ∃ k, outer c.space x.1 ≤ k ∧ (∀ j < k, level? j w = level? j (fill config c names x)) ∧
      Precedes k (fill config c names x) w
        (tour bounds c.space.box.dimensions.length 0 (parts config c names) []) := by
  obtain ⟨us, vs, hsplit⟩ := List.append_of_mem hw
  obtain ⟨k, hk, hsame, hdiff⟩ := exists_first (fun j => ∀ q ∈ us ++ [w],
    level? j q = level? j (fill config c names x)) c.space.box.dimensions.length
  have hlen : c.space.box.dimensions.length = c.space.box.intervals.length := List.length_map _
  have houter : outer c.space x.1 ≤ k := by
    by_contra hlt
    refine hdiff ((not_le.1 hlt).trans_le (hlen ▸ Nat.sub_le _ _)) fun q hq => ?_
    have hlater : q ∈ zs.map (fill config c names) ++ [reader config c names] := by
      rw [hsplit]
      simp only [List.mem_append, List.mem_cons] at hq ⊢
      tauto
    rw [level?_of_lt_outer hxs hc hf (List.mem_cons_of_mem _ hlater) (not_le.1 hlt),
      level?_of_lt_outer hxs hc hf List.mem_cons_self (not_le.1 hlt)]
  have hparts : parts config c names =
      ys.map (fill config c names) ++ fill config c names x :: (us ++ w :: vs) := by
    rw [parts, hxs, ← hsplit]
    simp
  have huniform := uniform_parts config c names
  have hnodup := nodup_parts hc hf
  rw [hparts] at huniform hnodup ⊢
  have hfirst := (List.nodup_cons.1 (List.nodup_middle.1 hnodup)).1
  rw [← List.cons_append, ← List.append_assoc, List.nodup_middle, List.nodup_cons] at hnodup
  refine ⟨k, houter, fun j hj => hsame j hj w (by simp), precedes_tour huniform (Nat.zero_add _)
    (fun h => hnodup.1 (List.mem_append_left _ h)) (fun h => hnodup.1 (List.mem_append_right _ h))
    (fun h => hfirst (List.mem_append_left _ h)) (fun h => hfirst (by simp [h])) rfl
    (Nat.zero_le k) hk hsame fun hkn => ?_⟩
  simpa only [not_forall, exists_prop] using hdiff hkn

theorem exists_of_hits (hc : Liftable names (lifted config c).length c)
    (hf : Fillable config c names) {k : Expr α}
    (hk : Hits (table c.space (scalars config c) ys .empty) x.1.origin k) :
    ∃ as y bs, ys = as ++ y :: bs ∧ ∃ m ∈ y.1.members, m.1 = k ∧
      (table c.space (scalars config c) ys .empty).get? k =
        some (element y.2 (storage c.space y.1) m.2.shift) ∧
      Reaches c.space y.1 (spread x.1) m.2.shift := by
  have hx : x ∈ arrays c.space names (lifted config c) := by simp [hxs]
  have hys : ∀ y ∈ ys, y ∈ arrays c.space names (lifted config c) := fun y hy => by simp [hxs, hy]
  obtain ⟨t, hget⟩ := hk.exists_get?
  obtain ⟨y, hy, m, hm, rfl, hmk⟩ := exists_stands hget
  obtain rfl : m.1 = k := by
    rcases hmk with heq | ⟨l, hl, heq⟩
    · exact beq_iff_eq.1 heq
    · exact absurd hk.mem_subterms
        (sym_not_mem_origin hc.canonical (fst_mem_of_mem_arrays hx) hl heq)
  have hreads : (fill config c names x).Reads (element y.2 (storage c.space y.1) m.2.shift) := by
    have hinserts : Inserts (table c.space (scalars config c) ys .empty) :=
      inserts_table hc.canonical fun y hy => fst_mem_of_mem_arrays (hys y hy)
    have hcan := (isGroup_of_mem_lifted hc.canonical (fst_mem_of_mem_arrays hx)).canonical
      hc.canonical
    refine ⟨_, List.mem_singleton_self _, .inl ?_⟩
    rw [before_eq hxs]
    refine hinserts.mem_inputs_of_hits hcan hk hget ?_
    rw [element, inputs_of_isInput rfl]
    exact List.mem_singleton_self _
  have hreach := hf.reaches
  rw [hxs, List.pairwise_append] at hreach
  obtain ⟨as, bs, heq⟩ := List.append_of_mem hy
  exact ⟨as, y, bs, heq, m, hm, rfl, hget, hreach.2.2 y hy x List.mem_cons_self m hm hreads⟩

section Reaches

variable (hc : Liftable names (lifted config c).length c) (hf : Fillable config c names)
  (hw : w ∈ zs.map (fill config c names) ++ [reader config c names])
  {pad : Dimension → Int × Int} (hpad : w.Pads c pad) {m : Expr α × Distance}
  (hm : m ∈ x.1.members) (hreach : Reaches c.space x.1 pad m.2.shift)
  {bounds : Dimension → Option (Int × Int)} {ws : List Int}

include hc hf hw hpad hm hreach

theorem within_of_reaches : ∀ i ∈ c.space.box.intervals,
    (spread x.1 i.dim).1 ≤ (pad i.dim).1 + m.2.shift i.dim ∧
      (pad i.dim).2 + m.2.shift i.dim ≤ (spread x.1 i.dim).2 := by
  intro i hi
  obtain ⟨hstored, hexact⟩ := intervals_storage hc.timeFirst x.1
  rw [← List.take_append_drop (outer c.space x.1) c.space.box.intervals, List.mem_append] at hi
  rcases hi with hi | hi
  · have hx : x ∈ arrays c.space names (lifted config c) := by simp [hxs]
    have hg := isGroup_of_mem_lifted hc.canonical (fst_mem_of_mem_arrays hx)
    have hshift := hg.shift_mem_spread hm i.dim
    rw [hexact i hi] at hshift ⊢
    obtain ⟨j, hj, rfl⟩ := List.mem_take_iff_getElem.1 hi
    obtain ⟨hjn, hjlen⟩ := lt_min_iff.1 hj
    have hzero := (hpad.level?_eq_iff c.pads_self (List.getElem?_eq_getElem hjlen)).1
      (level?_of_lt_outer hxs hc hf (List.mem_cons_of_mem _ hw) hjn)
    rw [hzero]
    omega
  · exact hreach (stored x.1 i) (hstored ▸ List.mem_map_of_mem hi)

theorem inside_of_reaches (hin : Inside bounds w.space.box.intervals ws) :
    Inside bounds (fill config c names x).space.box.intervals
      (move m.2.shift c.space.box.dimensions ws) := by
  rw [hpad] at hin
  rw [pads_fill]
  exact inside_move hin (within_of_reaches hxs hc hf hw hpad hm hreach)

theorem latest_of_reaches {V₁ V₂ : List (Cluster α × List Int)}
    (hV : tour bounds c.space.box.dimensions.length 0 (parts config c names) [] =
      V₁ ++ (w, ws) :: V₂) :
    Latest config c names x (move m.2.shift c.space.box.dimensions ws) V₁ := by
  obtain ⟨k, houter, hsame, hprec⟩ := exists_precedes hxs hc hf hw bounds
  obtain ⟨A, B, rfl, hB, hbefore⟩ := hprec V₁ ws V₂ hV
  have htour : ∀ q ∈ (w, ws) :: B, q ∈
      tour bounds c.space.box.dimensions.length 0 (parts config c names) [] := fun q hq => by
    rw [hV]
    simp only [List.mem_append, List.mem_cons] at hq ⊢
    tauto
  have hvisit := htour (w, ws) List.mem_cons_self
  have hlen : c.space.box.dimensions.length = ws.length :=
    (List.length_map _).trans (length_of_mem_tour hvisit).2
  -- Along the loops that the two clusters share there is no way to go.
  have htake : (move m.2.shift c.space.box.dimensions ws).take k = ws.take k := by
    refine take_move hlen fun d hd => ?_
    rw [Box.dimensions, ← List.map_take] at hd
    obtain ⟨i, hi, rfl⟩ := List.mem_map.1 hd
    have hwithin := within_of_reaches hxs hc hf hw hpad hm hreach i (List.mem_of_mem_take hi)
    obtain ⟨j, hj, rfl⟩ := List.mem_take_iff_getElem.1 hi
    obtain ⟨hjk, hjlen⟩ := lt_min_iff.1 hj
    rw [(hpad.level?_eq_iff pads_fill (List.getElem?_eq_getElem hjlen)).1 (hsame j hjk)] at hwithin
    omega
  have hmem : (fill config c names x, move m.2.shift c.space.box.dimensions ws) ∈ B := by
    refine hbefore _ ?_ htake
    have hdims := (uniform_parts config c names).dimensions
    have hx : x ∈ arrays c.space names (lifted config c) := by simp [hxs]
    rw [mem_tour hdims (Nat.zero_add _)] at hvisit ⊢
    obtain ⟨-, _, rfl, hin⟩ := hvisit
    exact ⟨List.mem_append_left _ (List.mem_map_of_mem hx), _, rfl,
      inside_of_reaches hxs hc hf hw hpad hm hreach hin⟩
  obtain ⟨B₁, B₂, rfl⟩ := List.append_of_mem hmem
  refine ⟨A ++ B₁, B₂, (List.append_assoc _ _ _).symm, fun us' hus' hslot => ?_⟩
  have hB' : (fill config c names x, us') ∈
      B₁ ++ (fill config c names x, move m.2.shift c.space.box.dimensions ws) :: B₂ := by
    simp [hus']
  exact slot_injective houter (length_of_mem_tour (htour _ (List.mem_cons_of_mem _ hmem))).2
    (length_of_mem_tour (htour _ (List.mem_cons_of_mem _ hB'))).2
    ((hB _ hB').trans htake.symm) hslot

end Reaches

end Later

end Stencil.Lifting
