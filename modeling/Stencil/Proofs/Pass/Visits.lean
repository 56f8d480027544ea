import Stencil.Proofs.Expr.Substitution
import Stencil.Proofs.Pass.Filling

namespace Stencil.Lifting

open Stencil.Expr Exec Nest

variable {α : Type} [Arithmetic α] [AlgebraicField α] [Exact α] {config : Config} {c : Cluster α}
  {names : Names} {x : AliasGroup α × Field}

def unread (c : Cluster α) : Set String :=
  {n | ∀ a ∈ c.assignments, ∀ y, access y ∈ a.rhs.inputs → y.field.name ≠ n}

omit [AlgebraicField α] [Exact α] in
theorem temporaries_subset_unread (hc : Liftable names (lifted config c).length c) :
    temporaries config c names ⊆ unread c := by
  rintro n ⟨m, hm, rfl⟩ a ha y hy
  exact hc.arrays m hm a ha y (.inr hy)

section Stores

variable (hc : Liftable names (lifted config c).length c) (hf : Fillable config c names)

include hc hf

theorem lhs_reader {a : Assignment α} (ha : a ∈ (reader config c names).assignments) {y : Access}
    (hy : a.lhs = access y) : ∃ b ∈ c.assignments, b.lhs = access y := by
  obtain ⟨b, hb, rfl⟩ := List.mem_map.1 ha
  obtain ⟨hb, hkeep⟩ := List.mem_filter.1 hb
  have hin := hf.target b hb
  obtain ⟨build, -, heq⟩ := b.exists_replace (readings config c names)
  refine ⟨b, hb, ?_⟩
  rw [← hy, heq]
  exact (replaceBy_of_isInput hin (get?_readings_lhs hc hb (by simpa using hkeep) hin)).symm

theorem unread_of_lhs {q : Cluster α} (hq : q ∈ parts config c names) :
    ∀ a ∈ q.assignments, ∀ y, a.lhs = access y → y.field.name ∈ unread c := by
  intro a ha y hy
  rcases List.mem_append.1 hq with hq | hq
  · obtain ⟨x, hx, rfl⟩ := List.mem_map.1 hq
    rw [List.mem_singleton.1 ha] at hy
    exact access.inj hy ▸ temporaries_subset_unread hc (name_mem_temporaries hx)
  · rw [List.mem_singleton.1 hq] at ha
    obtain ⟨b, hb, hl⟩ := lhs_reader hc hf ha hy
    exact fun a ha z hz heq => hc.readOnly b hb a ha y z hl hz heq.symm

theorem ne_of_lhs (hx : x ∈ arrays c.space names (lifted config c)) {q : Cluster α}
    (hq : q ∈ parts config c names) (hne : q ≠ fill config c names x) : ∀ a ∈ q.assignments, ∀ y,
      a.lhs = access y → y.field.name ∈ ({x.2.name}ᶜ : Set String) := by
  rintro a ha y hy (heq : y.field.name = x.2.name)
  rcases List.mem_append.1 hq with hq | hq
  · obtain ⟨z, hz, rfl⟩ := List.mem_map.1 hq
    rw [List.mem_singleton.1 ha] at hy
    exact hne (eq_of_name_eq hz hx (access.inj hy ▸ heq :) ▸ rfl)
  · rw [List.mem_singleton.1 hq] at ha
    obtain ⟨b, hb, hl⟩ := lhs_reader hc hf ha hy
    exact hc.not_temporary hb (.inl hl) (heq ▸ name_mem_temporaries hx)

end Stores

section Visits

variable {g g₀ h h' : Grid α} {u : Unit} {q : Cluster α × List Int} {us : List Int} {v : α}
  {V : List (Cluster α × List Int)}

def visit (ds : List Dimension) (q : Cluster α × List Int) : Exec α Unit := atPoint q.1 (stand ds q.2)

structure Visited (config : Config) (c : Cluster α) (names : Names)
    (V : List (Cluster α × List Int)) (g₀ h : Grid α) : Prop where
  still : Grid.AgreeOff (unread c) g₀ h
  filled : ∀ x ∈ arrays c.space names (lifted config c), ∀ us, Latest config c names x us V →
    ∀ v, x.1.origin.eval (env g₀ (stand c.space.box.dimensions us) .empty) = .ok v →
      h.get? x.2.name (slot c.space x.1 us) = some v

omit [AlgebraicField α] [Exact α] in
theorem Visited.nil : Visited config c names [] g g where
  still := .refl _ g
  filled := by simp [Latest]

omit [AlgebraicField α] [Exact α] in
theorem latest_concat (h : Latest config c names x us (V ++ [q])) :
    q = (fill config c names x, us) ∨ Latest config c names x us V ∧
      (q.1 = fill config c names x → slot c.space x.1 q.2 = slot c.space x.1 us → q.2 = us) := by
  obtain ⟨A, B, heq, hB⟩ := h
  rcases List.eq_nil_or_concat B with rfl | ⟨B, r, rfl⟩
  · obtain ⟨-, hq⟩ := List.append_inj' heq rfl
    exact .inl (List.cons.inj hq).1
  · rw [List.concat_eq_append] at heq hB
    rw [← List.cons_append, ← List.append_assoc] at heq
    obtain ⟨rfl, hq⟩ := List.append_inj' heq rfl
    obtain rfl := (List.cons.inj hq).1
    refine .inr ⟨⟨A, B, rfl, fun us' hus' => hB us' (List.mem_append_left _ hus')⟩, ?_⟩
    exact fun hfill => hB q.2 (by simp [← hfill])

omit [AlgebraicField α] [Exact α] in
theorem eval_still (hstill : Grid.AgreeOff (unread c) g₀ h) {e : Expr α} {pos : Position}
    (he : ∀ y, access y ∈ e.inputs →
      ∃ a ∈ c.assignments, ∃ z, access z ∈ a.rhs.inputs ∧ z.field = y.field) :
    e.eval (env h pos .empty) = e.eval (env g₀ pos .empty) := by
  refine eval_congr fun i hi => hstill.eval_input (mem_inputs.1 hi).2 ?_
  rintro y rfl hunread
  obtain ⟨a, ha, z, hz, hzy⟩ := he y hi
  exact hunread a ha z hz (congrArg Field.name hzy)

section Steps

variable (hc : Liftable names (lifted config c).length c) (hf : Fillable config c names)

include hc hf

omit [AlgebraicField α] [Exact α] in
theorem visit_fill (hlen : c.space.box.intervals.length = us.length)
    (hv : (x.1.origin.replace (table c.space (scalars config c) (before config c names x) .empty)).eval
      (env h (stand c.space.box.dimensions us) .empty) = .ok v) :
    (visit c.space.box.dimensions (fill config c names x, us)).run h =
      .ok () (h.set x.2.name (slot c.space x.1 us) v) := by
  have hlen' : c.space.box.dimensions.length = us.length := (List.length_map _).trans hlen
  obtain ⟨y, hy, hfield, hplace⟩ :=
    place_element (α := α) hc.timeFirst x.2 (fun _ => 0) hf.distinct hlen
  rw [move_zero hlen'] at hplace
  have has : (fill config c names x).assignments = [⟨access y, x.1.origin.replace
      (table c.space (scalars config c) (before config c names x) .empty), false, false⟩] := hy ▸ rfl
  rw [visit, atPoint_eq_ok, has]
  simp only [runs_cons, runs_nil, assign_eq_ok]
  exact ⟨.empty, .empty, _, ⟨v, hv, .inr ⟨y, _, rfl, hplace, rfl, by rw [hfield]⟩⟩, rfl, rfl⟩

theorem get?_visit (hx : x ∈ arrays c.space names (lifted config c)) {ds : List Dimension}
    (hq : q.1 ∈ parts config c names) (hne : q.1 ≠ fill config c names x)
    (hrun : (visit ds q).run h = .ok u h') (p : List Int) :
    h'.get? x.2.name p = h.get? x.2.name p := by
  obtain ⟨sc, hrun⟩ := atPoint_eq_ok.1 hrun
  have hagree := (Grid.AgreeOff.refl _ h).runs (ne_of_lhs hc hf hx hq hne) hrun
  exact hagree.elements _ (fun hmem => hmem rfl) p

end Steps

end Visits

section Tour

variable {bounds : Dimension → Option (Int × Int)} {g₀ g g' h h' : Grid α} {u : Unit}
  {V₁ V₂ : List (Cluster α × List Int)} {ws : List Int} {m : Expr α × Distance}
  (hc : Liftable names (lifted config c).length c) (hf : Fillable config c names)

include hc hf

omit [AlgebraicField α] [Exact α] hc in
theorem sym_not_mem_of_shift {f : AliasGroup α} (hg : AliasGroups.IsGroup c.assignments f)
    (hfl : f ∈ lifted config c) (hm : m ∈ f.members) :
    ∀ d ∈ c.space.box.dimensions, m.2.shift d ≠ 0 → sym d.name ∉ f.origin.inputs := by
  intro d hd hne
  obtain ⟨i, hi, rfl⟩ := List.mem_map.1 hd
  have hwide : spread f i.dim ≠ (0, 0) := by
    intro hzero
    have hshift := hg.shift_mem_spread hm i.dim
    rw [hzero] at hshift
    exact hne (le_antisymm hshift.2 hshift.1)
  refine hf.fixed f hfl (stored f i) (stored_mem_storage hi hwide) ?_
  rwa [Bool.eq_false_iff, ne_eq, isExact_stored]

theorem eval_origin {f : AliasGroup α} {v : α} (hfl : f ∈ lifted config c) (hm : m ∈ f.members)
    (hlen : c.space.box.dimensions.length = ws.length)
    (hv : m.1.eval (env g (stand c.space.box.dimensions ws) .empty) = .ok v) :
    f.origin.eval (env g (stand c.space.box.dimensions
      (move m.2.shift c.space.box.dimensions ws)) .empty) = .ok v := by
  have hg := isGroup_of_mem_lifted hc.canonical hfl
  rw [beq_iff_eq.1 (hg.moved m hm)] at hv
  exact eval_move hf.distinct hlen (hf.dimensions f hfl) (sym_not_mem_of_shift hf hg hfl hm)
    (hg.canonical hc.canonical) (hg.unary hc.line.unary) hv

theorem Visited.eval_element (hh : Visited config c names V₁ g₀ h)
    {w : Cluster α} {pad : Dimension → Int × Int} {ys zs : List (AliasGroup α × Field)} {v : α}
    (hxs : arrays c.space names (lifted config c) = ys ++ x :: zs)
    (hw : w ∈ zs.map (fill config c names) ++ [reader config c names]) (hpad : w.Pads c pad)
    (hm : m ∈ x.1.members) (hreach : Reaches c.space x.1 pad m.2.shift)
    (hV : tour bounds c.space.box.dimensions.length 0 (parts config c names) [] =
      V₁ ++ (w, ws) :: V₂)
    (hv : m.1.eval (env g₀ (stand c.space.box.dimensions ws) .empty) = .ok v) :
    (element x.2 (storage c.space x.1) m.2.shift).eval
      (env h (stand c.space.box.dimensions ws) .empty) = .ok v := by
  have hx : x ∈ arrays c.space names (lifted config c) := by simp [hxs]
  have hvisit : (w, ws) ∈
      tour bounds c.space.box.dimensions.length 0 (parts config c names) [] := by simp [hV]
  have hlen : c.space.box.intervals.length = ws.length := (length_of_mem_tour hvisit).2
  have horigin := eval_origin hc hf (fst_mem_of_mem_arrays hx) hm
    ((List.length_map _).trans hlen) hv
  obtain ⟨y, hy, hfield, hplace⟩ :=
    place_element (α := α) hc.timeFirst x.2 m.2.shift hf.distinct hlen
  rw [hy, eval_access_eq_ok, hfield]
  exact ⟨_, hplace, hh.filled x hx _ (latest_of_reaches hxs hc hf hw hpad hm hreach hV) v horigin⟩

theorem Visited.filled_reader (hh : Visited config c names V₁ g₀ h)
    (hV : tour bounds c.space.box.dimensions.length 0 (parts config c names) [] =
      V₁ ++ (reader config c names, ws) :: V₂)
    (hgh : Grid.AgreeOff (temporaries config c names) g h) :
    Filled config c names (stand c.space.box.dimensions ws) g h := by
  intro x hx m hm v hv
  have hg := isGroup_of_mem_lifted hc.canonical (fst_mem_of_mem_arrays hx)
  obtain ⟨a, ha, hrhs⟩ := hg.exists_rhs hm
  obtain ⟨ys, zs, hxs⟩ := List.append_of_mem hx
  refine hh.eval_element hc hf hxs (by simp) (pads_reader config c names) hm
    (reaches_member hg hm) hV ?_
  have hsame : m.1.eval (env h (stand c.space.box.dimensions ws) .empty) =
      m.1.eval (env g (stand c.space.box.dimensions ws) .empty) := by
    refine eval_congr fun i hi => hgh.eval_input (mem_inputs.1 hi).2 ?_
    rintro y rfl
    exact hc.not_temporary ha (.inr (hrhs ▸ hi))
  rw [← eval_still hh.still fun y hy => ⟨a, ha, y, hrhs ▸ hy, rfl⟩, hsame]
  exact hv

theorem Visited.eval_fill (hh : Visited config c names V₁ g₀ h) {v : α}
    (hx : x ∈ arrays c.space names (lifted config c))
    (hV : tour bounds c.space.box.dimensions.length 0 (parts config c names) [] =
      V₁ ++ (fill config c names x, ws) :: V₂)
    (hv : x.1.origin.eval (env g₀ (stand c.space.box.dimensions ws) .empty) = .ok v) :
    (x.1.origin.replace (table c.space (scalars config c) (before config c names x) .empty)).eval
      (env h (stand c.space.box.dimensions ws) .empty) = .ok v := by
  have hg := isGroup_of_mem_lifted hc.canonical (fst_mem_of_mem_arrays hx)
  obtain ⟨ys, zs, hxs⟩ := List.append_of_mem hx
  rw [before_eq hxs]
  refine eval_replaceBy_of_hits eval_rebuild (fun k hk t hget w hkw => ?_) ?_
  · obtain ⟨as, y, bs, rfl, m, hm, rfl, hget', hreach⟩ := exists_of_hits hxs hc hf hk
    obtain rfl := Option.some.inj (hget.symm.trans hget')
    rw [List.append_assoc, List.cons_append] at hxs
    have hy : y ∈ arrays c.space names (lifted config c) := by simp [hxs]
    have hgy := isGroup_of_mem_lifted hc.canonical (fst_mem_of_mem_arrays hy)
    obtain ⟨a, ha, hrhs⟩ := hgy.exists_rhs hm
    refine hh.eval_element hc hf hxs (by simp) pads_fill hm hreach hV ?_
    rwa [← eval_still hh.still fun z hz => ⟨a, ha, z, hrhs ▸ hz, rfl⟩]
  · rwa [eval_still hh.still fun y hy => hg.access_mem_origin hc.canonical hy]

theorem Visited.concat (hh : Visited config c names V₁ g₀ h) {q : Cluster α × List Int}
    (hV : tour bounds c.space.box.dimensions.length 0 (parts config c names) [] = V₁ ++ q :: V₂)
    (hread : ∀ x ∈ arrays c.space names (lifted config c), q.1 = fill config c names x →
      ∃ v, x.1.origin.eval (env g₀ (stand c.space.box.dimensions q.2) .empty) = .ok v)
    (hrun : (visit c.space.box.dimensions q).run h = .ok u h') :
    Visited config c names (V₁ ++ [q]) g₀ h' := by
  have hvisit : q ∈ tour bounds c.space.box.dimensions.length 0 (parts config c names) [] := by
    simp [hV]
  obtain ⟨hq, hlen⟩ := length_of_mem_tour hvisit
  refine ⟨?_, fun x hx us hlatest v hv => ?_⟩
  · obtain ⟨sc, hruns⟩ := atPoint_eq_ok.1 hrun
    exact hh.still.runs (unread_of_lhs hc hf hq) hruns
  -- Only the cluster of the array writes to it, and at another point to another slot.
  by_cases hfill : q.1 = fill config c names x
  · obtain ⟨w, hw⟩ := hread x hx hfill
    obtain ⟨_, us'⟩ := q
    obtain rfl : _ = fill config c names x := hfill
    have hstore := visit_fill hc hf hlen (hh.eval_fill hc hf hx hV hw)
    obtain ⟨-, rfl⟩ := EStateM.Result.ok.inj (hrun.symm.trans hstore)
    by_cases hus : us' = us
    · subst hus
      obtain rfl := Except.ok.inj (hv.symm.trans hw)
      rw [Grid.get?_set, if_pos ⟨rfl, rfl⟩]
    · obtain ⟨hlatest, hother⟩ := (latest_concat hlatest).resolve_left fun heq =>
        hus (Prod.mk.inj heq).2
      rw [Grid.get?_set, if_neg fun hslot => hus (hother rfl hslot.2)]
      exact hh.filled x hx us hlatest v hv
  · obtain ⟨hlatest, -⟩ := (latest_concat hlatest).resolve_left fun heq => hfill (heq ▸ rfl)
    rw [get?_visit hc hf hx hq hfill hrun]
    exact hh.filled x hx us hlatest v hv

open Classical in
theorem Visited.forM_visits (hI : 1 ≤ config.minInvariant) (hh : Visited config c names V₁ g₀ h)
    (hV : tour bounds c.space.box.dimensions.length 0 (parts config c names) [] = V₁ ++ V₂)
    (hread : ∀ x ∈ arrays c.space names (lifted config c), ∀ us, (fill config c names x, us) ∈ V₂ →
      ∃ v, x.1.origin.eval (env g₀ (stand c.space.box.dimensions us) .empty) = .ok v)
    (hgh : Grid.AgreeOff (temporaries config c names) g h)
    (hrun : (forM ((V₂.filter (·.1 = reader config c names)).map (·.2)) fun ws =>
      atPoint c (stand c.space.box.dimensions ws)).run g = .ok u g') :
    ∃ h', (forM V₂ (visit c.space.box.dimensions)).run h = .ok u h' ∧
      Grid.AgreeOff (temporaries config c names) g' h' := by
  -- Induction on the visits to come. Those made so far, `V₁`, say what the arrays hold.
  induction V₂ generalizing V₁ g h with
  | nil =>
    rw [List.filter_nil, List.map_nil, List.forM_nil, pure_eq_ok] at hrun
    exact ⟨h, by rw [List.forM_nil, pure_eq_ok]; exact ⟨rfl, rfl⟩, hrun.2 ▸ hgh⟩
  | cons q V₂ ih =>
    have hread₁ : ∀ x ∈ arrays c.space names (lifted config c), q.1 = fill config c names x →
        ∃ v, x.1.origin.eval (env g₀ (stand c.space.box.dimensions q.2) .empty) = .ok v :=
      fun x hx hfill => hread x hx q.2 (by rw [← hfill]; exact List.mem_cons_self)
    have hrest : ∀ {g₁ h₁}, (visit c.space.box.dimensions q).run h = .ok () h₁ →
        Grid.AgreeOff (temporaries config c names) g₁ h₁ →
        (forM ((V₂.filter (·.1 = reader config c names)).map (·.2)) fun ws =>
          atPoint c (stand c.space.box.dimensions ws)).run g₁ = .ok u g' →
        ∃ h', (forM (q :: V₂) (visit c.space.box.dimensions)).run h = .ok u h' ∧
          Grid.AgreeOff (temporaries config c names) g' h' := by
      intro g₁ h₁ hstep hgh₁ hrun₁
      obtain ⟨h', hrest, hgh'⟩ := ih (hh.concat hc hf hV hread₁ hstep)
        (by rw [hV, List.append_assoc, List.singleton_append])
        (fun x hx us hus => hread x hx us (List.mem_cons_of_mem q hus)) hgh₁ hrun₁
      refine ⟨h', ?_, hgh'⟩
      rw [List.forM_cons, bind_eq_ok]
      exact ⟨(), h₁, hstep, hrest⟩
    have hvisit : q ∈ tour bounds c.space.box.dimensions.length 0 (parts config c names) [] := by
      simp [hV]
    obtain ⟨hmem, hlen⟩ := length_of_mem_tour hvisit
    obtain ⟨_, ws⟩ := q
    rcases List.mem_append.1 hmem with hmem | hmem
    · obtain ⟨x, hx, rfl⟩ := List.mem_map.1 hmem
      have hne : fill config c names x ≠ reader config c names := fun heq =>
        reader_not_mem hc hf (heq ▸ hmem)
      rw [List.filter_cons_of_neg (by simpa using hne)] at hrun
      obtain ⟨v, hv⟩ := hread₁ x hx rfl
      exact hrest (visit_fill hc hf hlen (hh.eval_fill hc hf hx hV hv))
        (hgh.set_right (name_mem_temporaries hx) _ v) hrun
    · obtain rfl := List.mem_singleton.1 hmem
      rw [List.filter_cons_of_pos (by simp), List.map_cons, List.forM_cons, bind_eq_ok] at hrun
      obtain ⟨_, g₁, hpoint, hrun₁⟩ := hrun
      obtain ⟨sc, hruns⟩ := atPoint_eq_ok.1 hpoint
      obtain ⟨sc', h₁, hruns', hgh₁⟩ :=
        runs_reader hc hI hgh (hh.filled_reader hc hf hV hgh) hruns
      exact hrest (atPoint_eq_ok.2 ⟨sc', hruns'⟩) hgh₁ hrun₁

end Tour

end Stencil.Lifting
