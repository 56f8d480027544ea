import Stencil.Proofs.Pass.Coverage

namespace Stencil

open Stencil.Expr AliasGroups

theorem Cluster.Pads.spans {α : Type} {c w : Cluster α} {pad : Dimension → Int × Int} {b : Box}
    {d : Dimension} {l u : Int} (hw : w.Pads c pad) (hpad : (pad d).1 ≤ 0 ∧ 0 ≤ (pad d).2)
    (hl : b.Spans (c.space.box.addTo ⟨d, l + (pad d).1, l + (pad d).1⟩))
    (hu : b.Spans (c.space.box.addTo ⟨d, u + (pad d).2, u + (pad d).2⟩)) :
    b.Spans (w.space.box.addTo ⟨d, l, u⟩) := by
  by_cases hd : d ∈ c.space.box.dimensions
  · obtain ⟨i, hi, rfl⟩ := List.mem_map.1 hd
    have hpadded : w.space.box.get? i.dim =
        some ⟨i.dim, i.lower + (pad i.dim).1, i.upper + (pad i.dim).2⟩ :=
      Box.get?_of_mem (i := ⟨i.dim, _, _⟩) (hw ▸ List.mem_map.2 ⟨i, hi, rfl⟩)
    rw [Box.addTo, Box.get?_of_mem hi] at hl hu
    rw [Box.addTo, hpadded]
    refine hl.between hu rfl rfl ?_ ?_ <;> simp only [Interval.add] <;> omega
  · have hd' : d ∉ w.space.box.dimensions := by
      rwa [Box.dimensions, hw, List.map_map]
    rw [Box.addTo, Box.get?_of_not_mem hd] at hl hu
    rw [Box.addTo, Box.get?_of_not_mem hd']
    refine hl.between hu rfl rfl ?_ ?_ <;> dsimp only <;> omega

namespace Lifting

variable {α : Type} [Arithmetic α] [LawfulArithmetic α]

section Group

variable {as : List (Assignment α)} {g : AliasGroup α} {z : Access} {name : String}
  (hc : ∀ a ∈ as, Canonical a.rhs) (hg : IsGroup as g) (hz : access z ∈ g.origin.inputs)
  (hname : z.field.name = name)

include hc hg hz hname

theorem displace_mem_accessesTo {m : Expr α × Distance} (hm : m ∈ g.members) :
    z.displace m.2.shift ∈ accessesTo name as := by
  obtain ⟨a, ha, hi⟩ := hg.exists_access hc hm hz
  exact mem_accessesTo.2 ⟨⟨a, ha, .inr hi⟩, hname⟩

theorem spans_origin {c w : Cluster α} (hw : w.Pads c (spread g)) {d : Dimension} {o : Int}
    (ho : Index.affine d o ∈ z.indices) :
    ((Offsets.ofIndices ((accessesTo name as).flatMap Access.indices)).box.add c.space.box).Spans
      (w.space.box.addTo ⟨d, o, o⟩) := by
  have hmember : ∀ m ∈ g.members,
      ((Offsets.ofIndices ((accessesTo name as).flatMap Access.indices)).box.add c.space.box).Spans
        (c.space.box.addTo ⟨d, o + m.2.shift d, o + m.2.shift d⟩) := fun m hm =>
    Footprint.spans_part (displace_mem_accessesTo hc hg hz hname hm) (List.mem_map.2 ⟨_, ho, rfl⟩)
  obtain ⟨⟨l, hl, hlow⟩, u, hu, hhigh⟩ := hg.exists_spread d
  exact hw.spans (hg.zero_mem_spread d) (hlow ▸ hmember l hl) (hhigh ▸ hmember u hu)

end Group

section Composite

variable {c : Cluster α} {hs : Handles α} {ys : List (AliasGroup α × Field)}
  {x : AliasGroup α × Field} {z : Access} {name : String} (hx : x.2.name ≠ name)
  (hys : ∀ y ∈ ys, y.2.name ≠ name) (hz : z ∈ accessesTo name (composite c hs ys x).assignments)

include hx hys hz

theorem access_mem_origin : access z ∈ x.1.origin.inputs ∧ z.field.name = name := by
  obtain ⟨⟨a, ha, hi⟩, hname⟩ := mem_accessesTo.1 hz
  refine ⟨?_, hname⟩
  obtain rfl := List.mem_singleton.1 ha
  rcases hi with hi | hi
  · rw [element, inputs_of_isInput rfl, List.mem_singleton] at hi
    rw [access.inj hi] at hname
    exact absurd hname hx
  · rcases exists_element_of_mem_inputs (.inl rfl) hi with hi | ⟨y, hy, m, -, heq⟩
    · exact hi
    · rw [access.inj heq] at hname
      exact absurd hname (hys y hy)

theorem composite_touches_within (hc : ∀ a ∈ c.assignments, Canonical a.rhs)
    (hg : IsGroup c.assignments x.1) {d : Dimension} (hd : d ∈ z.dimensions) :
    ∃ b b', (composite c hs ys x).touched name = some b ∧ c.touched name = some b' ∧
      ∃ i ∈ b.intervals, i.dim = d ∧ b'.Spans i := by
  have hspans : ∀ z' ∈ accessesTo name (composite c hs ys x).assignments, ∀ o,
      Index.affine d o ∈ z'.indices → ((Offsets.ofIndices ((accessesTo name
        c.assignments).flatMap Access.indices)).box.add c.space.box).Spans
          ((composite c hs ys x).space.box.addTo ⟨d, o, o⟩) := fun z' hz' o ho => by
    obtain ⟨hin, hname⟩ := access_mem_origin hx hys hz'
    exact spans_origin hc hg hin hname (pads_composite c hs ys x) ho
  obtain ⟨hin, hname⟩ := access_mem_origin hx hys hz
  obtain ⟨m, hm, -⟩ := hg.low d
  have hpart := Footprint.get?_parts (s := c.space)
    (List.ne_nil_of_mem (displace_mem_accessesTo hc hg hin hname hm))
  obtain ⟨b, hb, l, u, ⟨zl, hzl, hl⟩, ⟨zu, hzu, hu⟩, hi⟩ :=
    Footprint.exists_mem_part (s := (composite c hs ys x).space) hz hd
  refine ⟨b, _, hb, hpart, _, hi, Box.dim_addTo _ _, ?_⟩
  have hlow := hspans zl hzl l hl
  have hhigh := hspans zu hzu u hu
  rw [Box.addTo_eq] at hlow hhigh ⊢
  exact hlow.between hhigh rfl rfl le_rfl le_rfl

end Composite

/-- Along every dimension that subscripts it, a cluster that fills an array touches no more of any
other array than has been recorded for the cluster before. -/
theorem lift_touches_within {as : List (Assignment α)} (hc : ∀ a ∈ as, Canonical a.rhs)
    (ds : List Dimension) (config : Config) (names : Names) :
    let c := Cluster.ofAssignments as ds
    ∃ ws c', ((lift config c).run names).1 = ws ++ [c'] ∧ ∀ w ∈ ws, ∀ z, w.Reads (access z) →
      (∀ y ∈ arrays c.space names (lifted config c), y.2.name ≠ z.field.name) →
        ∀ d ∈ z.dimensions, ∃ b b', w.touched z.field.name = some b ∧
          c.footprint.parts.get? z.field.name = some b' ∧
            ∃ i ∈ b.intervals, i.dim = d ∧ b'.Spans i := by
  intro c
  refine ⟨_, _, run_lift config c names, fun w hw z ⟨a, ha, hreads⟩ hname d hd => ?_⟩
  obtain ⟨ys, x, zs, hxs, rfl⟩ := mem_fills.1 hw
  have hx : x ∈ arrays c.space names (lifted config c) := by simp [hxs]
  refine composite_touches_within (hname x hx)
    (fun y hy => hname y (hxs ▸ List.mem_append_left _ hy)) ?_ hc
    (isGroup_of_mem_lifted (c := c) hc (fst_mem_of_mem_arrays hx)) hd
  exact mem_accessesTo.2 ⟨⟨a, ha, hreads.symm.imp_left And.right⟩, rfl⟩

section Echoes

theorem lift_touches_within_echoes :
    (∀ a ∈ (echoes 2).assignments, Canonical a.rhs) ∧
      ∃ ws c', ((lift { minAlias := 1 } (echoes 2)).run ⟨"r", 0⟩).1 = ws ++ [c'] ∧
        ∃ w ∈ ws, w.Reads (near "a" 0) ∧ ∃ b b', w.touched "a" = some b ∧
          (echoes 2).footprint.parts.get? "a" = some b' ∧
            ∃ i ∈ b.intervals, i.dim = .space "x" ∧ b'.Spans i := by
  have hlift := lift_echoes
  simp only [List.map_eq_cons_iff, List.map_eq_nil_iff, Prod.mk.injEq] at hlift
  obtain ⟨w, _, hout, ⟨-, a, as, has, ⟨-, hins⟩, -⟩, v, _, rfl, -, c', _, rfl, -, rfl⟩ := hlift
  have hreads : w.Reads (near "a" 0) := ⟨a, by simp [has], .inl (by simp [hins])⟩
  obtain ⟨ws, c'', hrun, hwithin⟩ := lift_touches_within (canonical_echoes 2) [.space "x"]
    { minAlias := 1 } ⟨"r", 0⟩
  have hw : w ∈ ws := by
    obtain ⟨rfl, -⟩ := List.append_inj' (hrun.symm.trans hout : ws ++ [c''] = [w, v] ++ [c']) rfl
    exact List.mem_cons_self
  refine ⟨canonical_echoes 2, ws, c'', hrun, w, hw, hreads,
    hwithin w hw _ hreads (fun y hy hname => ?_) (.space "x") (List.mem_singleton_self _)⟩
  obtain ⟨m, -, hm⟩ := name_mem_first hy
  rw [hname] at hm
  simp [Names.name, Field.input, String.ext_iff] at hm

def namesake (o : Int) : Access := ⟨.temporary "r0" [(1, 0)], [.affine (.space "x") o]⟩

/-- Two neighbouring sums of elements of this array, and the triples of them. -/
def namesakes : List (Assignment ℚ) :=
  let sums (o : Int) := sum [access (namesake o), near "b" o]
  [{ lhs := sym "p", rhs := sums (-1) },
    { lhs := sym "q", rhs := sums 0 },
    { lhs := sym "s", rhs := product [num 3, sums (-1)] },
    { lhs := sym "t", rhs := product [num 3, sums 0] },
    { lhs := near "u" 0, rhs := product [sym "p", sym "q", sym "s", sym "t"] }]

/-- The triples are filled from the array that is written for the sums, one point further than the
cluster reads the array of this name. -/
theorem lift_touches_beyond :
    (∀ a ∈ namesakes, Canonical a.rhs) ∧
      let c := Cluster.ofAssignments namesakes [.space "x"]
      ∃ ws c', ((lift { minAlias := 1 } c).run ⟨"r", 0⟩).1 = ws ++ [c'] ∧
        ∃ w ∈ ws, ∃ o, w.Reads (access (namesake o)) ∧
          (∃ o', ∃ a ∈ namesakes, namesake o' ∈ a.accesses) ∧ ∃ b b', w.touched "r0" = some b ∧
            c.footprint.parts.get? "r0" = some b' ∧
              ∀ i ∈ b.intervals, i.dim = .space "x" → ¬ b'.Spans i := by
  constructor
  · simp [namesakes, near, canonical_sum, canonical_product, Canonical.access, Canonical.num,
      Canonical.sym]
  intro c
  have hlift : ((lift { minAlias := 1 } c).run ⟨"r", 0⟩).1.map (fun w =>
      (w.assignments.map fun a => a.rhs.inputs, (w.touched "r0").map Box.intervals)) =
        [([[near "b" 0, access (namesake 0)]], some [⟨.space "x", -1, 1⟩]),
          ([[access (namesake 1)]], some [⟨.space "x", 0, 1⟩]),
          ([[access (namesake 0), access (namesake 1), access ⟨.temporary "r1" [(1, 0)],
              [.affine (.space "x") 0]⟩, access ⟨.temporary "r1" [(1, 0)],
                [.affine (.space "x") 1]⟩]], some [⟨.space "x", 0, 1⟩])] := by cbv
  have hbefore : (c.footprint.parts.get? "r0").map Box.intervals = some [⟨.space "x", -1, 0⟩] := by
    cbv
  simp only [List.map_eq_cons_iff, List.map_eq_nil_iff, Prod.mk.injEq, Option.map_eq_some_iff]
    at hlift hbefore
  obtain ⟨v, _, hout, -, w, _, rfl, ⟨⟨a, as, has, ha, -⟩, b, hb, hi⟩, c', _, rfl, -, rfl⟩ := hlift
  obtain ⟨b', hb', hi'⟩ := hbefore
  have hheld : (namesakes.any fun a => a.accesses.any (· = namesake 0)) = true := by cbv
  refine ⟨[v, w], c', hout, w, by simp, 1, ⟨a, by simp [has], .inl (by simp [ha])⟩,
    ⟨0, by simpa using hheld⟩, b, b', hb, hb', ?_⟩
  simp [hi, Box.Spans, hi']

end Echoes

end Lifting

end Stencil
