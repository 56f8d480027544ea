import Stencil.Proofs.Execution.Tour
import Stencil.Proofs.Rational
import Stencil.Proofs.Space.Footprint

namespace Stencil

namespace Interval

variable {i : Interval} {v : Int}

def first (i : Interval) (bounds : Int × Int) : Int := bounds.1 + i.lower

def last (i : Interval) (bounds : Int × Int) : Int := bounds.2 + i.upper

def positions (i : Interval) (bounds : Int × Int) : Set Int :=
  {v | i.first bounds ≤ v ∧ v ≤ i.last bounds}

theorem mem_positions_iff {α : Type} (c : Cluster α) {bounds : Int × Int} :
    v ∈ i.positions bounds ↔ v ∈ Nest.values c i bounds := by
  have hvalues : v ∈ Nest.values c i bounds ↔ v ∈ Nest.range (fun _ => some bounds) i :=
    @Nest.mem_values α (fun _ => some bounds) c i v
  rw [hvalues, Nest.mem_range]
  rfl

end Interval

namespace Box

variable {b : Box} {d : Dimension} {i : Interval}

theorem add_mem_positions {v : Int} {bounds : Int × Int} (hv : v ∈ (b.along d).positions bounds)
    (o : Int) : v + o ∈ (b.addTo ⟨d, o, o⟩).positions bounds := by
  obtain ⟨hfirst, hlast⟩ := hv
  rw [addTo_eq]
  simp only [Interval.first, Interval.last] at hfirst hlast
  constructor
  · show bounds.1 + (o + (b.along d).lower) ≤ v + o
    omega
  · show v + o ≤ bounds.2 + (o + (b.along d).upper)
    omega

theorem Spans.exists_positions (h : b.Spans i) :
    ∃ j, b.get? i.dim = some j ∧ ∀ bounds, i.positions bounds ⊆ j.positions bounds := by
  obtain ⟨j, hj, hdim, hlower, hupper⟩ := h
  refine ⟨j, hdim ▸ get?_of_mem hj, fun bounds v ⟨hfirst, hlast⟩ => ⟨?_, ?_⟩⟩
  · exact le_trans (Int.add_le_add_left hlower bounds.1) hfirst
  · exact le_trans hlast (Int.add_le_add_left hupper bounds.2)

end Box

namespace Footprint

variable {α : Type} {as : List (Assignment α)} {s : IterationSpace}

/-- Whether a footprint has room for all that assignments touch over a box, and no more than that
along the dimensions that subscript an array. -/
structure Exact (f : Footprint) (as : List (Assignment α)) (s : Box) : Prop where
  sound : ∀ a ∈ as, ∀ x ∈ a.accesses, ∀ d o, Index.affine d o ∈ x.indices →
    ∃ b i j, f.parts.get? x.field.name = some b ∧ b.get? d = some i ∧ f.total.get? d = some j ∧
      ∀ bounds, ∀ v ∈ (s.along d).positions bounds,
        v + o ∈ i.positions bounds ∧ v + o ∈ j.positions bounds
  tight : ∀ name, ∀ x ∈ accessesTo name as, ∀ d ∈ x.dimensions,
    ∃ b i, f.parts.get? name = some b ∧ b.get? d = some i ∧
      (∃ y ∈ accessesTo name as, ∃ l, Index.affine d l ∈ y.indices ∧
        ∀ bounds, i.first bounds = (s.along d).first bounds + l) ∧
      (∃ y ∈ accessesTo name as, ∃ u, Index.affine d u ∈ y.indices ∧
        ∀ bounds, i.last bounds = (s.along d).last bounds + u)

theorem covers_total {name : String} {b : Box}
    (h : (ofAssignments as s).parts.get? name = some b) : (ofAssignments as s).total.Covers b :=
  Box.covers_foldl_union (Table.mem_values_of_get? h) .empty

theorem exact_ofAssignments (as : List (Assignment α)) (s : IterationSpace) :
    (ofAssignments as s).Exact as s.box where
  sound a ha x hx d o ho := by
    have hmem : x ∈ accessesTo x.field.name as :=
      List.mem_filter.2 ⟨List.mem_flatMap.2 ⟨a, ha, hx⟩, beq_self_eq_true _⟩
    have hpart := get?_parts (s := s) (List.ne_nil_of_mem hmem)
    have hspans := spans_part (s := s) hmem ho
    have hdim : (s.box.addTo ⟨d, o, o⟩).dim = d := Box.dim_addTo s.box _
    obtain ⟨i, hi, hsub⟩ := hspans.exists_positions
    obtain ⟨j, hj, hsub'⟩ := ((covers_total hpart).spans hspans).exists_positions
    rw [hdim] at hi hj
    refine ⟨_, i, j, hpart, hi, hj, fun bounds v hv => ?_⟩
    have hv' := Box.add_mem_positions hv o
    exact ⟨hsub bounds hv', hsub' bounds hv'⟩
  tight name x hx d hd := by
    obtain ⟨b, hpart, l, u, ⟨y, hy, hl⟩, ⟨z, hz, hu⟩, hi⟩ := exists_mem_part (s := s) hx hd
    rw [Box.addTo_eq] at hi
    refine ⟨b, _, hpart, Box.get?_of_mem hi, ⟨y, hy, l, hl, fun bounds => ?_⟩,
      ⟨z, hz, u, hu, fun bounds => ?_⟩⟩
    · show bounds.1 + (l + (s.box.along d).lower) = bounds.1 + (s.box.along d).lower + l
      omega
    · show bounds.2 + (u + (s.box.along d).upper) = bounds.2 + (s.box.along d).upper + u
      omega

def overlaid : List (Assignment ℚ) :=
  let u := Field.temporary "u" [(0, 0), (0, 0)]
  [{ lhs := .access ⟨u, [.affine (.space "x") 0, .affine (.space "y") 2]⟩
     rhs := .mul [.access ⟨.input "u", [.affine (.space "x") (-1)]⟩,
      .access ⟨.input "u", [.const 7]⟩] }]

def strip : IterationSpace := ⟨.ofList [⟨.space "x", -2, 3⟩], .empty⟩

theorem exact_ofAssignments_overlaid :
    ((ofAssignments overlaid strip).parts.get? "u").map Box.intervals =
        some [⟨.space "x", -3, 3⟩, ⟨.space "y", 2, 2⟩] ∧
      (∀ i ∈ strip.box.intervals, i.dim ≠ .space "y") ∧
      ∃ b i j, (ofAssignments overlaid strip).parts.get? "u" = some b ∧
        b.get? (.space "y") = some i ∧
        (ofAssignments overlaid strip).total.get? (.space "y") = some j ∧
          ∀ bounds : Int × Int, ∀ v, bounds.1 ≤ v → v ≤ bounds.2 →
            v + 2 ∈ i.positions bounds ∧ v + 2 ∈ j.positions bounds := by
  refine ⟨by decide, by decide, ?_⟩
  obtain ⟨b, i, j, hb, hi, hj, hall⟩ := (exact_ofAssignments overlaid strip).sound _
    List.mem_cons_self _ List.mem_cons_self (.space "y") 2 (by decide)
  refine ⟨b, i, j, hb, hi, hj, fun bounds v hlow hhigh => hall bounds v ⟨?_, ?_⟩⟩
  · show bounds.1 + 0 ≤ v
    omega
  · show v ≤ bounds.2 + 0
    omega

end Footprint

end Stencil
