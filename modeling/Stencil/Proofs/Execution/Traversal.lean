import Stencil.Proofs.Execution.Sequence
import Stencil.Proofs.Execution.Standing
import Stencil.Proofs.Rational

/-!
What a walk over clusters is: each of them is visited once at every point of its space, in list
order within the loops that it shares with others, and along a loop in the direction of the first
cluster that shares the loop.
-/

namespace Stencil.Nest

open Exec

variable {α : Type} {bounds : Dimension → Option (Int × Int)} {cs : List (Cluster α)}

/-- The visits that a walk over some clusters makes. -/
structure Traverses (bounds : Dimension → Option (Int × Int)) (cs : List (Cluster α))
    (V : List (Visit cs)) : Prop where
  everywhere : ∀ i ws, (i, ws) ∈ V ↔ List.Forall₂ (fun iv w =>
    ∃ b, bounds iv.dim = some b ∧ b.1 + iv.lower ≤ w ∧ w ≤ b.2 + iv.upper)
      (cs.get i).space.box.intervals ws
  once : V.Nodup
  /-- In an iteration of `k` loops, clusters that share no further one are visited in list order. -/
  ordered : ∀ k, ∀ p ∈ V, ∀ q ∈ V, Together k p q → ¬ Shares cs (k + 1) p.1 q.1 → p.1 < q.1 →
    [p, q].Sublist V
  /-- An iteration goes on without interruption. -/
  contiguous : ∀ k p q r, [p, r, q].Sublist V → Together k p q → Together k p r

theorem forall₂_bounded_iff {is : List Interval} {ws : List Int}
    (hbounds : ∀ iv ∈ is, (bounds iv.dim).isSome = true) :
    Inside bounds is ws ↔ List.Forall₂ (fun iv w =>
      ∃ b, bounds iv.dim = some b ∧ b.1 + iv.lower ≤ w ∧ w ≤ b.2 + iv.upper) is ws := by
  induction is generalizing ws with
  | nil => simp [Inside]
  | cons iv is ih =>
    obtain ⟨hiv, his⟩ := List.forall_mem_cons.1 hbounds
    obtain ⟨b, hb⟩ := Option.isSome_iff_exists.1 hiv
    have hw : ∀ w, w ∈ range bounds iv ↔
        ∃ b, bounds iv.dim = some b ∧ b.1 + iv.lower ≤ w ∧ w ≤ b.2 + iv.upper := fun w => by
      simp [mem_range, hb]
    simp only [Inside, List.forall₂_cons_left_iff, hw] at ih ⊢
    simp only [ih his]

theorem traverses_itinerary
    (hbounds : ∀ c ∈ cs, ∀ d ∈ c.space.box.dimensions, (bounds d).isSome = true) :
    Traverses bounds cs (itinerary bounds cs) where
  everywhere i ws := mem_itinerary.trans (forall₂_bounded_iff fun iv hiv =>
    hbounds _ (cs.get_mem i) iv.dim (List.mem_map_of_mem hiv))
  once := nodup_itinerary bounds cs
  ordered k p hp q hq htogether hshares hlt :=
    (before_iff hp hq).1 ⟨k, htogether, .place hshares hlt⟩
  contiguous k p q r h htogether := by
    have hpairwise := (pairwise_itinerary bounds cs).sublist h
    rw [List.pairwise_cons, List.pairwise_pair] at hpairwise
    exact (hpairwise.1 r List.mem_cons_self).together hpairwise.2 htogether

/-- To execute clusters is to execute each of them where it is visited, with its own dimensions
bound to that point. -/
theorem execute_traverses [Arithmetic α] {g : Grid α}
    (hnames : ∀ c ∈ cs, (c.space.box.dimensions.map Dimension.name).Nodup)
    (hbounds : ∀ c ∈ cs, ∀ d ∈ c.space.box.dimensions, (g.bounds.get? d).isSome = true) :
    ∃ V, Traverses g.bounds.get? cs V ∧
      visits g.bounds.get? cs = V.map (fun q => (cs.get q.1, station cs.get q)) ∧
      (execute cs).run g =
        (forM V fun q => atPoint (cs.get q.1) (station cs.get q) : Exec α Unit).run g ∧
      ∀ q ∈ V, (station cs.get q).keys = (cs.get q.1).space.box.dimensions.map Dimension.name ∧
        List.Forall₂ (fun d w => (station cs.get q).get? d.name = some w)
          (cs.get q.1).space.box.dimensions q.2 := by
  refine ⟨itinerary g.bounds.get? cs, traverses_itinerary hbounds,
    visits_eq_itinerary hnames hbounds, ?_, fun q hq => ?_⟩
  · have hrun : (execute cs).run g = (walk g.bounds.get? atPoint cs).run g := rfl
    rw [hrun, walk_eq_itinerary hnames hbounds]
  · have hlen : (cs.get q.1).space.box.dimensions.length = q.2.length := by
      rw [Box.dimensions, List.length_map]
      exact (mem_itinerary.1 hq).length_eq
    refine ⟨?_, forall₂_stand (hnames _ (cs.get_mem q.1)) hlen⟩
    rw [station, stand, Table.keys, List.map_fst_zip (by rw [List.length_map]; exact hlen.le)]

section Row

/-- A cluster over the columns of one row, which shares all its loops with others. -/
def rowwise (lhs rhs : Access) : Cluster ℚ :=
  .ofAssignments [{ lhs := .access lhs, rhs := .access rhs }] [.space "y", .space "x"]

def cell (name : String) (o : Int) : Access :=
  ⟨.input name, [.affine (.space "y") 0, .affine (.space "x") o]⟩

def rowClusters : List (Cluster ℚ) :=
  [rowwise (cell "u" 0) (cell "a" 0), rowwise (cell "v" 0) (cell "u" 1)]

def rowGrid : Grid ℚ :=
  let g := (({} : Grid ℚ).withBounds (.space "y") 0 0).withBounds (.space "x") 0 1
  (((g.set "a" [0, 0] 1).set "a" [0, 1] 2).set "u" [0, 1] 5).set "u" [0, 2] 6

theorem execute_traverses_row :
    (∀ c ∈ rowClusters, (c.space.box.dimensions.map Dimension.name).Nodup) ∧
      (∀ c ∈ rowClusters, ∀ d ∈ c.space.box.dimensions,
        (rowGrid.bounds.get? d).isSome = true) ∧
      ∃ V, Traverses rowGrid.bounds.get? rowClusters V ∧ visits rowGrid.bounds.get? rowClusters =
        V.map fun q => (rowClusters.get q.1, station rowClusters.get q) := by
  have hnames : ∀ c ∈ rowClusters, (c.space.box.dimensions.map Dimension.name).Nodup := by decide
  have hbounds : ∀ c ∈ rowClusters, ∀ d ∈ c.space.box.dimensions,
      (rowGrid.bounds.get? d).isSome = true := by decide
  obtain ⟨V, htraverses, hvisits, -⟩ := execute_traverses hnames hbounds
  exact ⟨hnames, hbounds, V, htraverses, hvisits⟩

/-- Within the row, the second cluster does not wait for the first one to be done with it: they
share the loop over its columns as well. -/
theorem shared_loops_interleave :
    let V := itinerary rowGrid.bounds.get? rowClusters
    Agree 1 (rowwise (cell "u" 0) (cell "a" 0)) (rowwise (cell "v" 0) (cell "u" 1)) ∧
      (¬ ∀ p ∈ V, ∀ q ∈ V, Together 1 p q → p.1 < q.1 → [p, q].Sublist V) ∧
      (final? rowClusters rowGrid).bind (·.get? "v" [0, 0]) = some 5 ∧
      ((final? (rowClusters.take 1) rowGrid).bind (final? (rowClusters.drop 1))).bind
        (·.get? "v" [0, 0]) = some 2 := by
  have hlevel : ∀ l : Fin rowClusters.length,
      level? 0 (rowClusters.get l) = some ⟨.space "y", 0, 0⟩ := by decide
  have hagree : ∀ i j : Fin rowClusters.length, Agree 1 (rowClusters.get i) (rowClusters.get j) :=
    fun i j l hl => by
      obtain rfl : l = 0 := by omega
      exact ⟨_, hlevel i, hlevel j⟩
  refine ⟨hagree ⟨0, by decide⟩ ⟨1, by decide⟩, fun h => ?_, by cbv, by cbv⟩
  have hsublist := h (⟨0, by decide⟩, [0, 1]) (by decide) (⟨1, by decide⟩, [0, 0]) (by decide)
    ⟨fun l _ => hagree _ l, by decide⟩ (by decide)
  exact absurd hsublist (by decide)

end Row

end Stencil.Nest
