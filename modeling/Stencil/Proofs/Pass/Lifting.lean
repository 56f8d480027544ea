import Stencil.Proofs.Pass.Run
import Stencil.Proofs.Pass.Visits

namespace Stencil.Lifting

open Stencil.Expr Exec Nest

section Run

variable {α : Type} [Arithmetic α] [AlgebraicField α] [Exact α] {config : Config} {c : Cluster α}
  {names : Names} {x : AliasGroup α × Field} {g g' : Grid α}

omit [AlgebraicField α] [Exact α] in
theorem final?_eq_tour {ds : List Dimension} {cs : List (Cluster α)}
    (hnames : (ds.map Dimension.name).Nodup)
    (hbounds : ∀ d ∈ ds, (g.bounds.get? d).isSome = true) (hne : cs ≠ [])
    (hcs : ∀ c ∈ cs, c.space.box.dimensions = ds) :
    final? cs g = some g' ↔
      (forM (tour g.bounds.get? ds.length 0 cs []) (visit ds)).run g = .ok () g' := by
  have hrun : (execute cs).run g = (Nest.walk g.bounds.get? atPoint cs).run g := rfl
  rw [final?_eq_some, hrun, walk_eq_tour hnames hbounds hne hcs]
  rfl

section Readable

variable (hc : Liftable names (lifted config c).length c) (hf : Fillable config c names)
  (hread : ∀ x ∈ arrays c.space names (lifted config c), ∀ us,
    Inside g.bounds.get? (fill config c names x).space.box.intervals us →
      ∀ i ∈ x.1.origin.inputs, (fill config c names x).Reads i →
        ∃ v, i.eval (env g (stand c.space.box.dimensions us) .empty) = .ok v)

include hc hf hread

theorem exists_eval_inputs {ys zs : List (AliasGroup α × Field)} {us : List Int}
    (hxs : arrays c.space names (lifted config c) = ys ++ x :: zs)
    (hin : Inside g.bounds.get? (fill config c names x).space.box.intervals us) :
    ∀ i ∈ x.1.origin.inputs,
      ∃ v, i.eval (env g (stand c.space.box.dimensions us) .empty) = .ok v := by
  induction hn : ys.length using Nat.strong_induction_on generalizing x ys zs us with
  | _ n ih =>
    intro i hi
    have hx : x ∈ arrays c.space names (lifted config c) := by simp [hxs]
    have hg := isGroup_of_mem_lifted hc.canonical (fst_mem_of_mem_arrays hx)
    have hinserts : Inserts (table c.space (scalars config c) ys .empty) :=
      inserts_table hc.canonical fun y hy => fst_mem_of_mem_arrays (by rw [hxs]; simp [hy])
    rcases hinserts.mem_inputs_replace_or (hg.canonical hc.canonical) hi with hi' | ⟨k, hk, hik⟩
    · refine hread x hx us hin i hi ⟨_, List.mem_singleton_self _, .inl ?_⟩
      rwa [before_eq hxs]
    · obtain ⟨as, y, bs, rfl, m, hm, rfl, -, hreach⟩ := exists_of_hits hxs hc hf hk
      rw [List.append_assoc, List.cons_append] at hxs
      have hy : y ∈ arrays c.space names (lifted config c) := by simp [hxs]
      have hgy := isGroup_of_mem_lifted hc.canonical (fst_mem_of_mem_arrays hy)
      rw [inputs_congr (hgy.moved m hm)] at hik
      obtain ⟨j, hj, rfl⟩ := exists_of_mem_inputs_displace hik
      have hlen : c.space.box.dimensions.length = us.length := by
        have hlen := hin.length_eq
        rwa [pads_fill, List.length_map, ← List.length_map Interval.dim] at hlen
      rw [eval_move_input hf.distinct hlen (hf.dimensions y.1 (fst_mem_of_mem_arrays hy))
        (sym_not_mem_of_shift hf hgy (fst_mem_of_mem_arrays hy) hm) hj]
      exact ih as.length (by simp [← hn]) hxs
        (inside_of_reaches hxs hc hf (by simp) pads_fill hm hreach hin) rfl j hj

theorem exists_eval_origin {us : List Int} (hx : x ∈ arrays c.space names (lifted config c))
    (hin : Inside g.bounds.get? (fill config c names x).space.box.intervals us) :
    ∃ v, x.1.origin.eval (env g (stand c.space.box.dimensions us) .empty) = .ok v := by
  obtain ⟨ys, zs, hxs⟩ := List.append_of_mem hx
  have hg := isGroup_of_mem_lifted hc.canonical (fst_mem_of_mem_arrays hx)
  let env₀ := env g (stand c.space.box.dimensions us) .empty
  let ρ : Expr α → α := fun i => (i.eval env₀).toOption.getD 0
  have hsees : Sees ρ {i | i ∈ x.1.origin.inputs} env₀ := by
    intro i hi
    obtain ⟨v, hv⟩ := exists_eval_inputs hc hf hread hxs hin i hi
    refine ⟨(mem_inputs.1 hi).2, ?_⟩
    simp only [ρ, env₀, hv]
    rfl
  exact ⟨_, hsees.eval (hg.unary hc.line.unary) fun i hi => hi⟩

end Readable

/-- Executing what a lifting leaves behind does to the arrays of a cluster what executing the
cluster does, if all is there that the clusters read which fill the temporary ones. -/
theorem final?_lift (hI : 1 ≤ config.minInvariant)
    (hc : Liftable names (lifted config c).length c) (hf : Fillable config c names)
    (hbounds : ∀ d ∈ c.space.box.dimensions, (g.bounds.get? d).isSome = true)
    (hread : ∀ x ∈ arrays c.space names (lifted config c), ∀ us,
      Inside g.bounds.get? (fill config c names x).space.box.intervals us →
        ∀ i ∈ x.1.origin.inputs, (fill config c names x).Reads i →
          ∃ v, i.eval (env g (stand c.space.box.dimensions us) .empty) = .ok v)
    (h : final? [c] g = some g') :
    ∃ h', final? ((lift config c).run names).1 g = some h' ∧
      Grid.AgreeOff (temporaries config c names) g' h' := by
  classical
  have huniform := uniform_parts config c names
  have hne : parts config c names ≠ [] :=
    List.append_ne_nil_of_right_ne_nil _ (List.cons_ne_nil _ [])
  have hlen : 0 + c.space.box.dimensions.length = c.space.box.dimensions.length := Nat.zero_add _
  rw [final?_eq_tour hf.distinct hbounds (List.cons_ne_nil c []) (List.forall_mem_singleton.2 rfl),
    tour_singleton hlen, List.forM_map] at h
  have hpoints : ((tour g.bounds.get? c.space.box.dimensions.length 0 (parts config c names)
      []).filter (·.1 = reader config c names)).map (·.2) =
        (tour g.bounds.get? c.space.box.dimensions.length 0 [c] []).map (·.2) := by
    rw [parts, filter_tour huniform hlen (reader_not_mem hc hf)]
    exact map_tour_withAssignments c _ _ 0 []
  have hvalues : ∀ x ∈ arrays c.space names (lifted config c), ∀ us,
      (fill config c names x, us) ∈
        tour g.bounds.get? c.space.box.dimensions.length 0 (parts config c names) [] →
          ∃ v, x.1.origin.eval (env g (stand c.space.box.dimensions us) .empty) = .ok v := by
    intro x hx us hus
    obtain ⟨-, us, rfl, hin⟩ := (mem_tour huniform.dimensions hlen).1 hus
    exact exists_eval_origin hc hf hread hx hin
  obtain ⟨h', hrun, hgh'⟩ := Visited.nil.forM_visits hc hf hI (List.nil_append _).symm hvalues
    (.refl _ g) (hpoints ▸ h)
  rw [run_lift_eq_parts]
  exact ⟨h', (final?_eq_tour hf.distinct hbounds hne huniform.dimensions).2 hrun, hgh'⟩

end Run

def cell (f : String) (i j : Int) : Expr ℚ :=
  .access ⟨.input f, [.affine (.space "x") i, .affine (.space "y") j]⟩

def summing (e₁ e₂ e₃ e₄ : Expr ℚ) : Cluster ℚ :=
  .ofAssignments [
    { lhs := sym "s", rhs := e₁ },
    { lhs := sym "t", rhs := e₂ },
    { lhs := sym "p", rhs := e₃ },
    { lhs := sym "q", rhs := e₄ },
    { lhs := cell "u" 0 0, rhs := sum [sym "p", sym "q", sym "s", sym "t"] }]
    [.space "x", .space "y"]

def given : Set (Expr ℚ) := {i | ∃ y, i = access y ∧ (y.field.name = "a" ∨ y.field.name = "b")}

theorem within_cell {f : String} (hf : f = "a" ∨ f = "b") (i j : Int) :
    Canonical (cell f i j) ∧ Within given (cell f i j) :=
  ⟨.access _, within_of_isInput rfl ⟨_, rfl, hf⟩⟩

theorem liftable_summing {e₁ e₂ e₃ e₄ : Expr ℚ}
    (h : ∀ e ∈ [e₁, e₂, e₃, e₄], Canonical e ∧ Within given e) (n : Nat) :
    Liftable ⟨"r", 0⟩ n (summing e₁ e₂ e₃ e₄) := by
  have hinputs : (sum [sym "p", sym "q", sym "s", sym "t"] : Expr ℚ).inputs =
      [sym "p", sym "q", sym "s", sym "t"] := by cbv
  have hsum : Canonical (sum [sym "p", sym "q", sym "s", sym "t"] : Expr ℚ) ∧
      Unary (sum [sym "p", sym "q", sym "s", sym "t"] : Expr ℚ) := by
    refine ⟨canonical_sum (by simp [Canonical.sym]), unary_sum ?_⟩
    simp only [List.forall_mem_cons]
    exact ⟨unary_of_leaf rfl, unary_of_leaf rfl, unary_of_leaf rfl, unary_of_leaf rfl, by simp⟩
  have hsym : ∀ e ∈ [e₁, e₂, e₃, e₄], ∀ s, sym s ∉ e.inputs := by
    rintro e he s hs
    obtain ⟨y, hy, -⟩ := (h e he).2.inputs _ hs
    simp at hy
  have hgiven : ∀ e ∈ [e₁, e₂, e₃, e₄], ∀ y, access y ∈ e.inputs →
      y.field.name = "a" ∨ y.field.name = "b" := by
    rintro e he y hy
    obtain ⟨z, hz, hname⟩ := (h e he).2.inputs _ hy
    rwa [access.inj hz]
  simp only [List.forall_mem_cons, List.not_mem_nil, false_imp_iff, implies_true, and_true]
    at h hsym hgiven
  have hspace : (summing e₁ e₂ e₃ e₄).space.box.intervals =
      [⟨.space "x", 0, 0⟩, ⟨.space "y", 0, 0⟩] := rfl
  have hwrite : ∀ a ∈ (summing e₁ e₂ e₃ e₄).assignments, ∀ x, a.lhs = access x →
      x.field.name = "u" := by
    simp +contextual [summing, Cluster.ofAssignments, cell, Field.input, eq_comm]
  have hread : ∀ a ∈ (summing e₁ e₂ e₃ e₄).assignments, ∀ y, access y ∈ a.rhs.inputs →
      y.field.name = "a" ∨ y.field.name = "b" := by
    simpa [summing, Cluster.ofAssignments, hinputs] using hgiven
  have hscalar : ∀ a ∈ (summing e₁ e₂ e₃ e₄).assignments, ∀ s, a.lhs = sym s ∨ sym s ∈ a.rhs.inputs →
      s ∈ ["s", "t", "p", "q"] := by
    simp +contextual [summing, Cluster.ofAssignments, cell, hinputs, hsym, eq_comm]
  have hname : ∀ m, ∀ s ∈ ["s", "t", "p", "q"] ++ ["a", "b", "u"],
      (⟨"r", 0⟩ : Names).name m ≠ s := by
    rintro m s hs rfl
    simp [Names.name, String.ext_iff] at hs
  refine ⟨?_, ⟨?_, ?_, ?_, ?_, ?_⟩, ?_, ?_, fun m _ a ha => ?_, fun m _ a ha x hx => ?_⟩
  · simp [summing, Cluster.ofAssignments, h, hsum]
  · simp [summing, Cluster.ofAssignments, h.1.2.unary, h.2.1.2.unary, h.2.2.1.2.unary,
      h.2.2.2.2.unary, hsum]
  · simp [summing, Cluster.ofAssignments, cell, isSymbol]
  · simp [summing, Cluster.ofAssignments, cell, isSymbol]
  · simp [summing, Cluster.ofAssignments, cell, isSymbol, hsym]
  · simp [summing, Cluster.ofAssignments, cell, isSymbol, hsym]
  · intro a ha b hb x y hx hy hxy
    rcases hread b hb y hy with hname | hname <;> simp [hwrite a ha x hx, hname] at hxy
  · rw [hspace]
    decide
  · have hnot : ∀ s, a.lhs = sym s ∨ sym s ∈ a.rhs.inputs → s ≠ (⟨"r", 0⟩ : Names).name m :=
      fun s hs => (hname m s (List.mem_append_left _ (hscalar a ha s hs))).symm
    exact ⟨fun hl => hnot _ (.inl hl) rfl, fun hi => hnot _ (.inr hi) rfl⟩
  · rcases hx with hx | hx
    · rw [hwrite a ha x hx]
      exact (hname m _ (by simp)).symm
    · rcases hread a ha x hx with hn | hn <;> rw [hn] <;> exact (hname m _ (by simp)).symm

def both (j : Int) : Expr ℚ := sum [cell "a" 0 j, cell "b" 0 j]

def thrice (j : Int) : Expr ℚ := product [num 3, both j]

def rows : Cluster ℚ := summing (both 0) (both 1) (thrice 0) (thrice 1)

def rowsGrid : Grid ℚ :=
  let x : Dimension := .space "x"
  let y : Dimension := .space "y"
  ["a", "b"].foldl (fun g f => g.fill f [x, y] 1 fun p => p.sum + 1)
    ((({} : Grid ℚ).withBounds x 0 1).withBounds y 0 0)

theorem liftable_rows (n : Nat) : Liftable ⟨"r", 0⟩ n rows := by
  have hboth : ∀ j, Canonical (both j) ∧ Within given (both j) := fun j =>
    ⟨canonical_sum (by simp [within_cell]), (hereditary_within given).sum (by simp [within_cell])⟩
  have hthrice : ∀ j, Canonical (thrice j) ∧ Within given (thrice j) := fun j =>
    ⟨canonical_product (by simp [Canonical.num, hboth]),
      (hereditary_within given).product (by simp [within_num, hboth])⟩
  refine liftable_summing ?_ n
  simp [hboth, hthrice]

def neighbours (e : Int → Expr ℚ) : AliasGroup ℚ :=
  let off (j : Int) : Distance := ⟨[(.space "x", 0), (.space "y", j)]⟩
  ⟨e 0, [(e 0, off 0), (e 1, off 1)]⟩

theorem lifted_rows : lifted { minAlias := 1 } rows = [neighbours both, neighbours thrice] := by cbv

theorem arrays_rows : arrays rows.space ⟨"r", 0⟩ (lifted { minAlias := 1 } rows) =
    [(neighbours both, .temporary "r0" [(0, 1)]),
      (neighbours thrice, .temporary "r1" [(0, 1)])] := by
  rw [lifted_rows]
  cbv

theorem storage_rows : (storage rows.space (neighbours both)).intervals = [⟨.space "y", 0, 1⟩] ∧
    (storage rows.space (neighbours thrice)).intervals = [⟨.space "y", 0, 1⟩] :=
  ⟨by cbv, by cbv⟩

theorem spread_rows : spread (neighbours both) (.space "x") = (0, 0) ∧
    spread (neighbours both) (.space "y") = (0, 1) ∧
      spread (neighbours thrice) (.space "y") = (0, 1) :=
  ⟨by cbv, by cbv, by cbv⟩

theorem inputs_rows : (neighbours both).origin.inputs = [cell "a" 0 0, cell "b" 0 0] ∧
    (neighbours thrice).origin.inputs = [cell "a" 0 0, cell "b" 0 0] :=
  ⟨by cbv, by cbv⟩

theorem eq_of_reads_rows {i : Expr ℚ} (h : (fill { minAlias := 1 } rows ⟨"r", 0⟩
    (neighbours thrice, .temporary "r1" [(0, 1)])).Reads i) :
    i = access ⟨.temporary "r0" [(0, 1)], [.affine (.space "y") 0]⟩ := by
  have hinputs : (fill { minAlias := 1 } rows ⟨"r", 0⟩
      (neighbours thrice, .temporary "r1" [(0, 1)])).assignments.map
        (fun a => (a.increment, a.rhs.inputs)) =
          [(false, [access ⟨.temporary "r0" [(0, 1)], [.affine (.space "y") 0]⟩])] := by cbv
  exact List.mem_singleton.1 (mem_of_reads hinputs h)

theorem fillable_rows : Fillable { minAlias := 1 } rows ⟨"r", 0⟩ where
  target := by simp [rows, summing, Cluster.ofAssignments, cell, isInput, isSymbol, isAccess]
  distinct := by decide
  dimensions := by
    have hspace : rows.space.box.dimensions = [.space "x", .space "y"] := by decide
    have hcells : ∀ i ∈ [cell "a" 0 0, cell "b" 0 0], ∀ z, i = access z → ∀ d ∈ z.dimensions,
        d ∈ rows.space.box.dimensions := by
      simp +contextual [cell, Access.dimensions, Index.dim?, hspace, eq_comm]
    rw [lifted_rows]
    refine List.forall_mem_cons.2 ⟨fun d hd => ?_, List.forall_mem_singleton.2 fun d hd => ?_⟩
    · obtain ⟨z, hz, hd⟩ := mem_dimensions.1 hd
      exact hcells _ (inputs_rows.1 ▸ hz) z rfl d hd
    · obtain ⟨z, hz, hd⟩ := mem_dimensions.1 hd
      exact hcells _ (inputs_rows.2 ▸ hz) z rfl d hd
  fixed := by
    rw [lifted_rows]
    simp [inputs_rows, cell]
  nested := by
    rw [lifted_rows]
    simp [Box.dimensions, storage_rows]
  reaches := by
    rw [arrays_rows]
    refine List.pairwise_pair.2 fun m _ hreads => ?_
    have heq := eq_of_reads_rows hreads
    rw [element, storage_rows.1] at heq
    have hshift : m.2.shift (.space "y") = 0 := by simpa using heq
    simp [Reaches, storage_rows, spread_rows, hshift]

theorem readable_rows : ∀ x ∈ arrays rows.space ⟨"r", 0⟩ (lifted { minAlias := 1 } rows), ∀ us,
    Inside rowsGrid.bounds.get? (fill { minAlias := 1 } rows ⟨"r", 0⟩ x).space.box.intervals us →
      ∀ i ∈ x.1.origin.inputs, (fill { minAlias := 1 } rows ⟨"r", 0⟩ x).Reads i →
        ∃ v, i.eval (env rowsGrid (stand rows.space.box.dimensions us) .empty) = .ok v := by
  have hspace : rows.space.box.intervals = [⟨.space "x", 0, 0⟩, ⟨.space "y", 0, 0⟩] := by decide
  have hx : rowsGrid.bounds.get? (.space "x") = some (0, 1) := by decide
  have hy : rowsGrid.bounds.get? (.space "y") = some (0, 0) := by decide
  rw [arrays_rows]
  refine List.forall_mem_cons.2 ⟨fun us hus i hi _ => ?_,
    List.forall_mem_singleton.2 fun us _ i hi hreads => ?_⟩
  · rw [pads_fill, hspace, List.map_cons, List.map_singleton, Inside,
      List.forall₂_cons_left_iff] at hus
    obtain ⟨u, _, hu, hrest, rfl⟩ := hus
    obtain ⟨v, _, hv, hnil, rfl⟩ := List.forall₂_cons_left_iff.1 hrest
    obtain rfl := List.forall₂_nil_left_iff.1 hnil
    simp only [mem_range, hx, hy, spread_rows, Option.getD_some] at hu hv
    rw [inputs_rows.1] at hi
    refine ⟨(u + v + 1 : Int), ?_⟩
    obtain rfl | rfl : u = 0 ∨ u = 1 := by omega
    all_goals
      obtain rfl | rfl : v = 0 ∨ v = 1 := by omega
      all_goals
        rcases List.mem_pair.1 hi with rfl | rfl
        all_goals cbv
  · rw [eq_of_reads_rows hreads, inputs_rows.2] at hi
    simp [cell] at hi

theorem final?_lift_rows :
    (final? ((lift { minAlias := 1 } rows).run ⟨"r", 0⟩).1 rowsGrid).bind
      (·.get? "u" [1, 0]) = some 40 := by
  have hstart : (final? [rows] rowsGrid).bind (·.get? "u" [1, 0]) = some 40 := by cbv
  obtain ⟨g, hg, hvalue⟩ := Option.bind_eq_some_iff.1 hstart
  have hc := liftable_rows (lifted { minAlias := 1 } rows).length
  obtain ⟨h, hh, hagree⟩ := final?_lift (by decide) hc fillable_rows (by decide) readable_rows hg
  have hu : "u" ∉ temporaries { minAlias := 1 } rows ⟨"r", 0⟩ := by
    rintro ⟨m, -, hm⟩
    simp [Names.name, String.ext_iff] at hm
  rw [hh, Option.bind_some, hagree.elements "u" hu, hvalue]

/-- `s` and `t` differ by a step along `y`, and `p` and `q` by one along `x`. -/
def crossed : Cluster ℚ :=
  let x : Dimension := .space "x"
  let y : Dimension := .space "y"
  let twice (f : String) (i j : Int) : Expr ℚ :=
    product [num 2, .access ⟨.input f, [.affine x i, .affine y j]⟩]
  .ofAssignments [
    { lhs := sym "s", rhs := twice "a" 0 0 },
    { lhs := sym "t", rhs := twice "a" 0 1 },
    { lhs := sym "p", rhs := twice "b" 0 0 },
    { lhs := sym "q", rhs := twice "b" 1 0 },
    { lhs := .access ⟨.input "u", [.affine x 0, .affine y 0]⟩
      rhs := sum [sym "p", sym "q", sym "s", sym "t"] }] [x, y]

def crossedGrid : Grid ℚ :=
  let x : Dimension := .space "x"
  let y : Dimension := .space "y"
  ["a", "b"].foldl (fun g f => g.fill f [x, y] 1 fun p => p.sum)
    ((({} : Grid ℚ).withBounds x 0 1).withBounds y 0 0)

theorem liftable_crossed (n : Nat) : Liftable ⟨"r", 0⟩ n crossed := by
  have htwice : ∀ f, f = "a" ∨ f = "b" → ∀ i j, Canonical (product [num 2, cell f i j]) ∧
      Within given (product [num 2, cell f i j]) := fun f hf i j =>
    ⟨canonical_product (by simp [Canonical.num, within_cell hf]),
      (hereditary_within given).product (by simp [within_num, within_cell hf])⟩
  refine liftable_summing ?_ n
  simp only [List.forall_mem_cons]
  exact ⟨htwice "a" (.inl rfl) 0 0, htwice "a" (.inl rfl) 0 1, htwice "b" (.inr rfl) 0 0,
    htwice "b" (.inr rfl) 1 0, by simp⟩

/-- An array that is stored along `y` alone is filled in a loop over `x` of its own, if the array
after it is stored along `x` as well, and only its last row is left to be read. -/
theorem lift_overwrites_row :
    let lifted := (lift { minAlias := 1 } crossed).run ⟨"r", 0⟩
    Liftable ⟨"r", 0⟩ lifted.2.next crossed ∧
      (final? [crossed] crossedGrid).bind (·.get? "u" [0, 0]) = some 4 ∧
      (final? lifted.1 crossedGrid).bind (·.get? "u" [0, 0]) = some 8 := by
  exact ⟨liftable_crossed _, by cbv, by cbv⟩

end Stencil.Lifting
