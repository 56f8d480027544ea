import Stencil.Proofs.Execution.Tour
import Stencil.Proofs.Pass.Lifted
import Stencil.Proofs.Rational
import Stencil.Proofs.Space.Footprint

/-!
What is read of lifted arrays, beside what is written there. For the cluster that they are lifted
out of, the one covers the other. A cluster that fills an array from another array runs over the
range of its own group, and may read further than the other one is filled.
-/

namespace Stencil

open Stencil.Expr AliasGroups

section Sweeps

variable {α : Type}

def Cluster.sweep (c : Cluster α) (bounds : Dimension → Option (Int × Int)) : Index → Set Int
  | .const p => {p}
  | .affine d o =>
    {p | ∃ i ∈ c.space.box.intervals, i.dim = d ∧ ∃ v ∈ Nest.range bounds i, p = v + o}

/-- Where a cluster reads an array that another one writes, it does not leave what is written,
whatever the bounds are. -/
def Cluster.Covers (w c : Cluster α) : Prop :=
  ∀ x y, c.Reads (access x) → w.Writes y → x.field = y.field →
    ∀ bounds : Dimension → Option (Int × Int), (∀ d b, bounds d = some b → b.1 ≤ b.2) →
      List.Forall₂ (fun i j => c.sweep bounds i ⊆ w.sweep bounds j) x.indices y.indices

def Cluster.Pads (w c : Cluster α) (pad : Dimension → Int × Int) : Prop :=
  w.space.box.intervals = c.space.box.intervals.map fun i =>
    ⟨i.dim, i.lower + (pad i.dim).1, i.upper + (pad i.dim).2⟩

variable {c w : Cluster α} {pad pad' : Dimension → Int × Int}
  {bounds : Dimension → Option (Int × Int)}

theorem Cluster.pads_self (c : Cluster α) : c.Pads c fun _ => (0, 0) := by
  simp [Cluster.Pads]

theorem Cluster.Pads.dimensions (hw : w.Pads c pad) :
    w.space.box.dimensions = c.space.box.dimensions := by
  rw [Box.dimensions, hw, List.map_map]
  rfl

theorem Cluster.Pads.level?_eq_iff {v : Cluster α} (hv : v.Pads c pad) (hw : w.Pads c pad')
    {j : Nat} {i : Interval} (hi : Nest.level? j c = some i) :
    Nest.level? j v = Nest.level? j w ↔ pad i.dim = pad' i.dim := by
  rw [Nest.level?] at hi
  rw [Nest.level?, Nest.level?, hv, hw, List.getElem?_map, List.getElem?_map, hi]
  simp [Prod.ext_iff]

theorem Cluster.Pads.sweep_affine (hw : w.Pads c pad) {i : Interval}
    (hi : i ∈ c.space.box.intervals) (o : Int) : w.sweep bounds (.affine i.dim o) =
      Set.Icc (((bounds i.dim).getD (0, 0)).1 + (i.lower + (pad i.dim).1 + o))
        (((bounds i.dim).getD (0, 0)).2 + (i.upper + (pad i.dim).2 + o)) := by
  ext p
  rw [Cluster.sweep, hw]
  simp only [Set.mem_ofPred_eq, List.mem_map, exists_exists_and_eq_and, Set.mem_Icc, Nest.mem_range]
  constructor
  · rintro ⟨j, hj, hdim, v, hv, rfl⟩
    obtain rfl : j = i := List.inj_on_of_nodup_map c.space.box.nodup hj hi hdim
    omega
  · rintro ⟨hlo, hhi⟩
    exact ⟨i, hi, rfl, p - o, by omega, by omega⟩

theorem forall_Icc_subset_iff {d : Dimension} {l u l' u' : Int} :
    (∀ bounds : Dimension → Option (Int × Int), (∀ d b, bounds d = some b → b.1 ≤ b.2) →
      Set.Icc (((bounds d).getD (0, 0)).1 + l) (((bounds d).getD (0, 0)).2 + u) ⊆
        Set.Icc (((bounds d).getD (0, 0)).1 + l') (((bounds d).getD (0, 0)).2 + u')) ↔
      l' ≤ l ∧ u ≤ u' := by
  constructor
  · intro h
    -- bounds so far apart that the first range is not empty
    have hsub := h (fun _ => some (0, (l - u).natAbs)) fun _ b hb => by
      rw [← Option.some.inj hb]
      exact Int.natCast_nonneg _
    rw [Option.getD_some, Set.Icc_subset_Icc_iff (by omega)] at hsub
    omega
  · rintro ⟨hl, hu⟩ bounds -
    exact Set.Icc_subset_Icc (by omega) (by omega)

end Sweeps

namespace Lifting

variable {α : Type} [Arithmetic α] {config : Config} {c w : Cluster α} {names : Names}
  {hs : Handles α} {ys : List (AliasGroup α × Field)} {x y : AliasGroup α × Field}
  {pad : Dimension → Int × Int}

def Reaches (s : IterationSpace) (g : AliasGroup α) (pad : Dimension → Int × Int) (shift : Shift) :
    Prop :=
  ∀ i ∈ (storage s g).intervals,
    i.lower ≤ (pad i.dim).1 + shift i.dim ∧ (pad i.dim).2 + shift i.dim ≤ i.upper

theorem pads_composite (c : Cluster α) (hs : Handles α) (ys : List (AliasGroup α × Field))
    (x : AliasGroup α × Field) : (composite c hs ys x).Pads c (spread x.1) :=
  intervals_add_storage c.space x.1

theorem pads_reader (config : Config) (c : Cluster α) (names : Names) :
    (reader config c names).Pads c fun _ => (0, 0) := c.pads_self

theorem forall_sweep_subset_iff (hw : w.Pads c pad) (shift : Shift) :
    (∀ bounds : Dimension → Option (Int × Int), (∀ d b, bounds d = some b → b.1 ≤ b.2) →
      List.Forall₂ (fun i j => w.sweep bounds i ⊆ (composite c hs ys y).sweep bounds j)
        ((storage c.space y.1).intervals.map fun i => .affine i.dim (-i.lower + shift i.dim))
        ((storage c.space y.1).intervals.map fun i => .affine i.dim (-i.lower + 0))) ↔
      Reaches c.space y.1 pad shift := by
  have hindex : ∀ j ∈ (storage c.space y.1).intervals,
      (∀ bounds : Dimension → Option (Int × Int), (∀ d b, bounds d = some b → b.1 ≤ b.2) →
        w.sweep bounds (.affine j.dim (-j.lower + shift j.dim)) ⊆
          (composite c hs ys y).sweep bounds (.affine j.dim (-j.lower + 0))) ↔
        j.lower ≤ (pad j.dim).1 + shift j.dim ∧ (pad j.dim).2 + shift j.dim ≤ j.upper := by
    intro j hj
    obtain ⟨i, hi, rfl⟩ := exists_of_mem_storage hj
    simp only [stored, hw.sweep_affine hi, (pads_composite c hs ys y).sweep_affine hi]
    rw [forall_Icc_subset_iff]
    omega
  simp only [List.forall₂_map_left_iff, List.forall₂_map_right_iff, List.forall₂_same]
  exact ⟨fun h j hj => (hindex j hj).1 fun bounds hbounds => h bounds hbounds j hj,
    fun h bounds hbounds j hj => (hindex j hj).2 (h j hj) bounds hbounds⟩

theorem reaches_member {as : List (Assignment α)} {s : IterationSpace} {g : AliasGroup α}
    (hg : IsGroup as g) {m : Expr α × Distance} (hm : m ∈ g.members) :
    Reaches s g (fun _ => (0, 0)) m.2.shift := by
  intro i hi
  obtain ⟨j, -, rfl⟩ := exists_of_mem_storage hi
  have hspread := hg.shift_mem_spread hm j.dim
  simpa only [stored, Int.zero_add] using hspread

theorem covers_composite_iff (hw : w.Pads c pad)
    (hread : ∀ z, w.Reads (access z) → z.field = y.2 → ∃ m ∈ y.1.members,
      (access z : Expr α) = element y.2 (storage c.space y.1) m.2.shift) :
    (composite c hs ys y).Covers w ↔ ∀ m ∈ y.1.members,
      w.Reads (element y.2 (storage c.space y.1) m.2.shift) →
        Reaches c.space y.1 pad m.2.shift := by
  constructor
  · intro h m hm hreads
    exact (forall_sweep_subset_iff hw _).1 (h _ _ hreads (writes_composite.2 rfl) rfl)
  · intro h z z' hz hz' hfield
    obtain rfl := access.inj (writes_composite.1 hz')
    obtain ⟨m, hm, heq⟩ := hread z hz hfield
    obtain rfl := access.inj heq
    exact (forall_sweep_subset_iff hw _).2 (h m hm hz)

variable [LawfulArithmetic α]

def Unused (config : Config) (c : Cluster α) (names : Names) : Prop :=
  ∀ a ∈ c.assignments, ∀ z ∈ a.accesses,
    ∀ y ∈ arrays c.space names (lifted config c), z.field ≠ y.2

omit [Arithmetic α] [LawfulArithmetic α] in
theorem isInput_of_mem_arrays {gs : List (AliasGroup α)} {s : IterationSpace}
    (hy : y ∈ arrays s names gs) : y.2.isInput = false := by
  induction gs generalizing names with
  | nil => exact absurd hy List.not_mem_nil
  | cons g gs ih =>
    rcases List.mem_cons.1 hy with rfl | hy
    · rfl
    · exact ih hy

omit [LawfulArithmetic α] in
theorem unused_of_isInput (h : ∀ a ∈ c.assignments, ∀ z ∈ a.accesses, z.field.isInput = true) :
    Unused config c names := by
  rintro a ha z hz y hy heq
  have hfalse := isInput_of_mem_arrays hy
  rw [← heq, h a ha z hz] at hfalse
  exact Bool.false_ne_true hfalse.symm

section Unused

variable (hnew : Unused config c names) (hy : y ∈ arrays c.space names (lifted config c))

include hnew hy

theorem exists_member_of_reads_reader {z : Access} (hz : (reader config c names).Reads (access z))
    (hfield : z.field = y.2) : ∃ m ∈ y.1.members,
      (access z : Expr α) = element y.2 (storage c.space y.1) m.2.shift := by
  rcases exists_of_reads_reader hz with ⟨a, ha, hi⟩ | ⟨y', hy', m, hm, heq⟩
  · exact absurd hfield (hnew a ha z (a.mem_accesses.2 hi) y hy)
  · have hfield' := congrArg Access.field (access.inj heq)
    obtain rfl := eq_of_name_eq hy' hy (congrArg Field.name (hfield'.symm.trans hfield))
    exact ⟨m, hm, heq⟩

theorem exists_member_of_reads_composite (hc : ∀ a ∈ c.assignments, Canonical a.rhs)
    {zs : List (AliasGroup α × Field)}
    (hxs : arrays c.space names (lifted config c) = ys ++ x :: zs) {z : Access}
    (hz : (composite c hs ys x).Reads (access z)) (hfield : z.field = y.2) :
    y ∈ ys ∧ ∃ m ∈ y.1.members,
      (access z : Expr α) = element y.2 (storage c.space y.1) m.2.shift := by
  rcases exists_of_reads_composite hz with hi | ⟨y', hy', m, hm, heq⟩
  · have hx : x ∈ arrays c.space names (lifted config c) := by simp [hxs]
    have hg := isGroup_of_mem_lifted hc (fst_mem_of_mem_arrays hx)
    obtain ⟨a, ha, z', hz', hfield'⟩ := hg.access_mem_origin hc hi
    exact absurd (hfield'.trans hfield) (hnew a ha z' (a.mem_accesses.2 (.inr hz')) y hy)
  · have hmem : y' ∈ arrays c.space names (lifted config c) := hxs ▸ List.mem_append_left _ hy'
    have hfield' := congrArg Access.field (access.inj heq)
    obtain rfl := eq_of_name_eq hmem hy (congrArg Field.name (hfield'.symm.trans hfield))
    exact ⟨hy', m, hm, heq⟩

end Unused

theorem covers_reader (hc : ∀ a ∈ c.assignments, Canonical a.rhs) (hnew : Unused config c names)
    (hw : w ∈ fills c (scalars config c) (arrays c.space names (lifted config c)) .empty) :
    w.Covers (reader config c names) := by
  obtain ⟨us, y, vs, hsplit, rfl⟩ := mem_fills.1 hw
  have hy : y ∈ arrays c.space names (lifted config c) := by simp [hsplit]
  have hg := isGroup_of_mem_lifted hc (fst_mem_of_mem_arrays hy)
  exact (covers_composite_iff (pads_reader config c names) fun z =>
    exists_member_of_reads_reader hnew hy).2 fun m hm _ => reaches_member hg hm

/-- All that the last cluster reads of the arrays has been written. All that the other clusters read
has been, if and only if each array reaches as far as it is read when others are filled from it. -/
theorem lift_covers_iff (hc : ∀ a ∈ c.assignments, Canonical a.rhs)
    (hnew : Unused config c names) : ∃ ws c', ((lift config c).run names).1 = ws ++ [c'] ∧
      (∀ w ∈ ws, w.Covers c') ∧
      ((∀ w ∈ ws, ∀ v ∈ ((lift config c).run names).1, w.Covers v) ↔
        ∀ ys x zs, arrays c.space names (lifted config c) = ys ++ x :: zs →
          ∀ y ∈ ys, ∀ m ∈ y.1.members,
            (composite c (scalars config c) ys x).Reads
                (element y.2 (storage c.space y.1) m.2.shift) →
              Reaches c.space y.1 (spread x.1) m.2.shift) := by
  have hrun := run_lift config c names
  refine ⟨_, _, hrun, fun w hw => covers_reader hc hnew hw, ?_⟩
  rw [hrun]
  constructor
  · intro h ys x zs hxs y hy m hm hreads
    have hmem : y ∈ arrays c.space names (lifted config c) := hxs ▸ List.mem_append_left _ hy
    obtain ⟨us, vs, rfl⟩ := List.append_of_mem hy
    have hw : composite c (scalars config c) us y ∈
        fills c (scalars config c) (arrays c.space names (lifted config c)) .empty :=
      mem_fills.2 ⟨us, y, vs ++ x :: zs, by rw [hxs, List.append_assoc, List.cons_append], rfl⟩
    have hv : composite c (scalars config c) (us ++ y :: vs) x ∈
        fills c (scalars config c) (arrays c.space names (lifted config c)) .empty :=
      mem_fills.2 ⟨_, x, zs, hxs, rfl⟩
    refine (covers_composite_iff (pads_composite c _ _ x) fun z hz hfield => ?_).1
      (h _ hw _ (List.mem_append_left _ hv)) m hm hreads
    exact (exists_member_of_reads_composite hnew hmem hc hxs hz hfield).2
  · intro h w hw v hv
    rcases List.mem_append.1 hv with hv | hv
    · obtain ⟨us, y, vs, hsplit, rfl⟩ := mem_fills.1 hw
      obtain ⟨ys, x, zs, hxs, rfl⟩ := mem_fills.1 hv
      have hy : y ∈ arrays c.space names (lifted config c) := by simp [hsplit]
      refine (covers_composite_iff (pads_composite c _ _ x) fun z hz hfield => ?_).2
        fun m hm hreads => ?_
      · exact (exists_member_of_reads_composite hnew hy hc hxs hz hfield).2
      · exact h ys x zs hxs y (exists_member_of_reads_composite hnew hy hc hxs hreads rfl).1 m hm
          hreads
    · exact List.mem_singleton.1 hv ▸ covers_reader hc hnew hw

section Echoes

def near (f : String) (o : Int) : Expr ℚ := access ⟨.input f, [.affine (.space "x") o]⟩

def pair (o : Int) : Expr ℚ := sum [near "a" o, near "b" o]

/-- The product of two neighbouring sums, and of the triple of the first and of one at a distance. -/
def echoes (o : Int) : Cluster ℚ :=
  .ofAssignments [
    { lhs := sym "p", rhs := pair 0 },
    { lhs := sym "q", rhs := pair 1 },
    { lhs := sym "s", rhs := product [num 3, pair 0] },
    { lhs := sym "t", rhs := product [num 3, pair o] },
    { lhs := near "u" 0, rhs := product [sym "p", sym "q", sym "s", sym "t"] }] [.space "x"]

theorem canonical_echoes (o : Int) : ∀ a ∈ (echoes o).assignments, Canonical a.rhs := by
  have hpair : ∀ i, Canonical (pair i) := fun i => by
    simp [pair, near, canonical_sum, Canonical.access]
  simp [echoes, Cluster.ofAssignments, canonical_product, hpair, Canonical.num, Canonical.sym]

def pairs : AliasGroup ℚ := ⟨pair 0, [(pair 0, ⟨[(.space "x", 0)]⟩), (pair 1, ⟨[(.space "x", 1)]⟩)]⟩

def triples : AliasGroup ℚ :=
  ⟨product [num 3, pair 0], [(product [num 3, pair 0], ⟨[(.space "x", 0)]⟩),
    (product [num 3, pair 1], ⟨[(.space "x", 1)]⟩)]⟩

theorem lifted_echoes : lifted { minAlias := 1 } (echoes 1) = [pairs, triples] := by cbv

theorem mem_of_reads {is : List (Expr ℚ)} {w : Cluster ℚ}
    (hw : (w.assignments.map fun a => (a.increment, a.rhs.inputs)) = [(false, is)]) {i : Expr ℚ}
    (h : w.Reads i) : i ∈ is := by
  obtain ⟨a, ha, hreads⟩ := h
  have hmem := List.mem_map_of_mem (f := fun a => (a.increment, a.rhs.inputs)) ha
  rw [hw, List.mem_singleton, Prod.mk.injEq] at hmem
  rcases hreads with hi | ⟨hinc, -⟩
  · exact hmem.2 ▸ hi
  · exact absurd (hmem.1.symm.trans hinc) Bool.false_ne_true

theorem eq_of_reads_echoes {f f' : Field} {i : Expr ℚ} (h : (composite (echoes 1)
    (scalars { minAlias := 1 } (echoes 1)) [(pairs, f)] (triples, f')).Reads i) :
    i = access ⟨f, [.affine (.space "x") 0]⟩ := by
  have hinputs : ((composite (echoes 1) (scalars { minAlias := 1 } (echoes 1)) [(pairs, f)]
      (triples, f')).assignments.map fun a => (a.increment, a.rhs.inputs)) =
        [(false, [access ⟨f, [.affine (.space "x") 0]⟩])] := by cbv
  exact List.mem_singleton.1 (mem_of_reads hinputs h)

theorem reaches_echoes {f : Field} {shift : Shift} (h : (element f
    (storage (echoes 1).space pairs) shift : Expr ℚ) = access ⟨f, [.affine (.space "x") 0]⟩) :
    Reaches (echoes 1).space pairs (spread triples) shift := by
  have hstorage : (storage (echoes 1).space pairs).intervals = [⟨.space "x", 0, 1⟩] := by cbv
  have hspread : spread triples (.space "x") = (0, 1) := by cbv
  rw [element, hstorage] at h
  have hshift : shift (.space "x") = 0 := by simpa using h
  rw [Reaches, hstorage]
  simp [hspread, hshift]

theorem lift_covers_iff_echoes :
    (∀ a ∈ (echoes 1).assignments, Canonical a.rhs) ∧
      Unused { minAlias := 1 } (echoes 1) ⟨"r", 0⟩ ∧
        ∃ ws c', ((lift { minAlias := 1 } (echoes 1)).run ⟨"r", 0⟩).1 = ws ++ [c'] ∧ ws ≠ [] ∧
          ∀ w ∈ ws, ∀ v ∈ ((lift { minAlias := 1 } (echoes 1)).run ⟨"r", 0⟩).1, w.Covers v := by
  have hnew : Unused { minAlias := 1 } (echoes 1) ⟨"r", 0⟩ := by
    refine unused_of_isInput fun a ha z hz => ?_
    have hall : ((echoes 1).assignments.all fun a => a.accesses.all (·.field.isInput)) = true := by
      cbv
    exact List.all_eq_true.1 (List.all_eq_true.1 hall a ha) z hz
  obtain ⟨ws, c', hrun, -, hiff⟩ := lift_covers_iff (canonical_echoes 1) hnew
  refine ⟨canonical_echoes 1, hnew, ws, c', hrun, ?_, hiff.2 ?_⟩
  · rintro rfl
    rw [run_lift, lifted_echoes] at hrun
    simp [arrays, fills] at hrun
  · obtain ⟨f, f', harrays⟩ : ∃ f f', arrays (echoes 1).space ⟨"r", 0⟩ [pairs, triples] =
        [(pairs, f), (triples, f')] := ⟨_, _, rfl⟩
    rw [lifted_echoes, harrays]
    rintro (_ | ⟨y', _ | ⟨y'', ys⟩⟩) x zs hxs y hy m - hreads
    · exact absurd hy List.not_mem_nil
    · obtain ⟨rfl, hrest⟩ := List.cons.inj hxs
      obtain ⟨rfl, -⟩ := List.cons.inj hrest
      obtain rfl := List.mem_singleton.1 hy
      exact reaches_echoes (eq_of_reads_echoes hreads)
    · simp at hxs

theorem lift_echoes :
    let r (n : String) (l u : Nat) (o : Int) : Expr ℚ :=
      access ⟨.temporary n [(l, u)], [.affine (.space "x") o]⟩
    ((lift { minAlias := 1 } (echoes 2)).run ⟨"r", 0⟩).1.map (fun c =>
        (c.space.box.intervals, c.assignments.map fun a => (a.lhs, a.rhs.inputs))) =
      [([⟨.space "x", 0, 1⟩], [(r "r0" 0 1 0, [near "a" 0, near "b" 0])]),
        ([⟨.space "x", -1, 1⟩], [(r "r1" 1 1 1, [r "r0" 0 1 1])]),
        ([⟨.space "x", 0, 0⟩],
          [(near "u" 0, [r "r0" 0 1 0, r "r0" 0 1 1, r "r1" 1 1 0, r "r1" 1 1 2])])] := by
  cbv

/-- The triples at a distance of two are computed around the point between them, from sums up to two
points past the bounds. The array of the sums is filled up to one point past them. -/
theorem lift_reads_unwritten :
    (∀ a ∈ (echoes 2).assignments, Canonical a.rhs) ∧
      ∃ ws c', ((lift { minAlias := 1 } (echoes 2)).run ⟨"r", 0⟩).1 = ws ++ [c'] ∧
        ∃ w ∈ ws, ∃ v ∈ ws, ¬ w.Covers v := by
  refine ⟨canonical_echoes 2, ?_⟩
  have hlift := lift_echoes
  simp only [List.map_eq_cons_iff, List.map_eq_nil_iff, Prod.mk.injEq] at hlift
  obtain ⟨w, _, hout, ⟨hw, a, as, has, ⟨ha, -⟩, -⟩, v, _, rfl, ⟨hv, b, bs, hbs, ⟨-, hb⟩, -⟩,
    c', _, rfl, -, rfl⟩ := hlift
  refine ⟨[w, v], c', hout, w, by simp, v, by simp, fun hcovers => ?_⟩
  let z (o : Int) : Access := ⟨.temporary "r0" [(0, 1)], [.affine (.space "x") o]⟩
  have hreads : v.Reads (access (z 1)) :=
    ⟨b, by simp [hbs], .inl (by rw [hb]; exact List.mem_singleton_self _)⟩
  have hwrites : w.Writes (z 0) := ⟨a, by simp [has], ha⟩
  have hsub := (List.forall₂_cons.1 (hcovers _ _ hreads hwrites rfl (fun _ => some (0, 0))
    (by simp))).1
  obtain ⟨i, hi, -, p, hp, hlast⟩ := hsub ⟨⟨.space "x", -1, 1⟩, by simp [hv], rfl, 1, by decide, rfl⟩
  obtain rfl : i = ⟨.space "x", 0, 1⟩ := by simpa [hw] using hi
  rw [Nest.mem_range, Option.getD_some] at hp
  dsimp only at hp
  omega

end Echoes

end Lifting

end Stencil
