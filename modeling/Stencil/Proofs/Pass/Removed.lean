import Stencil.Proofs.Alias.Partition
import Stencil.Proofs.Expr.Insertion
import Stencil.Proofs.Pass.Lifted

namespace Stencil

open Stencil.Expr AliasGroups

theorem AliasGroups.shareable_iff {α : Type} [Arithmetic α] [LawfulArithmetic α]
    {as : List (Assignment α)} (hc : ∀ a ∈ as, Canonical a.rhs) {a : Assignment α} (ha : a ∈ as)
    {n : String} (hl : a.lhs = sym n) :
    Shareable as a ↔ ∃ g, (ofAssignments as).get? a.rhs = some g := by
  constructor
  · intro h
    obtain ⟨g, hg, hm⟩ := exists_of_eligible hc (mem_eligible_iff.2 h)
    exact ⟨g, (get?_eq_some hc).2 ⟨hg, hm⟩⟩
  · rintro ⟨g, hget⟩
    obtain ⟨hg, m, hm, heq⟩ := (get?_eq_some hc).1 hget
    obtain ⟨b, hb, hrhs⟩ := (isGroup_of_mem_values hc hg).eligible m hm
    have hb := mem_eligible_iff.1 hb
    have hinputs : a.rhs.inputs = b.rhs.inputs := by rw [hrhs, inputs_congr heq]
    exact ⟨ha, ⟨n, hl⟩, hinputs ▸ hb.array, hinputs ▸ hb.symbols⟩

namespace Lifting

variable {α : Type} [Arithmetic α] [LawfulArithmetic α] {config : Config} {c : Cluster α}
  {names : Names} {n : String}

def removed (config : Config) (c : Cluster α) : List (Assignment α) :=
  c.assignments.filter (candidate config c)

inductive Key (config : Config) (c : Cluster α) : Expr α → Prop
  | member {g m k} : g ∈ lifted config c → m ∈ g.members → (m.1 == k) = true → Key config c k
  | scalar {d} : d ∈ removed config c → Key config c d.lhs

omit [LawfulArithmetic α] in
theorem exists_lhs_of_mem_removed {d : Assignment α} (hd : d ∈ removed config c) :
    ∃ n, d.lhs = sym n := exists_lhs_of_candidate (List.mem_filter.1 hd).2

theorem key_of_get? {xs : List (AliasGroup α × Field)} (hxs : ∀ x ∈ xs, x.1 ∈ lifted config c)
    {k e : Expr α} (h : (table c.space (scalars config c) xs .empty).get? k = some e) :
    Key config c k ∧ ∃ x ∈ xs, ∃ y, e = access y ∧ y.field = x.2 := by
  obtain ⟨x, hx, m, hm, rfl, hk⟩ := exists_stands h
  refine ⟨?_, x, hx, _, rfl, rfl⟩
  rcases hk with hk | ⟨l, hl, hk⟩
  · exact .member (hxs x hx) hm hk
  · obtain ⟨d, hd, hcand, -, rfl⟩ := mem_handles.1 hl
    have hrem : d ∈ removed config c := List.mem_filter.2 ⟨hd, hcand⟩
    obtain ⟨n, hn⟩ := exists_lhs_of_mem_removed hrem
    rw [hn, sym_beq] at hk
    rw [hk, ← hn]
    exact .scalar hrem

section Key

variable (hc : ∀ a ∈ c.assignments, Canonical a.rhs)

include hc

theorem inserts_table {xs : List (AliasGroup α × Field)} (hxs : ∀ x ∈ xs, x.1 ∈ lifted config c) :
    Inserts (table c.space (scalars config c) xs .empty) := by
  intro k t hget
  obtain ⟨hkey, x, -, y, rfl, -⟩ := key_of_get? hxs hget
  refine ⟨?_, rfl⟩
  cases hkey with
  | member hg hm hk =>
    obtain ⟨a, ha, hrhs⟩ := (isGroup_of_mem_lifted hc hg).eligible _ hm
    obtain ⟨z, hz⟩ := (mem_eligible_iff.1 ha).array
    rw [hrhs, inputs_congr hk] at hz
    cases k with
    | num v => simp [inputs, subterms, fold, Expr.isInput, isSymbol, isAccess] at hz
    | _ => rfl
  | scalar hd =>
    obtain ⟨n, hn⟩ := exists_lhs_of_mem_removed hd
    rw [hn]
    rfl

theorem Key.eq_sym {d : Assignment α} (hd : d ∈ removed config c) (hl : d.lhs = sym n)
    {k : Expr α} (hk : Key config c k) (hi : sym n ∈ k.inputs) : k = sym n := by
  cases hk with
  | member hg hm hk =>
    rw [← inputs_congr hk] at hi
    exact absurd hl ((isGroup_of_mem_lifted hc hg).sym_not_mem hm hi d (List.mem_of_mem_filter hd))
  | scalar hd' =>
    obtain ⟨n', hn'⟩ := exists_lhs_of_mem_removed hd'
    rw [hn', inputs_of_isInput rfl, List.mem_singleton] at hi
    rw [hn', hi]

theorem reads_replace_iff {a d : Assignment α} (ha : Canonical a.lhs ∧ Canonical a.rhs)
    (hd : d ∈ removed config c) (hl : d.lhs = sym n) :
    (a.replace (readings config c names)).Reads (sym n) ↔
      a.Reads (sym n) ∧ (readings config c names).get? (sym n) = none := by
  have hxs : ∀ x ∈ arrays c.space names (lifted config c), x.1 ∈ lifted config c :=
    fun x => fst_mem_of_mem_arrays
  obtain ⟨build, hbuild, heq⟩ := a.exists_build (readings config c names)
  have hiff : ∀ {e : Expr α}, Canonical e →
      (sym n ∈ (replaceBy build (readings config c names) e).inputs ↔
        sym n ∈ e.inputs ∧ (readings config c names).get? (sym n) = none) := fun he => by
    refine mem_inputs_replaceBy_iff hbuild (inserts_table hc hxs) he (fun k t hget hi => ?_)
      fun k hget hi => ?_
    · obtain ⟨-, x, -, y, rfl, -⟩ := key_of_get? hxs hget
      simp [inputs_of_isInput, Expr.isInput, isAccess] at hi
    · obtain ⟨t, ht⟩ := Option.isSome_iff_exists.1 hget
      exact (key_of_get? hxs ht).1.eq_sym hc hd hl hi
  rw [heq, Assignment.Reads, Assignment.Reads]
  simp only [hiff ha.1, hiff ha.2]
  tauto

theorem not_reads_of_mem_fills {xs : List (AliasGroup α × Field)}
    (hxs : ∀ x ∈ xs, x.1 ∈ lifted config c) {d : Assignment α} (hd : d ∈ removed config c)
    (hl : d.lhs = sym n) : ∀ w ∈ fills c (scalars config c) xs .empty, ¬ w.Reads (sym n) := by
  intro w hw hreads
  obtain ⟨ys, x, zs, rfl, rfl⟩ := mem_fills.1 hw
  have hg := isGroup_of_mem_lifted hc (hxs x (by simp))
  rcases exists_of_reads_composite hreads with hi | ⟨y, -, m, -, heq⟩
  · exact hg.sym_not_mem_origin hc hi d (List.mem_of_mem_filter hd) hl
  · simp [element] at heq

theorem get?_readings_eq_none_iff : (readings config c names).get? (sym n) = none ↔
    ∀ d ∈ removed config c, d.lhs = sym n → ¬ Shareable c.assignments d := by
  constructor
  · intro hnone d hd hl hshare
    obtain ⟨hmem, hcand⟩ := List.mem_filter.1 hd
    obtain ⟨g, hget⟩ := (shareable_iff hc hmem hl).1 hshare
    obtain ⟨hg, m, hm, -, hhandle⟩ := mem_lifted_of_get? hc hmem hcand hget
    have hsome : ((readings config c names).get? (sym n)).isSome = true :=
      isSome_readings hg hm (.inr ⟨d.lhs, hhandle, hl ▸ BEq.rfl⟩)
    rw [hnone] at hsome
    exact Bool.false_ne_true hsome
  · intro hnot
    by_contra hne
    obtain ⟨e, he⟩ := Option.ne_none_iff_exists'.1 hne
    obtain ⟨x, hx, m, hm, -, hk⟩ := exists_stands he
    have hg := fst_mem_of_mem_arrays hx
    rcases hk with hk | ⟨h, hh, hk⟩
    · exact (isGroup_of_mem_lifted hc hg).ne_sym hm n (sym_beq.1 (BEq.symm hk))
    · obtain ⟨d, hd, hcand, heq, rfl⟩ := mem_handles.1 hh
      have hrem : d ∈ removed config c := List.mem_filter.2 ⟨hd, hcand⟩
      obtain ⟨n', hn'⟩ := exists_lhs_of_mem_removed hrem
      have hl : d.lhs = sym n := by
        rw [hn'] at hk ⊢
        exact (sym_beq.1 hk).symm
      refine hnot d hrem hl ((shareable_iff hc hd hl).2 ⟨x.1, (get?_eq_some hc).2 ?_⟩)
      exact ⟨(List.mem_filter.1 hg).1, m, hm, BEq.symm heq⟩

end Key

theorem shareable_of_mem_removed (hc : ∀ a ∈ c.assignments, Canonical a.rhs)
    (hI : 1 ≤ config.minInvariant) : ∀ d ∈ removed config c, Shareable c.assignments d := by
  intro d hd
  obtain ⟨hmem, hcand⟩ := List.mem_filter.1 hd
  obtain ⟨n, hl⟩ := exists_lhs_of_mem_removed hd
  exact (shareable_iff hc hmem hl).2 (exists_group_of_candidate hI hcand)

theorem reads_reader_iff (hc : ∀ a ∈ c.assignments, Canonical a.lhs ∧ Canonical a.rhs)
    {d : Assignment α} (hd : d ∈ removed config c) (hl : d.lhs = sym n) :
    (reader config c names).Reads (sym n) ↔
      (∀ d' ∈ removed config c, d'.lhs = sym n → ¬ Shareable c.assignments d') ∧
        ∃ a ∈ c.assignments, a ∉ removed config c ∧ a.Reads (sym n) := by
  have hcan : ∀ a ∈ c.assignments, Canonical a.rhs := fun a ha => (hc a ha).2
  have hiff : (readings config c names).get? (sym n) = none ↔ _ := get?_readings_eq_none_iff hcan
  rw [← hiff]
  constructor
  · rintro ⟨_, hb, hreads⟩
    obtain ⟨a, ha, rfl⟩ := List.mem_map.1 hb
    obtain ⟨ha, hkeep⟩ := List.mem_filter.1 ha
    obtain ⟨hreads, hnone⟩ := (reads_replace_iff hcan (hc a ha) hd hl).1 hreads
    refine ⟨hnone, a, ha, fun hrem => ?_, hreads⟩
    simp [(List.mem_filter.1 hrem).2] at hkeep
  · rintro ⟨hnone, a, ha, hkeep, hreads⟩
    have hstay : (!candidate config c a) = true := by
      rw [removed, List.mem_filter, not_and] at hkeep
      simpa using hkeep ha
    exact ⟨_, List.mem_map_of_mem (List.mem_filter.2 ⟨ha, hstay⟩),
      (reads_replace_iff hcan (hc a ha) hd hl).2 ⟨hreads, hnone⟩⟩

/-- The scalar of a definition that is removed is read afterwards if and only if it has been read
by what is kept and the definition may not be shared. -/
theorem lift_reads_removed_iff (hc : ∀ a ∈ c.assignments, Canonical a.lhs ∧ Canonical a.rhs)
    (config : Config) (names : Names) : ∃ ws σ,
      ((lift config c).run names).1 = ws ++ [c.withAssignments
        ((c.assignments.filter (!candidate config c ·)).map (·.replace σ))] ∧
      ∀ d ∈ removed config c, ∀ n, d.lhs = sym n →
        (1 ≤ config.minInvariant → Shareable c.assignments d) ∧
        (Shareable c.assignments d →
          ∃ y, σ.get? (sym n) = some (access y) ∧ ∃ w ∈ ws, ∃ z, w.Writes z ∧ z.field = y.field) ∧
        ((∃ c' ∈ ((lift config c).run names).1, c'.Reads (sym n)) ↔
          (∀ d' ∈ removed config c, d'.lhs = sym n → ¬ Shareable c.assignments d') ∧
            ∃ a ∈ c.assignments, a ∉ removed config c ∧ a.Reads (sym n)) := by
  have hcan : ∀ a ∈ c.assignments, Canonical a.rhs := fun a ha => (hc a ha).2
  have hxs : ∀ x ∈ arrays c.space names (lifted config c), x.1 ∈ lifted config c :=
    fun x => fst_mem_of_mem_arrays
  have hrun := run_lift config c names
  refine ⟨_, readings config c names, hrun, fun d hd n hl => ?_⟩
  refine ⟨fun hI => shareable_of_mem_removed hcan hI d hd, fun hshare => ?_, ?_⟩
  · have hne : (readings config c names).get? (sym n) ≠ none := fun hnone =>
      (get?_readings_eq_none_iff hcan).1 hnone d hd hl hshare
    obtain ⟨e, he⟩ := Option.ne_none_iff_exists'.1 hne
    obtain ⟨-, x, hx, y, rfl, hy⟩ := key_of_get? hxs he
    obtain ⟨ys, zs, hsplit⟩ := List.append_of_mem hx
    exact ⟨y, he, _, mem_fills.2 ⟨ys, x, zs, hsplit, rfl⟩, _, writes_composite.2 rfl, hy.symm⟩
  · refine Iff.trans (b := (reader config c names).Reads (sym n)) ?_ (reads_reader_iff hc hd hl)
    rw [hrun]
    simp only [List.mem_append, List.mem_singleton, or_and_right, exists_or, exists_eq_left]
    refine or_iff_right ?_
    rintro ⟨w, hw, hreads⟩
    exact not_reads_of_mem_fills hcan hxs hd hl w hw hreads

def here (f : String) : Expr ℚ := access ⟨.input f, [.affine (.space "x") 0]⟩

/-- The double of an array, the double of a parameter, and their sum. -/
def doubles : Cluster ℚ :=
  .ofAssignments [
    { lhs := sym "p", rhs := product [num 2, here "a"] },
    { lhs := sym "s", rhs := product [num 2, sym "k"] },
    { lhs := here "u", rhs := sum [sym "p", sym "s"] }] [.space "x"]

theorem canonical_doubles : ∀ a ∈ doubles.assignments, Canonical a.lhs ∧ Canonical a.rhs := by
  simp [doubles, here, Cluster.ofAssignments, canonical_product, canonical_sum, Canonical.num,
    Canonical.sym, Canonical.access]

theorem inputs_doubles : doubles.assignments.map (fun a => (a.lhs, a.rhs.inputs)) =
    [(sym "p", [here "a"]), (sym "s", [sym "k"]), (here "u", [sym "p", sym "s"])] := by
  cbv

theorem exists_removed_doubles {l : Expr ℚ} {is : List (Expr ℚ)}
    (h : (l, is) ∈ [(sym "p", [here "a"]), (sym "s", [sym "k"])]) :
    ∃ d ∈ removed { minInvariant := 0 } doubles, d.lhs = l ∧ d.rhs.inputs = is := by
  have hremoved : (removed { minInvariant := 0 } doubles).map (fun a => (a.lhs, a.rhs.inputs)) =
      [(sym "p", [here "a"]), (sym "s", [sym "k"])] := by cbv
  rw [← hremoved] at h
  obtain ⟨d, hd, heq⟩ := List.mem_map.1 h
  exact ⟨d, hd, Prod.mk.inj heq⟩

theorem lift_reads_removed_iff_doubles :
    let out := ((lift { minInvariant := 0 } doubles).run ⟨"r", 0⟩).1
    (∀ a ∈ doubles.assignments, Canonical a.lhs ∧ Canonical a.rhs) ∧
      (∃ d ∈ removed { minInvariant := 0 } doubles, d.lhs = sym "p") ∧
        (∃ w ∈ out, ∃ y, w.Writes y) ∧ ¬ ∃ c' ∈ out, c'.Reads (sym "p") := by
  refine ⟨canonical_doubles, ?_⟩
  obtain ⟨ws, σ, hrun, hall⟩ :=
    lift_reads_removed_iff canonical_doubles { minInvariant := 0 } ⟨"r", 0⟩
  obtain ⟨d, hd, hl, hinputs⟩ := exists_removed_doubles List.mem_cons_self
  have hshare : Shareable doubles.assignments d :=
    { mem := List.mem_of_mem_filter hd
      scalar := ⟨"p", hl⟩
      array := ⟨_, hinputs ▸ List.mem_singleton_self _⟩
      symbols := fun n hn => by simp [hinputs, here] at hn }
  obtain ⟨-, hfilled, hreads⟩ := hall d hd "p" hl
  obtain ⟨-, -, w, hw, z, hz, -⟩ := hfilled hshare
  refine ⟨⟨d, hd, hl⟩, ⟨w, hrun ▸ List.mem_append_left _ hw, z, hz⟩, fun h => ?_⟩
  exact (hreads.1 h).1 d hd hl hshare

/-- The double of the parameter is in no group, but it costs enough where nothing is asked for. -/
theorem lift_leaves_removed_read :
    (doubles.assignments.Pairwise fun a b => a.lhs.isSymbol = true → a.lhs ≠ b.lhs) ∧
      (∀ a ∈ doubles.assignments, a.lhs.isSymbol = true → a.increment = false) ∧
      (∃ d ∈ removed { minInvariant := 0 } doubles, d.lhs = sym "s") ∧
        ∃ c' ∈ ((lift { minInvariant := 0 } doubles).run ⟨"r", 0⟩).1, c'.Reads (sym "s") := by
  refine ⟨by simp [doubles, here, Cluster.ofAssignments],
    by simp [doubles, Cluster.ofAssignments], ?_⟩
  obtain ⟨d, hd, hl, -⟩ := exists_removed_doubles (List.mem_cons_of_mem _ List.mem_cons_self)
  refine ⟨⟨d, hd, hl⟩, reader { minInvariant := 0 } doubles ⟨"r", 0⟩, ?_, ?_⟩
  · rw [run_lift]
    exact List.mem_append_right _ (List.mem_singleton_self _)
  · refine (reads_reader_iff canonical_doubles hd hl).2 ⟨fun d' hd' hl' hshare => ?_, ?_⟩
    · obtain ⟨x, hx⟩ := hshare.array
      have hmem := List.mem_map_of_mem (f := fun a => (a.lhs, a.rhs.inputs)) hshare.mem
      rw [inputs_doubles, hl'] at hmem
      simp [here] at hmem
      simp [hmem] at hx
    · have hmem : (here "u", [sym "p", sym "s"]) ∈
          doubles.assignments.map (fun a => (a.lhs, a.rhs.inputs)) := by
        rw [inputs_doubles]
        simp
      obtain ⟨b, hb, heq⟩ := List.mem_map.1 hmem
      obtain ⟨hbl, hbi⟩ := Prod.mk.inj heq
      refine ⟨b, hb, fun hrem => ?_, .inl (by simp [hbi])⟩
      obtain ⟨n, hn⟩ := exists_lhs_of_mem_removed hrem
      simp [hbl, here] at hn

end Lifting

end Stencil
