import Stencil.Proofs.Assignment.Naming
import Stencil.Proofs.Pass.Lifted
import Stencil.Proofs.Pass.Run

namespace Stencil

open Stencil.Expr

variable {α : Type}

namespace Expr

def name? : Expr α → Option String
  | sym s => some s
  | access x => some x.field.name
  | _ => none

def Named (T : Set String) (e : Expr α) : Prop := ∃ s ∈ T, e.name? = some s

theorem Named.mono {T T' : Set String} {e : Expr α} (h : Named T e) (hT : T ⊆ T') : Named T' e := by
  obtain ⟨s, hs, hname⟩ := h
  exact ⟨s, hT hs, hname⟩

theorem Named.inputs {T : Set String} {e : Expr α} (h : Named T e) : e.inputs = [e] := by
  obtain ⟨s, -, hname⟩ := h
  cases e <;> first | exact inputs_of_isInput rfl | simp [name?] at hname

end Expr

def Cluster.names (c : Cluster α) : List String :=
  (c.assignments.flatMap fun a => (a.lhs.inputs ++ a.rhs.inputs).filterMap Expr.name? ++
    a.dimensions.map (·.name)) ++ c.space.box.dimensions.map (·.name)

def Cluster.Stores (K : Set String) (c : Cluster α) : Prop :=
  ∀ a ∈ c.assignments, ∀ i ∈ a.lhs.inputs, ∀ s, i.name? = some s → s ∈ K

theorem Cluster.Stores.mono {K K' : Set String} {c : Cluster α} (h : c.Stores K) (hK : K ⊆ K') :
    c.Stores K' := fun a ha i hi s hs => hK (h a ha i hi s hs)

theorem stores_names (c : Cluster α) : c.Stores {s | s ∈ c.names} := by
  intro a ha i hi s hs
  apply List.mem_append_left
  refine List.mem_flatMap.2 ⟨a, ha, List.mem_append_left _ ?_⟩
  exact List.mem_filterMap.2 ⟨i, List.mem_append_left _ hi, hs⟩

/-- The way from some clusters to others by which the temporaries `ds` come in. They have the next
names of the supply, and no other names than these become targets. -/
structure Extends (g g' : Names) (cs cs' : List (Cluster α)) (ds : List (Assignment α)) :
    Prop where
  names : g' = g.skip ds.length
  named : ds.map (·.lhs.name?) = (List.range ds.length).map fun n => some (g.name n)
  stores : ∀ K, (∀ c ∈ cs, c.Stores K) → ∀ c ∈ cs', c.Stores (K ∪ g.first ds.length)

structure Introduces (g g' : Names) (cs cs' : List (Cluster α)) (ds : List (Assignment α)) :
    Prop extends Extends g g' cs cs' ds where
  assigned : ∀ d ∈ ds, ∃ c ∈ cs', d ∈ c.assignments

variable {g g₁ g' : Names} {cs cs₁ cs₂ cs' cs₁' cs₂' : List (Cluster α)}
  {ds ds₁ ds₂ : List (Assignment α)}

theorem named_append (h₁ : ds₁.map (·.lhs.name?) =
      (List.range ds₁.length).map fun n => some (g.name n))
    (h₂ : ds₂.map (·.lhs.name?) =
      (List.range ds₂.length).map fun n => some ((g.skip ds₁.length).name n)) :
    (ds₁ ++ ds₂).map (·.lhs.name?) =
      (List.range (ds₁ ++ ds₂).length).map fun n => some (g.name n) := by
  rw [List.map_append, List.length_append, g.map_range_add some, h₁, h₂]

theorem Extends.refl (g : Names) (cs : List (Cluster α)) : Extends g g cs cs [] where
  names := rfl
  named := rfl
  stores _ h c hc := (h c hc).mono Set.subset_union_left

theorem Extends.trans (h₁ : Extends g g₁ cs cs₁ ds₁) (h₂ : Extends g₁ g' cs₁ cs' ds₂) :
    Extends g g' cs cs' (ds₁ ++ ds₂) := by
  obtain rfl := h₁.names
  constructor
  · rw [h₂.names, List.length_append, Names.skip, Names.skip, Names.skip, Nat.add_assoc]
  · exact named_append h₁.named h₂.named
  · intro K hK c hc
    apply (h₂.stores _ (h₁.stores K hK) c hc).mono
    rw [List.length_append, Set.union_assoc]
    apply Set.union_subset_union_right
    apply Set.union_subset
    · exact g.first_mono (Nat.le_add_right _ _)
    · exact g.first_skip _ _

theorem Introduces.append (h₁ : Introduces g g₁ cs₁ cs₁' ds₁)
    (h₂ : Introduces g₁ g' cs₂ cs₂' ds₂) :
    Introduces g g' (cs₁ ++ cs₂) (cs₁' ++ cs₂') (ds₁ ++ ds₂) := by
  obtain rfl := h₁.names
  constructor
  · constructor
    · rw [h₂.names, List.length_append, Names.skip, Names.skip, Names.skip, Nat.add_assoc]
    · exact named_append h₁.named h₂.named
    · intro K hK c hc
      rw [List.length_append]
      rcases List.mem_append.1 hc with hc | hc
      · have hc₁ := h₁.stores K (fun c hc => hK c (List.mem_append_left _ hc)) c hc
        exact hc₁.mono (Set.union_subset_union_right K (g.first_mono (Nat.le_add_right _ _)))
      · have hc₂ := h₂.stores K (fun c hc => hK c (List.mem_append_right _ hc)) c hc
        exact hc₂.mono (Set.union_subset_union_right K (g.first_skip _ _))
  · intro d hd
    rcases List.mem_append.1 hd with hd | hd
    · obtain ⟨c, hc, hdc⟩ := h₁.assigned d hd
      exact ⟨c, List.mem_append_left _ hc, hdc⟩
    · obtain ⟨c, hc, hdc⟩ := h₂.assigned d hd
      exact ⟨c, List.mem_append_right _ hc, hdc⟩

theorem introduces_mapM {step : Cluster α → StateM Names (List (Cluster α))}
    (hstep : ∀ c g, ∃ ds, Introduces g ((step c).run g).2 [c] ((step c).run g).1 ds)
    (cs : List (Cluster α)) (g : Names) :
    ∃ ds, Introduces g ((cs.mapM step).run g).2 cs ((cs.mapM step).run g).1.flatten ds := by
  induction cs generalizing g with
  | nil => exact ⟨[], .refl g [], by simp⟩
  | cons c cs ih =>
    obtain ⟨ds₁, h₁⟩ := hstep c g
    obtain ⟨ds₂, h₂⟩ := ih ((step c).run g).2
    rw [List.mapM_cons]
    exact ⟨ds₁ ++ ds₂, h₁.append h₂⟩

section Scalar

theorem Adds.introduces {c : Cluster α} {as' : List (Assignment α)}
    (h : Adds g c.assignments as' ds) :
    Introduces g (g.skip ds.length) [c] [c.withAssignments as'] ds where
  names := rfl
  named := by
    have hnames := congrArg (List.map Expr.name?) h.named
    rw [List.map_map, List.map_map] at hnames
    exact hnames
  stores K hK := by
    refine List.forall_mem_singleton.2 fun a ha i hi s hs => ?_
    rcases h.rest a ha with ha | ⟨b, hb, hl⟩
    · right
      have hl : a.lhs ∈ (List.range ds.length).map fun n => (sym (g.name n) : Expr α) :=
        h.named ▸ List.mem_map_of_mem ha
      obtain ⟨n, hn, hl⟩ := List.mem_map.1 hl
      rw [← hl, inputs_of_isInput rfl, List.mem_singleton] at hi
      rw [hi] at hs
      exact ⟨n, List.mem_range.1 hn, (Option.some.inj hs).symm⟩
    · left
      exact hK c List.mem_cons_self b hb i (hl ▸ hi) s hs
  assigned d hd := ⟨_, List.mem_singleton_self _, h.subset hd⟩

end Scalar

variable [Arithmetic α]

namespace Lifting

omit [Arithmetic α] in
theorem inputs_element (f : Field) (b : Box) (shift : Shift) :
    (element f b shift : Expr α).inputs = [element f b shift] := inputs_of_isInput rfl

structure Numbered (g : Names) (n : Nat) (l : Lifted α) : Prop where
  named : (l.clusters.flatMap (·.assignments)).map (·.lhs.name?) =
    (List.range n).map fun m => some (g.name m)
  table : ∀ e ∈ l.table.values, Named (g.first n) e
  stores : ∀ c ∈ l.clusters, c.Stores (g.first n)
  thawed : ∀ c ∈ l.clusters, ∀ a ∈ c.assignments, a.frozen = false

def kept (config : Config) (c : Cluster α) : List (Assignment α) :=
  c.assignments.filter (!isCandidate config (AliasGroups.ofAssignments c.assignments)
    (TimeContext.ofAssignments c.assignments) ·)

theorem mem_inputs_replace {a : Assignment α} {t : Substitution α} {i : Expr α} :
    (i ∈ (a.replace t).lhs.inputs → i ∈ a.lhs.inputs ∨ ∃ e ∈ t.values, i ∈ e.inputs) ∧
      (i ∈ (a.replace t).rhs.inputs → i ∈ a.rhs.inputs ∨ ∃ e ∈ t.values, i ∈ e.inputs) := by
  unfold Assignment.replace
  split
  · exact ⟨.inl, .inl⟩
  · split
    · exact ⟨mem_inputs_replaceBy mem_inputs_rebuildRaw, mem_inputs_replaceBy mem_inputs_rebuildRaw⟩
    · exact ⟨mem_inputs_replaceBy mem_inputs_rebuild, mem_inputs_replaceBy mem_inputs_rebuild⟩

theorem numbered_fills (config : Config) (c : Cluster α) (g : Names) :
    Numbered g (lifted config c).length ⟨readings config c g,
      fills c (scalars config c) (arrays c.space g (lifted config c)) .empty⟩ := by
  constructor
  · have hlhs := congrArg (List.map Expr.name?)
      (map_lhs_fills c (scalars config c) (arrays c.space g (lifted config c)) .empty)
    have hnames := congrArg (List.map some) (names_arrays c.space g (lifted config c))
    rw [List.map_map, List.map_map] at hlhs hnames
    exact hlhs.trans hnames
  · intro e he
    obtain ⟨x, hx, shift, rfl⟩ := exists_element he
    exact ⟨_, name_mem_first hx, rfl⟩
  · intro w hw
    obtain ⟨ys, x, zs, hxs, rfl⟩ := mem_fills.1 hw
    refine List.forall_mem_singleton.2 fun i hi s hs => ?_
    rw [inputs_element, List.mem_singleton] at hi
    rw [hi] at hs
    obtain rfl := Option.some.inj hs
    exact name_mem_first (hxs ▸ List.mem_append_right ys List.mem_cons_self)
  · intro w hw
    obtain ⟨ys, x, zs, -, rfl⟩ := mem_fills.1 hw
    exact List.forall_mem_singleton.2 rfl

theorem run_lift_numbered (config : Config) (c : Cluster α) (g : Names) :
    ∃ k l, Numbered g k l ∧ (lift config c).run g =
      (l.clusters ++ [c.withAssignments ((kept config c).map (·.replace l.table))],
        g.skip k) :=
  ⟨_, _, numbered_fills config c g, Prod.ext (run_lift config c g) (names_run_lift config c g)⟩

theorem introduces_lift (config : Config) (c : Cluster α) (g : Names) :
    ∃ ds, Introduces g ((lift config c).run g).2 [c] ((lift config c).run g).1 ds := by
  obtain ⟨k, l, hnumbered, hrun⟩ := run_lift_numbered config c g
  have hlen : (l.clusters.flatMap (·.assignments)).length = k := by
    simpa using congrArg List.length hnumbered.named
  rw [hrun]
  refine ⟨l.clusters.flatMap (·.assignments), ⟨?_, ?_, ?_⟩, ?_⟩
  · rw [hlen]
  · rw [hlen, hnumbered.named]
  · intro K hK c' hc'
    rw [hlen]
    rcases List.mem_append.1 hc' with hc' | hc'
    · exact (hnumbered.stores c' hc').mono Set.subset_union_right
    · obtain rfl := List.mem_singleton.1 hc'
      intro a ha i hi s hs
      obtain ⟨b, hb, rfl⟩ := List.mem_map.1 ha
      rcases mem_inputs_replace.1 hi with hi | ⟨e, he, hi⟩
      · exact .inl (hK c List.mem_cons_self b (List.mem_of_mem_filter hb) i hi s hs)
      · have hnamed := hnumbered.table e he
        rw [hnamed.inputs, List.mem_singleton] at hi
        obtain ⟨s', hs', hname⟩ := hnamed
        rw [hi, hname] at hs
        obtain rfl := Option.some.inj hs
        exact .inr hs'
  · intro d hd
    obtain ⟨c', hc', hdc⟩ := List.mem_flatMap.1 hd
    exact ⟨c', List.mem_append_left _ hc', hdc⟩

end Lifting

theorem Pass.run_adds {p : Pass} (hp : p ≠ .aliases) (config : Config) (c : Cluster α) (g : Names) :
    ∃ as ds, (p.run config c).run g = ([c.withAssignments as], g.skip ds.length) ∧
      Adds g c.assignments as ds := by
  cases p with
  | sumsOfProducts => exact ⟨_, _, rfl, Extraction.adds_apply _ g c.assignments⟩
  | invariants => exact ⟨_, _, rfl, Extraction.adds_apply _ g c.assignments⟩
  | subexpressions => exact ⟨_, _, rfl, Sharing.adds_eliminate g c.assignments⟩
  | aliases => exact absurd rfl hp
  | trigonometry =>
    exact ⟨_, [], rfl, adds_map (fun a => a.withRhs a.rhs.approximateTrigonometry) fun _ => rfl⟩
  | factorize =>
    refine ⟨_, [], rfl, adds_map _ fun a => ?_⟩
    dsimp only
    split <;> rfl
  | increments =>
    obtain ⟨ds, hlen, h⟩ := ScalarPass.adds_splitIncrements g c.assignments
    have hrun := ScalarPass.extractIncrements_run c g
    rw [ScalarPass.splitIncrements_names, ← hlen] at hrun
    exact ⟨_, ds, congrArg (fun r : Cluster α × Names => ([r.1], r.2)) hrun, h⟩

theorem Pass.run_introduces (p : Pass) (config : Config) (c : Cluster α) (g : Names) :
    ∃ ds, Introduces g ((p.run config c).run g).2 [c] ((p.run config c).run g).1 ds := by
  by_cases hp : p = .aliases
  · subst hp
    exact Lifting.introduces_lift config c g
  · obtain ⟨as, ds, hrun, h⟩ := p.run_adds hp config c g
    rw [hrun]
    exact ⟨ds, h.introduces⟩

namespace Pipeline

theorem apply_introduces (config : Config) (name : String)
    (step : Cluster α → StateM Names (List (Cluster α)))
    (hstep : ∀ c g, ∃ ds, Introduces g ((step c).run g).2 [c] ((step c).run g).1 ds)
    (s : Pipeline α) :
    ∃ ds, Introduces s.names (apply config name step s).names s.clusters
      (apply config name step s).clusters ds := by
  obtain ⟨ds, h⟩ := introduces_mapM hstep s.clusters s.names
  generalize hrun : (s.clusters.mapM step).run s.names = r at h
  obtain ⟨produced, g⟩ := r
  obtain ⟨hclusters, hnames⟩ := apply_run config name hrun
  rw [hclusters, hnames]
  split
  · rename_i hempty
    -- With no cluster left there is none that a temporary could be assigned in.
    have hds : ds = [] := by
      refine List.eq_nil_iff_forall_not_mem.2 fun d hd => ?_
      obtain ⟨c, hc, -⟩ := h.assigned d hd
      rw [List.isEmpty_iff.1 hempty] at hc
      exact List.not_mem_nil hc
    subst hds
    obtain rfl : g = s.names := h.names
    exact ⟨[], .refl _ _, fun d hd => absurd hd List.not_mem_nil⟩
  · exact ⟨ds, h⟩

inductive Grows (config : Config) : List Pass → Pipeline α → List (Assignment α) → Prop
  | nil (s : Pipeline α) : Grows config [] s []
  | cons {p : Pass} {ps : List Pass} {s : Pipeline α} {ds ds' : List (Assignment α)} :
      Introduces s.names (pass config p s).names s.clusters (pass config p s).clusters ds →
      Grows config ps (pass config p s) ds' → Grows config (p :: ps) s (ds ++ ds')

theorem exists_grows (config : Config) (ps : List Pass) (s : Pipeline α) :
    ∃ ds, Grows config ps s ds := by
  induction ps generalizing s with
  | nil => exact ⟨[], .nil s⟩
  | cons p ps ih =>
    obtain ⟨ds, hds⟩ := apply_introduces config p.name (fun c => p.run config c)
      (p.run_introduces config) s
    obtain ⟨ds', hds'⟩ := ih (pass config p s)
    exact ⟨ds ++ ds', .cons hds hds'⟩

theorem Grows.extends {config : Config} {ps : List Pass} {s : Pipeline α}
    {ds : List (Assignment α)} (h : Grows config ps s ds) :
    Extends s.names (ps.foldl (fun s p => pass config p s) s).names s.clusters
      (ps.foldl (fun s p => pass config p s) s).clusters ds := by
  induction h with
  | nil s => exact .refl _ _
  | cons hds _ ih => exact hds.toExtends.trans ih

theorem extends_finalize (config : Config) (s : Pipeline α) :
    Extends s.names (finalize config s).names s.clusters (finalize config s).clusters [] := by
  obtain ⟨ds, h⟩ := apply_introduces config "finalize"
    (fun c => return [ScalarPass.finalize c])
    (fun c g => ⟨[], (adds_map (fun a => (a.withRhs a.rhs.expandPowers).freeze)
      fun _ => rfl).introduces⟩) s
  have hrun : (s.clusters.mapM fun c => (return [ScalarPass.finalize c] : StateM Names _)).run
      s.names = (s.clusters.map fun c => [ScalarPass.finalize c], s.names) := by
    rw [List.mapM_pure]
    rfl
  have hnames : (finalize config s).names = s.names := (apply_run config "finalize" hrun).2
  have hlen : ds.length = 0 := by
    have hnext := congrArg Names.next (hnames.symm.trans h.names)
    simpa [Names.skip] using hnext
  obtain rfl := List.eq_nil_of_length_eq_zero hlen
  exact h.toExtends

/-- The temporaries of a run have the stem with the numbers below `n` as names, each name once,
and they alone are assigned besides what was assigned before. That these names do not occur in
the cluster is not looked at. -/
theorem runPasses_introduces (config : Config) (ps : List Pass) (c : Cluster α) :
    ∃ (ds : List (Assignment α)) (n : Nat),
      Grows config ps
        (start config (c.withAssignments (c.assignments.map Assignment.compact))) ds ∧
      n = (runPasses config ps c).names.next ∧
      ds.map (·.lhs.name?) = (List.range n).map (fun m => some (config.stem ++ toString m)) ∧
      (ds.map (·.lhs.name?)).Nodup ∧
      (∀ c' ∈ (runPasses config ps c).clusters, ∀ a ∈ c'.assignments, ∀ s, a.lhs.name? = some s →
        s ∈ c.names ∨ some s ∈ ds.map (·.lhs.name?)) ∧
      ((∀ d ∈ ds, ∀ s, d.lhs.name? = some s → s ∉ c.names) ↔
        ∀ m < n, config.stem ++ toString m ∉ c.names) := by
  let compact := c.withAssignments (c.assignments.map Assignment.compact)
  obtain ⟨ds, hgrows⟩ := exists_grows config ps (start config compact)
  -- Finalizing the clusters takes no name.
  have hrun := hgrows.extends.trans (extends_finalize config _)
  rw [List.append_nil] at hrun
  have hnext : ds.length = (runPasses config ps c).names.next := by
    have hnext := congrArg Names.next hrun.names
    exact ((Nat.zero_add _).symm.trans hnext.symm)
  have hname : ∀ m, (start config compact).names.name m = config.stem ++ toString m := by
    intro m
    rw [Names.name]
    exact congrArg (fun n => config.stem ++ toString n) (Nat.zero_add m)
  have hnamed : ds.map (·.lhs.name?) =
      (List.range ds.length).map fun m => some (config.stem ++ toString m) := by
    simpa only [hname] using hrun.named
  refine ⟨ds, ds.length, hgrows, hnext, hnamed, ?_, ?_, ?_⟩
  · rw [hrun.named]
    refine List.nodup_range.map fun m n h => ?_
    exact Names.name_injective _ (Option.some.inj h)
  · have hstart : ∀ c' ∈ (start config compact).clusters, c'.Stores {s | s ∈ c.names} := by
      refine List.forall_mem_singleton.2 fun a ha => ?_
      obtain ⟨b, hb, rfl⟩ := List.mem_map.1 ha
      rw [b.lhs_compact]
      exact stores_names c b hb
    intro c' hc' a ha s hs
    have hself : a.lhs ∈ a.lhs.inputs := by
      cases hl : a.lhs <;> simp_all [Expr.name?, inputs_of_isInput, isInput, isSymbol, isAccess]
    rcases hrun.stores _ hstart c' hc' a ha a.lhs hself s hs with hs | ⟨m, hm, rfl⟩
    · exact .inl hs
    · rw [hrun.named]
      exact .inr (List.mem_map.2 ⟨m, List.mem_range.2 hm, rfl⟩)
  · constructor
    · intro h m hm hmem
      have hd : some (config.stem ++ toString m) ∈ ds.map (·.lhs.name?) :=
        hnamed ▸ List.mem_map.2 ⟨m, List.mem_range.2 hm, rfl⟩
      obtain ⟨d, hd, hs⟩ := List.mem_map.1 hd
      exact h d hd _ hs hmem
    · intro h d hd s hs
      have hs' : some s ∈ (List.range ds.length).map fun m => some (config.stem ++ toString m) :=
        hnamed ▸ List.mem_map.2 ⟨d, hd, hs⟩
      obtain ⟨m, hm, hs'⟩ := List.mem_map.1 hs'
      obtain rfl := Option.some.inj hs'
      exact h m (List.mem_range.1 hm)

/-- `u[x] += a*b` and `v[x] = r0`, where `r0` is a parameter. -/
def borrowed : Cluster ℚ :=
  let x : Dimension := .space "x"
  let point (f : String) : Expr ℚ := .access ⟨.input f, [.affine x 0]⟩
  .ofAssignments [
    { lhs := point "u", rhs := product [sym "a", sym "b"], increment := true },
    { lhs := point "v", rhs := sym "r0" }] [x]

def borrowedGrid : Grid ℚ :=
  let x : Dimension := .space "x"
  let g := ((({} : Grid ℚ).withParam "r0" 7).withParam "a" 2).withParam "b" 3
  (g.withBounds x 0 0).fill "u" [x] 0 fun _ => 1

/-- The temporary for the increment has the name of the parameter and hides it. -/
theorem increments_capture_parameter :
    let out : Pipeline ℚ := runPasses { profile := false } [.increments] borrowed
    "r0" ∈ borrowed.names ∧
      out.clusters.flatMap (fun c => c.assignments.filterMap (·.lhs.name?)) = ["r0", "u", "v"] ∧
      (Exec.final? [borrowed] borrowedGrid).bind (·.get? "v" [0]) = some 7 ∧
      (Exec.final? out.clusters borrowedGrid).bind (·.get? "v" [0]) = some 6 := by
  have hnames : borrowed.names = ["u", "a", "b", "x", "v", "r0", "x", "x"] := by cbv
  exact ⟨by simp [hnames], by cbv, by cbv, by cbv⟩

end Pipeline

end Stencil
