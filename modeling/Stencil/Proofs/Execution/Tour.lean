import Mathlib.Data.List.SplitBy
import Stencil.Proofs.Execution.Walk
import Stencil.Proofs.Grid
import Stencil.Proofs.Table

namespace Stencil.Nest

variable {α : Type} {m : Type → Type} [Monad m] [LawfulMonad m] [MonadExcept EvalError m]
  {bounds : Dimension → Option (Int × Int)} {ds : List Dimension} {n depth : Nat}
  {c : Cluster α} {cs : List (Cluster α)} {ws : List Int}

def stand (ds : List Dimension) (ws : List Int) : Position := ⟨(ds.map Dimension.name).zip ws⟩

def range (bounds : Dimension → Option (Int × Int)) (i : Interval) : List Int :=
  let b := (bounds i.dim).getD (0, 0)
  Grid.range (b.1 + i.lower) (b.2 + i.upper)

omit [Monad m] [LawfulMonad m] [MonadExcept EvalError m] in
theorem mem_range {i : Interval} {w : Int} : w ∈ range bounds i ↔
    ((bounds i.dim).getD (0, 0)).1 + i.lower ≤ w ∧ w ≤ ((bounds i.dim).getD (0, 0)).2 + i.upper :=
  Grid.mem_range

/-- The clusters that are visited, with the values of all loops, when `n` loops are left. -/
def tour (bounds : Dimension → Option (Int × Int)) :
    Nat → Nat → List (Cluster α) → List Int → List (Cluster α × List Int)
  | 0, _, cs, ws => cs.map fun c => (c, ws)
  | n + 1, depth, cs, ws => (groups depth cs).flatMap fun group =>
    match group with
    | [] => []
    | c :: _ =>
      match level? depth c with
      | none => []
      | some i => (values c i ((bounds i.dim).getD (0, 0))).flatMap fun v =>
        tour bounds n (depth + 1) group (ws ++ [v])

section Stand

variable {d : Dimension} {ds' : List Dimension}

theorem stand_append (hlen : ds.length = ws.length) (ds' : List Dimension) (us : List Int) :
    stand (ds ++ ds') (ws ++ us) =
      ⟨(ds.map Dimension.name).zip ws ++ (ds'.map Dimension.name).zip us⟩ := by
  rw [stand, List.map_append, List.zip_append (by simpa using hlen)]

theorem stand_prefix (hlen : ds.length = ws.length) (ds' : List Dimension) :
    stand (ds ++ ds') ws = ⟨(ds.map Dimension.name).zip ws⟩ := by
  have h := stand_append hlen ds' []
  rwa [List.append_nil, List.zip_nil_right, List.append_nil] at h

theorem not_mem_zip (hn : ((ds ++ d :: ds').map Dimension.name).Nodup) (ws : List Int) :
    d.name ∉ ((ds.map Dimension.name).zip ws).map (·.1) := by
  intro hmem
  obtain ⟨q, hq, heq⟩ := List.mem_map.1 hmem
  rw [List.map_append, List.nodup_append] at hn
  exact hn.2.2 _ (List.of_mem_zip (a := q.1) (b := q.2) hq).1 d.name (by simp) heq

theorem insert_stand (hn : ((ds ++ d :: ds').map Dimension.name).Nodup)
    (hlen : ds.length = ws.length) (o : Option Int) (v : Int) :
    (stand (ds ++ d :: ds') (ws ++ o.toList)).insert d.name v =
      stand (ds ++ d :: ds') (ws ++ [v]) := by
  rw [stand_append hlen, stand_append hlen, Table.insert, Table.put_append v (not_mem_zip hn ws)]
  cases o <;> simp [Table.put]

theorem erase_stand (hn : ((ds ++ d :: ds').map Dimension.name).Nodup)
    (hlen : ds.length = ws.length) (o : Option Int) :
    (stand (ds ++ d :: ds') (ws ++ o.toList)).erase d.name = stand (ds ++ d :: ds') ws := by
  rw [stand_append hlen, stand_prefix hlen, Table.erase, Table.drop_append (not_mem_zip hn ws)]
  cases o <;> simp [Table.drop]

end Stand

omit [MonadExcept EvalError m] in
theorem foldlM_visits {X V : Type} {xs : List X} {f : Position → X → m Position} {pos : Position}
    {part : X → List V} {visit : V → m Unit}
    (hf : ∀ x ∈ xs, f pos x = forM (part x) visit >>= fun _ => pure pos) :
    xs.foldlM f pos = forM (xs.flatMap part) visit >>= fun _ => pure pos := by
  induction xs with
  | nil => simp
  | cons x xs ih =>
    obtain ⟨hx, hxs⟩ := List.forall_mem_cons.1 hf
    rw [List.foldlM_cons, hx, List.flatMap_cons, List.forM_append, bind_assoc, bind_assoc]
    simp only [pure_bind, ih hxs]

theorem mem_groups {group : List (Cluster α)} (hg : group ∈ groups depth cs) :
    ∀ c ∈ group, c ∈ cs := by
  intro c hc
  rw [← List.flatten_splitBy (fun c c' => level? depth c == level? depth c') cs]
  exact List.mem_flatten.2 ⟨group, hg, hc⟩

theorem level?_eq_none (hc : c.space.box.dimensions = ds) : level? ds.length c = none := by
  rw [level?, List.getElem?_eq_none_iff, ← hc, Box.dimensions, List.length_map]

theorem level?_eq_some (hc : c.space.box.dimensions = ds) (h : depth < ds.length) :
    ∃ i ds₁ ds₂, level? depth c = some i ∧ ds = ds₁ ++ i.dim :: ds₂ ∧ ds₁.length = depth := by
  subst hc
  have hlt : depth < c.space.box.intervals.length := by
    simpa only [Box.dimensions, List.length_map] using h
  refine ⟨c.space.box.intervals[depth], c.space.box.dimensions.take depth,
    c.space.box.dimensions.drop (depth + 1), List.getElem?_eq_getElem hlt, ?_, ?_⟩
  · have hdim : c.space.box.intervals[depth].dim = c.space.box.dimensions[depth] :=
      (List.getElem_map Interval.dim).symm
    rw [hdim, List.getElem_cons_drop, List.take_append_drop]
  · exact List.length_take_of_le h.le

omit [MonadExcept EvalError m] in
theorem foldlM_values {V : Type} {d : Dimension} {ds₁ ds₂ : List Dimension}
    {inner : Position → m Position} {part : Int → List V} {visit : V → m Unit}
    (hn : ((ds₁ ++ d :: ds₂).map Dimension.name).Nodup) (hlen : ds₁.length = ws.length)
    (hinner : ∀ v, inner (stand (ds₁ ++ d :: ds₂) (ws ++ [v])) =
      forM (part v) visit >>= fun _ => pure (stand (ds₁ ++ d :: ds₂) (ws ++ [v])))
    (vs : List Int) (o : Option Int) :
    (vs.foldlM (fun pos v => inner (pos.insert d.name v))
        (stand (ds₁ ++ d :: ds₂) (ws ++ o.toList)) >>= fun pos => pure (pos.erase d.name)) =
      forM (vs.flatMap part) visit >>= fun _ => pure (stand (ds₁ ++ d :: ds₂) ws) := by
  induction vs generalizing o with
  | nil => simp [erase_stand hn hlen]
  | cons v vs ih =>
    rw [List.foldlM_cons, insert_stand hn hlen, hinner, List.flatMap_cons, List.forM_append]
    simp only [bind_assoc, pure_bind]
    exact congrArg _ (funext fun _ => ih (some v))

theorem walkFrom_eq_tour (hnames : (ds.map Dimension.name).Nodup)
    (hbounds : ∀ d ∈ ds, (bounds d).isSome = true) (hcs : ∀ c ∈ cs, c.space.box.dimensions = ds)
    (hlen : ws.length = depth) (hdepth : depth + n = ds.length)
    (visit : Cluster α → Position → m Unit) :
    walkFrom bounds visit (n + 1) depth cs (stand ds ws) =
      forM (tour bounds n depth cs ws) (fun q => visit q.1 (stand ds q.2)) >>= fun _ =>
        pure (stand ds ws) := by
  induction n generalizing depth cs ws with
  | zero =>
    have htour : tour bounds 0 depth cs ws =
        (groups depth cs).flatMap fun group => group.map fun c => (c, ws) := by
      rw [tour, List.flatMap_def, ← List.map_flatten, groups, List.flatten_splitBy]
    rw [walkFrom, htour]
    refine foldlM_visits fun group hgroup => ?_
    cases group with
    | nil => simp
    | cons c group =>
      have hc := hcs c (mem_groups hgroup c List.mem_cons_self)
      have hlevel : level? depth c = none := by
        rw [show depth = ds.length from hdepth]
        exact level?_eq_none hc
      simp only [hlevel, List.forM_eq_forM, List.forM_map]
  | succ n ih =>
    rw [walkFrom, tour]
    refine foldlM_visits fun group hgroup => ?_
    cases group with
    | nil => simp
    | cons c group =>
      have hc := hcs c (mem_groups hgroup c List.mem_cons_self)
      obtain ⟨i, ds₁, ds₂, hlevel, rfl, hlen'⟩ := level?_eq_some hc (show depth < ds.length by omega)
      obtain ⟨b, hb⟩ := Option.isSome_iff_exists.1 (hbounds i.dim (by simp))
      simp only [hlevel, hb, Option.getD_some]
      have hinner := fun v => @ih (depth + 1) (c :: group) (ws ++ [v])
        (fun c hc => hcs c (mem_groups hgroup c hc)) (by simp [hlen]) (by omega)
      have hloop := foldlM_values hnames (hlen'.trans hlen.symm) hinner (values c i b) none
      rwa [Option.toList_none, List.append_nil] at hloop

omit [Monad m] [LawfulMonad m] [MonadExcept EvalError m] in
theorem levels_eq (hne : cs ≠ []) (hcs : ∀ c ∈ cs, c.space.box.dimensions = ds) :
    levels cs = ds.length + 1 := by
  have hfold : ∀ {l : List Nat} {a k : Nat}, (∀ x ∈ l, x = k) → a ≤ k → l ≠ [] →
      l.foldl max a = k := by
    intro l a k hl ha hne
    induction l generalizing a with
    | nil => exact absurd rfl hne
    | cons x l ih =>
      obtain ⟨rfl, hl⟩ := List.forall_mem_cons.1 hl
      rw [List.foldl_cons, max_eq_right ha]
      by_cases hnil : l = []
      · rw [hnil, List.foldl_nil]
      · exact ih hl le_rfl hnil
  rw [levels, hfold (k := ds.length) ?_ (Nat.zero_le _) (by simpa using hne)]
  refine List.forall_mem_map.2 fun c hc => ?_
  rw [← hcs c hc, Box.size, Box.dimensions, List.length_map]

theorem walk_eq_tour (hnames : (ds.map Dimension.name).Nodup)
    (hbounds : ∀ d ∈ ds, (bounds d).isSome = true) (hne : cs ≠ [])
    (hcs : ∀ c ∈ cs, c.space.box.dimensions = ds) (visit : Cluster α → Position → m Unit) :
    walk bounds visit cs =
      forM (tour bounds ds.length 0 cs []) (fun q => visit q.1 (stand ds q.2)) := by
  have hstart : (Table.empty : Position) = stand ds [] := by
    rw [stand, List.zip_nil_right]
    rfl
  have htour := walkFrom_eq_tour hnames hbounds hcs (show ([] : List Int).length = 0 from rfl)
    (Nat.zero_add _) visit
  rw [walk, levels_eq hne hcs, hstart, htour, discard, LawfulFunctor.map_const]
  simp only [Function.comp_apply, map_bind, map_pure, Function.const_apply]
  exact bind_pure _

omit [Monad m] [LawfulMonad m] [MonadExcept EvalError m]

theorem exists_mem_groups (hc : c ∈ cs) : ∃ group ∈ groups depth cs, c ∈ group := by
  rw [← List.flatten_splitBy (fun c c' => level? depth c == level? depth c') cs] at hc
  exact List.mem_flatten.1 hc

theorem level?_of_mem_groups {c₀ : Cluster α} {group : List (Cluster α)}
    (hg : c₀ :: group ∈ groups depth cs) (hc : c ∈ c₀ :: group) :
    level? depth c = level? depth c₀ := by
  have htrans : IsTrans (Cluster α) fun c c' => (level? depth c == level? depth c') = true :=
    ⟨fun a b c hab hbc => by simp_all⟩
  rcases List.mem_cons.1 hc with rfl | hc
  · rfl
  · have hpairwise := (List.isChain_of_mem_splitBy hg).pairwise
    exact (beq_iff_eq.1 (List.rel_of_pairwise_cons hpairwise hc)).symm

def Inside (bounds : Dimension → Option (Int × Int)) (is : List Interval) (ws : List Int) : Prop :=
  List.Forall₂ (fun i w => w ∈ range bounds i) is ws

theorem mem_values {i : Interval} {v : Int} :
    v ∈ values c i ((bounds i.dim).getD (0, 0)) ↔ v ∈ range bounds i := by
  unfold values
  dsimp only
  split
  · rw [List.mem_reverse]
    rfl
  · rfl

theorem mem_tour (hcs : ∀ c ∈ cs, c.space.box.dimensions = ds) (hdepth : depth + n = ds.length)
    {vs : List Int} : (c, vs) ∈ tour bounds n depth cs ws ↔
      c ∈ cs ∧ ∃ us, vs = ws ++ us ∧ Inside bounds (c.space.box.intervals.drop depth) us := by
  induction n generalizing depth cs ws with
  | zero =>
    have hdrop : ∀ c ∈ cs, c.space.box.intervals.drop depth = [] := by
      intro c hc
      rw [List.drop_eq_nil_iff, ← List.length_map Interval.dim]
      exact (congrArg List.length (hcs c hc)).trans_le hdepth.ge
    rw [tour, List.mem_map]
    constructor
    · rintro ⟨c, hc, heq⟩
      obtain ⟨rfl, rfl⟩ := Prod.mk.inj heq
      exact ⟨hc, [], (List.append_nil ws).symm, hdrop c hc ▸ .nil⟩
    · rintro ⟨hc, us, rfl, hus⟩
      rw [hdrop c hc, Inside, List.forall₂_nil_left_iff] at hus
      exact ⟨c, hc, by rw [hus, List.append_nil]⟩
  | succ n ih =>
    have hgroup : ∀ group ∈ groups depth cs, ∃ c₀ rest i, group = c₀ :: rest ∧
        level? depth c₀ = some i ∧ ∀ c ∈ group, c.space.box.intervals.drop depth =
          i :: c.space.box.intervals.drop (depth + 1) := by
      intro group hg
      cases group with
      | nil => exact absurd hg (List.nil_notMem_splitBy _ _)
      | cons c₀ rest =>
        obtain ⟨i, -, -, hlevel, -⟩ := level?_eq_some
          (hcs c₀ (mem_groups hg c₀ List.mem_cons_self)) (show depth < ds.length by omega)
        refine ⟨c₀, rest, i, rfl, hlevel, fun c hc => ?_⟩
        have hi := (level?_of_mem_groups hg hc).trans hlevel
        exact (List.drop_eq_getElem?_toList_append).trans (by rw [← level?, hi]; rfl)
    rw [tour, List.mem_flatMap]
    constructor
    · rintro ⟨group, hg, hmem⟩
      obtain ⟨c₀, rest, i, rfl, hlevel, hdrop⟩ := hgroup group hg
      simp only [hlevel, List.mem_flatMap, mem_values] at hmem
      obtain ⟨v, hv, hmem⟩ := hmem
      obtain ⟨hc, us, rfl, hus⟩ := (ih (fun c hc => hcs c (mem_groups hg c hc)) (by omega)).1 hmem
      refine ⟨mem_groups hg c hc, v :: us, by simp, ?_⟩
      rw [hdrop c hc]
      exact .cons hv hus
    · rintro ⟨hc, us, rfl, hus⟩
      obtain ⟨group, hg, hcg⟩ := exists_mem_groups hc
      obtain ⟨c₀, rest, i, rfl, hlevel, hdrop⟩ := hgroup group hg
      rw [hdrop c hcg, Inside, List.forall₂_cons_left_iff] at hus
      obtain ⟨v, us, hv, hus, rfl⟩ := hus
      refine ⟨c₀ :: rest, hg, ?_⟩
      simp only [hlevel, List.mem_flatMap, mem_values]
      refine ⟨v, hv, (ih (fun c hc => hcs c (mem_groups hg c hc)) (by omega)).2 ⟨hcg, us, ?_, hus⟩⟩
      simp

theorem map_tour_withAssignments (c : Cluster α) (as : List (Assignment α)) (n depth : Nat)
    (ws : List Int) : (tour bounds n depth [c.withAssignments as] ws).map (·.2) =
      (tour bounds n depth [c] ws).map (·.2) := by
  have hgroups : ∀ depth (c : Cluster α), groups depth [c] = [[c]] := fun _ _ => rfl
  induction n generalizing depth ws with
  | zero => rfl
  | succ n ih =>
    rw [tour, tour, hgroups, hgroups, List.flatMap_singleton, List.flatMap_singleton]
    dsimp only
    rw [show level? depth (c.withAssignments as) = level? depth c from rfl]
    cases level? depth c with
    | none => rfl
    | some i =>
      simp only [List.map_flatMap, ih]
      rfl

theorem tour_singleton (hdepth : depth + n = c.space.box.dimensions.length) :
    tour bounds n depth [c] ws =
      ((tour bounds n depth [c] ws).map (·.2)).map fun vs => (c, vs) := by
  rw [List.map_map]
  refine (List.map_id _).symm.trans (List.map_congr_left fun q hq => ?_)
  obtain ⟨x, vs⟩ := q
  have hx := ((mem_tour (List.forall_mem_singleton.2 rfl) hdepth).1 hq).1
  rw [List.mem_singleton.1 hx]
  rfl

end Stencil.Nest
