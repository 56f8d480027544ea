import Mathlib.Data.List.Basic
import Stencil.Proofs.Tuning.Arguments

namespace Stencil

namespace Candidates

def names (b : Binding) : List String := b.map (·.1)

theorem names_cube (whole : Binding) (size : Int) : names (cube whole size) = names whole := by
  simp [names, cube]

theorem names_doubleAll (b : Binding) : names (doubleAll b) = names b := by
  simp [names, doubleAll]

theorem names_doubleAt (at_ : List Nat) (b : Binding) : names (doubleAt at_ b) = names b := by
  rw [names, names, doubleAt, List.map_map]
  refine Eq.trans ?_ (congrArg (List.map Prod.fst) (List.zipIdx_map_fst 0 b))
  rw [List.map_map]
  rfl

theorem names_exchange_last {b c : Binding} {ns : List String} (hb : names b = ns)
    (hc : names c = ns) : names (b.dropLast ++ c.getLast?.toList) = ns := by
  have hlast : c.getLast?.toList.map (·.1) = ns.getLast?.toList := by
    rw [← hc, names, List.getLast?_map]
    cases c.getLast? <;> rfl
  rw [names, List.map_append, List.map_dropLast, hlast, ← names, hb]
  cases h : ns.getLast? with
  | none => simp_all
  | some n => exact List.dropLast_append_getLast? n h

theorem mem_insertAfter {β : Type} [BEq β] {a b x : β} {l : List β} (h : x ∈ insertAfter a b l) :
    x = b ∨ x ∈ l := by
  induction l with
  | nil => simpa [insertAfter] using h
  | cons c r ih =>
    unfold insertAfter at h
    split at h
    · rcases List.mem_cons.1 h with rfl | h
      · exact .inr List.mem_cons_self
      · exact (List.mem_cons.1 h).imp id (List.mem_cons_of_mem c)
    · rcases List.mem_cons.1 h with rfl | h
      · exact .inr List.mem_cons_self
      · exact (ih h).imp id (List.mem_cons_of_mem c)

structure Kept (P : Binding → Prop) : Prop where
  doubleAll : ∀ b, P b → P (doubleAll b)
  doubleAt : ∀ at_ b, P b → P (doubleAt at_ b)
  exchange : ∀ b c, P b → P c → P (b.dropLast ++ c.getLast?.toList)

section Kept

variable {P : Binding → Prop} {whole : Binding} {shapes : List Binding}

theorem Kept.ramp (h : Kept P) {b : Binding} (n : Nat) (hb : P b) (hs : ∀ c ∈ shapes, P c) :
    ∀ c ∈ ramp n b shapes, P c := by
  induction n generalizing b shapes with
  | zero => exact hs
  | succ n ih =>
    refine ih (h.doubleAll b hb) fun c hc => ?_
    rcases mem_insertAfter hc with rfl | hc
    · exact h.doubleAll b hb
    · exact hs c hc

theorem Kept.mixed (h : Kept P) (hs : ∀ c ∈ shapes, P c) : ∀ c ∈ mixed shapes, P c := by
  intro c hc
  obtain ⟨b, hb, hc⟩ := List.mem_flatMap.1 hc
  obtain ⟨d, hd, rfl⟩ := List.mem_map.1 hc
  exact h.exchange b d (hs b (List.mem_of_mem_take hb)) (hs d hd)

theorem Kept.doubled (h : Kept P) (n : Nat) (hs : ∀ c ∈ shapes, P c) :
    ∀ c ∈ doubled n shapes, P c := by
  intro c hc
  obtain ⟨b, hb, hc⟩ := List.mem_flatMap.1 hc
  obtain ⟨at_, _, rfl⟩ := List.mem_map.1 hc
  exact h.doubleAt at_ b (hs b hb)

theorem forall_basicShapes {sizes : List Int} (hcubes : ∀ n ∈ sizes, P (cube whole n))
    (hwhole : P whole) : ∀ b ∈ basicShapes whole sizes, P b := by
  intro b hb
  rcases List.mem_append.1 hb with hb | hb
  · obtain ⟨n, hn, rfl⟩ := List.mem_map.1 hb
    exact hcubes n hn
  · exact List.mem_singleton.1 hb ▸ hwhole

theorem Kept.aggressiveShapes (h : Kept P) {sizes : List Int}
    (hcubes : ∀ n ∈ sizes, P (cube whole n)) (hwhole : P whole) :
    ∀ b ∈ aggressiveShapes whole sizes, P b := by
  have hbasic : ∀ b ∈ basicShapes whole sizes, P b := forall_basicShapes hcubes hwhole
  have hramped : ∀ ramped : List Binding, (∀ c ∈ ramped, P c) →
      ∀ b ∈ ramped ++ Candidates.mixed ramped ++ Candidates.doubled whole.length ramped, P b := by
    intro ramped hr b hb
    rcases List.mem_append.1 hb with hb | hb
    · rcases List.mem_append.1 hb with hb | hb
      · exact hr b hb
      · exact h.mixed hr b hb
    · exact h.doubled whole.length hr b hb
  unfold Candidates.aggressiveShapes
  cases hlast : sizes.getLast? with
  | none => exact hramped _ hbasic
  | some largest =>
    exact hramped _ (h.ramp 3 (hcubes largest (List.mem_of_getLast? hlast)) hbasic)

theorem Kept.blockShapes (h : Kept P) {blocks : List KernelDimension} {args : Arguments}
    {level : Level} {o : Options} (hcubes : ∀ n ∈ o.blockSizes, P (cube (domain blocks args) n))
    (hwhole : P (domain blocks args)) : ∀ b ∈ blockShapes blocks args level o, P b := by
  intro b hb
  have hsorted : ∀ n ∈ o.blockSizes.mergeSort, P (cube (domain blocks args) n) :=
    fun n hn => hcubes n (List.mem_mergeSort.1 hn)
  by_cases hw : (domain blocks args).isEmpty = true
  · simp [Candidates.blockShapes, hw] at hb
  · simp only [Candidates.blockShapes, hw, Bool.false_eq_true, if_false, List.mem_eraseDups,
      List.mem_filter] at hb
    cases level with
    | basic => exact forall_basicShapes hsorted hwhole b hb.1
    | aggressive => exact h.aggressiveShapes hsorted hwhole b hb.1

end Kept

theorem kept_names (ns : List String) : Kept fun b => names b = ns where
  doubleAll b hb := (names_doubleAll b).trans hb
  doubleAt at_ b hb := (names_doubleAt at_ b).trans hb
  exchange _ _ hb hc := names_exchange_last hb hc

theorem names_domain (blocks : List KernelDimension) (args : Arguments) :
    names (domain blocks args) = blocks.filterMap fun b => b.block?.map (·.2.1) := by
  rw [names, domain, List.map_filterMap]
  simp [Function.comp_def]

theorem names_blockShapes {blocks : List KernelDimension} {args : Arguments} {level : Level}
    {o : Options} : ∀ b ∈ blockShapes blocks args level o,
      names b = blocks.filterMap fun b => b.block?.map (·.2.1) := by
  rw [← names_domain blocks args]
  exact (kept_names _).blockShapes (fun n _ => names_cube _ n) rfl

theorem mem_threadCounts_iff {ps : List Parameter} {args : Arguments} {level : Level} {o : Options}
    {b : Binding} : b ∈ threadCounts ps args level o ↔ ∃ p ∈ ps, ∃ n, b = [(p.name, n)] ∧
      (args.int? p.name = some n ∨ level = .aggressive ∧ o.manyCore = true ∧
        n ∈ [coreCount o, (coreCount o).tdiv 2, (coreCount o).tdiv 4]) := by
  rw [threadCounts, List.mem_eraseDups, List.mem_append]
  constructor
  · rintro (h | h)
    · obtain ⟨p, hp, h⟩ := List.mem_filterMap.1 h
      obtain ⟨n, hn, rfl⟩ := Option.map_eq_some_iff.1 h
      exact ⟨p, hp, n, rfl, .inl hn⟩
    · split at h
      · rename_i hwide
        obtain ⟨hlevel, hcore⟩ : level = .aggressive ∧ o.manyCore = true := by simpa using hwide
        obtain ⟨p, hp, h⟩ := List.mem_flatMap.1 h
        obtain ⟨n, hn, rfl⟩ := List.mem_map.1 h
        exact ⟨p, hp, n, rfl, .inr ⟨hlevel, hcore, hn⟩⟩
      · simp at h
  · rintro ⟨p, hp, n, rfl, hn | ⟨hlevel, hcore, hn⟩⟩
    · exact .inl (List.mem_filterMap.2 ⟨p, hp, by rw [hn]; rfl⟩)
    · refine .inr ?_
      rw [if_pos (by simp [hlevel, hcore])]
      exact List.mem_flatMap.2 ⟨p, hp, List.mem_map.2 ⟨n, hn, rfl⟩⟩

theorem mem_threadCounts {ps : List Parameter} {args : Arguments} {level : Level} {o : Options}
    {b : Binding} (h : b ∈ threadCounts ps args level o) :
    ∃ p ∈ ps, ∃ n, b = [(p.name, n)] ∧
      (args.int? p.name = some n ∨ level = .aggressive ∧ o.manyCore = true) := by
  obtain ⟨p, hp, n, hb, hn⟩ := mem_threadCounts_iff.1 h
  exact ⟨p, hp, n, hb, hn.imp_right fun h => ⟨h.1, h.2.1⟩⟩

theorem names_threadCounts {ps : List Parameter} {args : Arguments} {level : Level} {o : Options} :
    ∀ b ∈ threadCounts ps args level o, ∃ p ∈ ps, names b = [p.name] := by
  intro b hb
  obtain ⟨p, hp, n, rfl, -⟩ := mem_threadCounts hb
  exact ⟨p, hp, rfl⟩

end Candidates

namespace SearchSpace

theorem mem_product {β : Type} {gs : List (List β)} {c : List β} (h : c ∈ product gs) :
    ∀ a ∈ c, ∃ g ∈ gs, a ∈ g := by
  induction gs generalizing c with
  | nil => simp_all [product]
  | cons g gs ih =>
    obtain ⟨a, ha, hc⟩ := List.mem_flatMap.1 h
    obtain ⟨r, hr, rfl⟩ := List.mem_map.1 hc
    intro x hx
    rcases List.mem_cons.1 hx with rfl | hx
    · exact ⟨g, List.mem_cons_self, ha⟩
    · obtain ⟨g', hg', hx⟩ := ih hr x hx
      exact ⟨g', List.mem_cons_of_mem g hg', hx⟩

theorem mem_runs {s : SearchSpace} {b : Binding} (h : b ∈ s.runs) :
    ∀ x ∈ b, ∃ g ∈ s.generators, ∃ c ∈ g, x ∈ c := by
  unfold runs at h
  split at h
  · simp at h
  · obtain ⟨cs, hcs, rfl⟩ := List.mem_map.1 h
    intro x hx
    obtain ⟨c, hc, hx⟩ := List.mem_flatten.1 hx
    obtain ⟨g, hg, hc⟩ := mem_product hcs c hc
    exact ⟨g, hg, c, hc, hx⟩

theorem mem_generators_add {s : SearchSpace} {g g' : List Binding}
    (h : g' ∈ (s.add g).generators) : g' ∈ s.generators ∨ g' = g := by
  unfold add at h
  split at h
  · exact .inl h
  · simpa using h

theorem runs_add_add (g g' : List Binding) : ((({} : SearchSpace).add g).add g').runs =
    if g = [] then g' else if g' = [] then g else g.flatMap fun a => g'.map (a ++ ·) := by
  have hone (g : List Binding) : (product [g]).map List.flatten = g := by
    simp [product, List.map_flatMap]
  have htwo (g g' : List Binding) :
      (product [g, g']).map List.flatten = g.flatMap fun a => g'.map (a ++ ·) := by
    simp [product, List.map_flatMap, ← List.map_eq_flatMap, Function.comp_def]
  cases g with
  | nil =>
    cases g' with
    | nil => rfl
    | cons c g' => exact hone (c :: g')
  | cons a g =>
    cases g' with
    | nil => exact hone (a :: g)
    | cons c g' => exact htwo (a :: g) (c :: g')

theorem mem_runs_add_add {g g' : List Binding} {b : Binding}
    (h : b ∈ ((({} : SearchSpace).add g).add g').runs) :
    ∃ a c, b = a ++ c ∧ (a ∈ g ∨ g = [] ∧ a = []) ∧ (c ∈ g' ∨ g' = [] ∧ c = []) := by
  rw [runs_add_add] at h
  split at h
  · rename_i hg
    exact ⟨[], b, rfl, .inr ⟨hg, rfl⟩, .inl h⟩
  · split at h
    · rename_i hg'
      exact ⟨b, [], (List.append_nil b).symm, .inl h, .inr ⟨hg', rfl⟩⟩
    · obtain ⟨x, hx, hb⟩ := List.mem_flatMap.1 h
      obtain ⟨y, hy, rfl⟩ := List.mem_map.1 hb
      exact ⟨x, y, rfl, .inl hx, .inl hy⟩

end SearchSpace

namespace Tuning

def candidates (k : Signature) (o : Options) (level : Level) (caller : Arguments) : List Binding :=
  ((({} : SearchSpace).add (Candidates.blockShapes k.blocks caller level o)).add
    (Candidates.threadCounts (k.ofKind .threads) caller level o)).runs

theorem mem_tunables_of_mem_candidates {k : Signature} {o : Options} {level : Level}
    {caller : Arguments} {b : Binding} (h : b ∈ candidates k o level caller) :
    ∀ x ∈ b, x.1 ∈ k.tunables := by
  intro x hx
  obtain ⟨g, hg, c, hc, hx⟩ := SearchSpace.mem_runs h x hx
  have hname : x.1 ∈ Candidates.names c := List.mem_map_of_mem hx
  rcases SearchSpace.mem_generators_add hg with hg | rfl
  · rcases SearchSpace.mem_generators_add hg with hg | rfl
    · simp at hg
    · rw [Candidates.names_blockShapes c hc] at hname
      exact List.mem_append_left _ hname
  · obtain ⟨p, hp, hc⟩ := Candidates.names_threadCounts c hc
    rw [hc, List.mem_singleton] at hname
    exact List.mem_append_right _ (hname ▸ List.mem_map_of_mem hp)

theorem mem_candidates {k : Signature} {o : Options} {level : Level} {caller : Arguments}
    {b : Binding} (h : b ∈ candidates k o level caller) :
    ∃ shape count, b = shape ++ count ∧
      (shape ∈ Candidates.blockShapes k.blocks caller level o ∨
        Candidates.blockShapes k.blocks caller level o = [] ∧ shape = []) ∧
      (count ∈ Candidates.threadCounts (k.ofKind .threads) caller level o ∨
        Candidates.threadCounts (k.ofKind .threads) caller level o = [] ∧ count = []) := by
  exact SearchSpace.mem_runs_add_add h

end Tuning

end Stencil
