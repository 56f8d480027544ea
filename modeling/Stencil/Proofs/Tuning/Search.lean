import Mathlib.Data.List.Forall2
import Mathlib.Data.List.Lex
import Mathlib.Order.Basic
import Stencil.Proofs.Tuning.Candidates

namespace Stencil

namespace SearchSpace

def picks {β : Type} : List (List β) → List (List Nat)
  | [] => [[]]
  | g :: gs => (List.range g.length).flatMap fun i => (picks gs).map (i :: ·)

def Picks {β : Type} (gs : List (List β)) (is : List Nat) : Prop :=
  List.Forall₂ (fun i g => i < g.length) is gs

def gather (gs : List (List Binding)) (is : List Nat) : Binding :=
  (List.zipWith (fun (g : List Binding) i => g.getD i []) gs is).flatten

/-- A list of the runs that take one candidate from each generator, each choice once and the last
generator varying fastest. -/
def Enumerates (gs : List (List Binding)) (runs : List Binding) : Prop :=
  ∃ choices : List (List Nat), choices.Pairwise (List.Lex (· < ·)) ∧
    (∀ is, is ∈ choices ↔ Picks gs is) ∧ runs = choices.map (gather gs)

theorem mem_picks_iff {β : Type} {gs : List (List β)} {is : List Nat} :
    is ∈ picks gs ↔ Picks gs is := by
  induction gs generalizing is with
  | nil => simp [picks, Picks]
  | cons g gs ih =>
    constructor
    · intro h
      obtain ⟨i, hi, h⟩ := List.mem_flatMap.1 h
      obtain ⟨js, hjs, rfl⟩ := List.mem_map.1 h
      exact .cons (List.mem_range.1 hi) (ih.1 hjs)
    · intro h
      obtain ⟨i, js, hi, hjs, rfl⟩ := List.forall₂_cons_right_iff.1 h
      exact List.mem_flatMap.2 ⟨i, List.mem_range.2 hi, List.mem_map_of_mem (ih.2 hjs)⟩

theorem pairwise_picks {β : Type} (gs : List (List β)) :
    (picks gs).Pairwise (List.Lex (· < ·)) := by
  induction gs with
  | nil => exact List.pairwise_singleton _ _
  | cons g gs ih =>
    rw [picks, List.pairwise_flatMap]
    constructor
    · intro i _
      exact List.pairwise_map.2 (ih.imp .cons)
    · refine List.pairwise_lt_range.imp fun hij is his js hjs => ?_
      obtain ⟨_, _, rfl⟩ := List.mem_map.1 his
      obtain ⟨_, _, rfl⟩ := List.mem_map.1 hjs
      exact .rel hij

theorem map_getD_range {β : Type} (g : List β) (b : β) :
    (List.range g.length).map (g.getD · b) = g := by
  refine List.ext_getElem (by simp) fun i hi hi' => ?_
  simp [List.getD_eq_getElem?_getD, List.getElem?_eq_getElem hi']

theorem product_eq (gs : List (List Binding)) :
    (product gs).map List.flatten = (picks gs).map (gather gs) := by
  induction gs with
  | nil => rfl
  | cons g gs ih =>
    have hstep (b : Binding) : ((product gs).map (b :: ·)).map List.flatten =
        (picks gs).map fun is => b ++ gather gs is := by
      rw [List.map_map]
      calc (product gs).map (List.flatten ∘ (b :: ·))
        _ = ((product gs).map List.flatten).map (b ++ ·) := by
          rw [List.map_map]
          rfl
        _ = (picks gs).map fun is => b ++ gather gs is := by
          rw [ih, List.map_map]
          rfl
    calc (product (g :: gs)).map List.flatten
      _ = g.flatMap fun b => (picks gs).map fun is => b ++ gather gs is := by
        simp only [product, List.map_flatMap, hstep]
      _ = ((List.range g.length).map (g.getD · [])).flatMap fun b =>
          (picks gs).map fun is => b ++ gather gs is := by rw [map_getD_range]
      _ = (picks (g :: gs)).map (gather (g :: gs)) := by
        rw [List.flatMap_map, picks, List.map_flatMap]
        refine List.flatMap_congr fun i _ => ?_
        rw [List.map_map]
        rfl

theorem runs_eq {s : SearchSpace} (h : s.generators ≠ []) :
    s.runs = (product s.generators).map List.flatten := by
  rw [runs, if_neg (by simpa using h)]

theorem enumerates_runs {s : SearchSpace} (h : s.generators ≠ []) :
    Enumerates s.generators s.runs :=
  ⟨picks s.generators, pairwise_picks _, fun _ => mem_picks_iff, by rw [runs_eq h, product_eq]⟩

theorem runs_of_no_generators {s : SearchSpace} (h : s.generators = []) : s.runs = [] := by
  rw [runs, h]
  rfl

theorem length_product {β : Type} (gs : List (List β)) (n : Nat) :
    (gs.map List.length).foldl (· * ·) n = n * (product gs).length := by
  induction gs generalizing n with
  | nil => simp [product]
  | cons g gs ih =>
    rw [List.map_cons, List.foldl_cons, ih, product, List.length_flatMap]
    simp [Nat.mul_assoc]

theorem size_eq (s : SearchSpace) : s.size = s.runs.length % 18446744073709551616 := by
  unfold size runs
  split
  · rfl
  · rw [length_product, List.length_map, Nat.one_mul]

/-- A space without candidates has no run, although there is one way to take a candidate from each
of its generators. The number of runs of a large space is too large for its size. -/
theorem empty_and_large_spaces :
    (Enumerates ({} : SearchSpace).generators [[]] ∧
      ¬ Enumerates ({} : SearchSpace).generators ({} : SearchSpace).runs ∧
      ({} : SearchSpace).size = 0) ∧
    (⟨List.replicate 64 [[("a", 1)], [("a", 2)]]⟩ : SearchSpace).runs.length =
      18446744073709551616 ∧
    (⟨List.replicate 64 [[("a", 1)], [("a", 2)]]⟩ : SearchSpace).size = 0 := by
  refine ⟨⟨⟨[[]], List.pairwise_singleton _ _, fun is => ?_, rfl⟩, ?_, rfl⟩, ?_, by decide⟩
  · rw [← mem_picks_iff]
    rfl
  · rintro ⟨choices, -, hmem, hruns⟩
    have hnil : [] ∈ choices := (hmem []).2 .nil
    rw [runs_of_no_generators rfl, eq_comm, List.map_eq_nil_iff] at hruns
    rw [hruns] at hnil
    exact absurd hnil List.not_mem_nil
  · rw [runs_eq (by decide), List.length_map, ← Nat.one_mul (product _).length, ← length_product]
    decide

end SearchSpace

inductive SearchStep where
  | add (g : List Binding)
  | next
  | reset
  deriving DecidableEq

namespace SearchStep

def apply (x : SearchSpace × Sweep) : SearchStep → SearchSpace × Sweep
  | add g => (x.1.add g, x.2)
  | next => (x.1, (x.2.next x.1).2)
  | reset => (x.1, x.2.reset)

def added? : SearchStep → Option (List Binding)
  | add g => if g = [] then none else some g
  | _ => none

def answers (x : SearchSpace × Sweep) : List SearchStep → List (Option Binding)
  | [] => []
  | next :: steps => (x.2.next x.1).1 :: answers (next.apply x) steps
  | step :: steps => answers (step.apply x) steps

def after (steps : List SearchStep) : SearchSpace × Sweep := steps.foldl apply ({}, {})

theorem answers_append (x : SearchSpace × Sweep) (steps rest : List SearchStep) :
    answers x (steps ++ rest) = answers x steps ++ answers (steps.foldl apply x) rest := by
  induction steps generalizing x with
  | nil => rfl
  | cons step steps ih =>
    cases step with
    | next => exact congrArg _ (ih _)
    | add g => exact ih _
    | reset => exact ih _

theorem answers_of_runs {steps : List SearchStep} (h : reset ∉ steps) (s : SearchSpace) (k : Nat)
    (runs : List Binding) : answers (s, ⟨k, some runs⟩) steps =
      (List.range (steps.count next)).map fun i => runs[k + i]? := by
  induction steps generalizing s k with
  | nil => rfl
  | cons step steps ih =>
    have hsteps : reset ∉ steps := fun hmem => h (List.mem_cons_of_mem _ hmem)
    cases step with
    | add g => rw [List.count_cons_of_ne (by simp)]; exact ih hsteps _ k
    | reset => exact absurd List.mem_cons_self h
    | next =>
      rw [List.count_cons_self, List.range_succ_eq_map, List.map_cons, List.map_map, answers, apply,
        Sweep.next, Option.getD_some]
      cases hk : runs[k]? with
      | some b =>
        refine List.cons_eq_cons.2 ⟨rfl, (ih hsteps s (k + 1)).trans ?_⟩
        refine List.map_congr_left fun i _ => ?_
        rw [Function.comp_apply, Nat.add_right_comm, Nat.add_assoc]
      | none =>
        refine List.cons_eq_cons.2 ⟨rfl, (ih hsteps s k).trans ?_⟩
        -- the search stays behind the last run
        have hend : runs.length ≤ k := List.getElem?_eq_none_iff.1 hk
        refine List.map_congr_left fun i _ => ?_
        rw [Function.comp_apply, List.getElem?_eq_none (by omega), List.getElem?_eq_none (by omega)]

theorem answers_of_new {steps : List SearchStep} (h : reset ∉ steps) (s : SearchSpace) :
    answers (s, {}) steps = (List.range (steps.count next)).map
      (((steps.takeWhile (· ≠ next)).foldl apply (s, {})).1.runs[·]?) := by
  induction steps generalizing s with
  | nil => rfl
  | cons step steps ih =>
    have hsteps : reset ∉ steps := fun hmem => h (List.mem_cons_of_mem _ hmem)
    cases step with
    | add g =>
      rw [List.count_cons_of_ne (by simp), List.takeWhile_cons_of_pos (by simp)]
      exact ih hsteps _
    | reset => exact absurd List.mem_cons_self h
    | next =>
      rw [List.takeWhile_cons_of_neg (by simp), List.foldl_nil]
      have hcached : answers (s, {}) (next :: steps) =
          answers (s, ⟨0, some s.runs⟩) (next :: steps) := rfl
      rw [hcached, answers_of_runs h]
      simp only [Nat.zero_add]

theorem generators_foldl (steps : List SearchStep) (x : SearchSpace × Sweep) :
    (steps.foldl apply x).1.generators = x.1.generators ++ steps.filterMap added? := by
  induction steps generalizing x with
  | nil => exact (List.append_nil _).symm
  | cons step steps ih =>
    rw [List.foldl_cons, ih]
    cases step with
    | next => rfl
    | reset => rfl
    | add g =>
      cases g with
      | nil => rfl
      | cons b g => exact List.append_assoc _ [_] _

theorem after_of_reset {steps : List SearchStep}
    (h : steps = [] ∨ steps.getLast? = some reset) : (after steps).2 = {} := by
  rcases h with rfl | h
  · rfl
  · obtain ⟨pre, rfl⟩ := List.getLast?_eq_some_iff.1 h
    rw [after, List.foldl_append]
    rfl

/-- Since it was last reset, a search answers with the runs that the space had when it was first
asked, one after the other, and then with nothing; what is added later does not count. These runs
take a candidate from each list that was added and is not empty, in the order of the positions at
which they take them. -/
theorem answers_since_reset {before rest : List SearchStep}
    (hbefore : before = [] ∨ before.getLast? = some reset) (hrest : reset ∉ rest) :
    let s := (after (before ++ rest.takeWhile (· ≠ next))).1
    answers ({}, {}) (before ++ rest) =
        answers ({}, {}) before ++ (List.range (rest.count next)).map (s.runs[·]?) ∧
      s.generators = (before ++ rest.takeWhile (· ≠ next)).filterMap added? ∧
      (s.generators ≠ [] → SearchSpace.Enumerates s.generators s.runs) ∧
      (s.generators = [] → s.runs = []) ∧
      (s.runs.length < 18446744073709551616 → s.size = s.runs.length) := by
  intro s
  refine ⟨?_, generators_foldl _ _, SearchSpace.enumerates_runs,
    SearchSpace.runs_of_no_generators, fun h => ?_⟩
  · have hnew : after before = ((after before).1, {}) := by
      rw [← after_of_reset hbefore]
    have hs : s = ((rest.takeWhile (· ≠ next)).foldl apply ((after before).1, {})).1 := by
      rw [← hnew]
      show (after (before ++ _)).1 = _
      rw [after, List.foldl_append]
      rfl
    rw [answers_append, ← after, hnew, answers_of_new hrest, ← hs]
  · rw [SearchSpace.size_eq, Nat.mod_eq_of_lt h]

theorem answers_since_reset_extended :
    answers ({}, {}) ([add [[("a", 1)], [("a", 2)]], next, reset] ++
        [add [[("n", 4)]], next, add [[("n", 8)]], next, next, next]) =
      [some [("a", 1)], some [("a", 1), ("n", 4)], some [("a", 2), ("n", 4)], none, none] :=
  (@answers_since_reset [add [[("a", 1)], [("a", 2)]], next, reset]
    [add [[("n", 4)]], next, add [[("n", 8)]], next, next, next] (.inr rfl) (by decide)).1.trans
    (by decide)

end SearchStep

end Stencil
