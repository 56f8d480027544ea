import Mathlib.Data.List.Chain
import Stencil.Proofs.Tuning.Trace

namespace Stencil

/-- A range of time steps, empty if `hi < lo`. -/
structure Window where
  lo : Int
  hi : Int
  deriving DecidableEq

namespace Window

def Contains (w : Window) (i : Int) : Prop := w.lo ≤ i ∧ i ≤ w.hi

end Window

theorem Dimension.lowerName_ne_upperName (d : Dimension) : d.lowerName ≠ d.upperName := by
  intro h
  have hm : "_m" = "_M" := (String.append_right_inj d.name).1 h
  exact absurd hm (by decide)

namespace Arguments

def window? (args : Arguments) (d : Dimension) : Option Window :=
  (args.int? d.lowerName).bind fun lo => (args.int? d.upperName).map fun hi => ⟨lo, hi⟩

theorem window?_eq_some {args : Arguments} {d : Dimension} {w : Window} :
    args.window? d = some w ↔
      args.int? d.lowerName = some w.lo ∧ args.int? d.upperName = some w.hi := by
  unfold window?
  constructor
  · intro h
    obtain ⟨lo, hlo, h⟩ := Option.bind_eq_some_iff.1 h
    obtain ⟨hi, hhi, rfl⟩ := Option.map_eq_some_iff.1 h
    exact ⟨hlo, hhi⟩
  · rintro ⟨hlo, hhi⟩
    rw [hlo, hhi]
    rfl

variable {d : Dimension}

def Apart (d : Dimension) (name : String) : Prop := name ≠ d.lowerName ∧ name ≠ d.upperName

instance (d : Dimension) (name : String) : Decidable (Apart d name) :=
  inferInstanceAs (Decidable (_ ∧ _))

theorem window?_insert (args : Arguments) {name : String} (a : Argument) (h : Apart d name) :
    window? (args.insert name a) d = args.window? d := by
  rw [window?, window?, int?_insert_of_ne args a h.1, int?_insert_of_ne args a h.2]

theorem window?_insertInts (args : Arguments) {xs : List (String × Int)}
    (h : ∀ x ∈ xs, Apart d x.1) : (args.insertInts xs).window? d = args.window? d := by
  rw [window?, window?, int?_insertInts args fun x hx => (h x hx).1,
    int?_insertInts args fun x hx => (h x hx).2]

theorem window?_insert_bounds (args : Arguments) (d : Dimension) (w : Window) :
    window? ((args.insert d.lowerName (.int w.lo)).insert d.upperName (.int w.hi)) d = some w := by
  rw [window?_eq_some, int?_insert_self,
    int?_insert_of_ne _ _ d.lowerName_ne_upperName.symm, int?_insert_self]
  exact ⟨rfl, rfl⟩

end Arguments

namespace TimeLoop

variable (t : TimeLoop) (steps : Int)

def first (w : Window) : Window :=
  if t.isBackward then ⟨w.hi - steps + 1, w.hi⟩ else ⟨w.lo, w.lo + steps - 1⟩

def afterFirst (w : Window) : Window :=
  if t.isBackward then ⟨w.lo, w.hi - steps⟩ else ⟨w.lo + steps, w.hi⟩

/-- Windows of some steps are cut off a range, one after another from where the loop starts. -/
structure CutsOff (range : Window) (ws : List Window) (rest : Window) : Prop where
  length : ∀ w ∈ ws, w.hi - w.lo + 1 = steps
  inside : ∀ w ∈ ws, range.lo ≤ w.lo ∧ w.hi ≤ range.hi
  start : ∀ w ∈ ws.head?, if t.isBackward then w.hi = range.hi else w.lo = range.lo
  consecutive : ws.IsChain fun v w => if t.isBackward then w.hi + 1 = v.lo else v.hi + 1 = w.lo
  disjoint : ws.Pairwise fun v w => ∀ i, ¬ (v.Contains i ∧ w.Contains i)
  rest_contains : ∀ i, rest.Contains i ↔ range.Contains i ∧ ∀ w ∈ ws, ¬ w.Contains i
  rest_end : if t.isBackward then rest.lo = range.lo else rest.hi = range.hi
  rest_start : ∀ w ∈ ws.getLast?, if t.isBackward then rest.hi + 1 = w.lo else w.hi + 1 = rest.lo
  rest_all : ws = [] → rest = range

variable {t steps} {range : Window}

theorem cutsOff_nil : t.CutsOff steps range [] range where
  length := by simp
  inside := by simp
  start := by simp
  consecutive := .nil
  disjoint := .nil
  rest_contains := by simp
  rest_end := by split <;> rfl
  rest_start := by simp
  rest_all _ := rfl

theorem first_contains {rest : Window} {i : Int} (hs : 0 < steps)
    (hfit : if t.isBackward then rest.lo ≤ (t.first steps rest).lo
      else (t.first steps rest).hi ≤ rest.hi) :
    ((t.first steps rest).Contains i → rest.Contains i) ∧
      ((t.afterFirst steps rest).Contains i ↔
        rest.Contains i ∧ ¬ (t.first steps rest).Contains i) := by
  unfold first afterFirst Window.Contains at *
  cases hb : t.isBackward with
  | true =>
    simp only [hb, if_true] at hfit ⊢
    omega
  | false =>
    simp only [hb, Bool.false_eq_true, if_false] at hfit ⊢
    omega

theorem CutsOff.snoc {ws : List Window} {rest : Window} (h : t.CutsOff steps range ws rest)
    (hs : 0 < steps) (hfit : if t.isBackward then range.lo ≤ (t.first steps rest).lo
      else (t.first steps rest).hi ≤ range.hi) :
    t.CutsOff steps range (ws ++ [t.first steps rest]) (t.afterFirst steps rest) := by
  -- The far end of the range has not moved, so that to fit into it is to fit into the rest.
  have hrest := h.rest_end
  have hfit' : if t.isBackward then rest.lo ≤ (t.first steps rest).lo
      else (t.first steps rest).hi ≤ rest.hi := by
    split at hrest <;> simp_all
  have hsub : ∀ i, (t.first steps rest).Contains i → rest.Contains i :=
    fun i => (first_contains hs hfit').1
  have hlength : (t.first steps rest).hi - (t.first steps rest).lo + 1 = steps := by
    unfold first
    split <;> simp <;> omega
  have hlo := hsub (t.first steps rest).lo ⟨by omega, by omega⟩
  have hhi := hsub (t.first steps rest).hi ⟨by omega, by omega⟩
  constructor
  case length =>
    intro w hw
    rcases List.mem_append.1 hw with hw | hw
    · exact h.length w hw
    · rw [List.mem_singleton.1 hw, hlength]
  case inside =>
    intro w hw
    rcases List.mem_append.1 hw with hw | hw
    · exact h.inside w hw
    · rw [List.mem_singleton.1 hw]
      exact ⟨((h.rest_contains _).1 hlo).1.1, ((h.rest_contains _).1 hhi).1.2⟩
  case start =>
    cases ws with
    | nil =>
      rw [h.rest_all rfl]
      simp only [List.nil_append, List.head?_cons, Option.mem_some_iff, forall_eq', first]
      split <;> rfl
    | cons w ws => exact h.start
  case consecutive =>
    refine List.isChain_append.2 ⟨h.consecutive, .singleton _, fun v hv w hw => ?_⟩
    obtain rfl : t.first steps rest = w := by simpa using hw
    have := h.rest_start v hv
    unfold first
    split <;> simp_all
  case disjoint =>
    refine List.pairwise_append.2 ⟨h.disjoint, List.pairwise_singleton _ _, ?_⟩
    rintro v hv w hw i ⟨hvi, hwi⟩
    rw [List.mem_singleton.1 hw] at hwi
    exact ((h.rest_contains i).1 (hsub i hwi)).2 v hv hvi
  case rest_contains =>
    intro i
    rw [(first_contains hs hfit').2, h.rest_contains]
    simp only [List.mem_append, List.mem_singleton, or_imp, forall_and, forall_eq, and_assoc]
  case rest_end =>
    unfold afterFirst
    split <;> simp_all
  case rest_start =>
    intro w hw
    obtain rfl : t.first steps rest = w := by simpa using hw
    unfold first afterFirst
    split <;> simp
  case rest_all => simp

end TimeLoop

end Stencil
