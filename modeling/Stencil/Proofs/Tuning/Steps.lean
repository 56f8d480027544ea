import Stencil.Proofs.Tuning.Storage
import Stencil.Proofs.Tuning.TimeSteps

/-!
The steps of a session together with what they do to storage. `Trial` says all that trying one
candidate can do, and `tryAll_induction` carries what every trial preserves through a session.
-/

namespace Stencil.Tuning

variable {κ : Type} {p : Plan κ} {r : Run κ}

theorem freshTimer_cases (profiler : String) (args : Arguments) (s : Store) :
    (∃ t, args.get? profiler = some (.timer t) ∧
      freshTimer profiler args s = (t, s.clearTimer t)) ∨
    (∀ t, args.get? profiler ≠ some (.timer t)) ∧
      freshTimer profiler args s = s.newTimer .empty := by
  unfold freshTimer
  split
  · rename_i t ht
    exact .inl ⟨t, ht, rfl⟩
  · rename_i hnone
    exact .inr ⟨hnone, rfl⟩

@[simp] theorem freshTimer_buffers (profiler : String) (args : Arguments) (s : Store) :
    (freshTimer profiler args s).2.buffers = s.buffers := by
  unfold freshTimer
  split <;> rfl

@[simp] theorem freshTimer_neighbours (profiler : String) (args : Arguments) (s : Store) :
    (freshTimer profiler args s).2.neighbours = s.neighbours := by
  unfold freshTimer
  split <;> rfl

@[simp] theorem freshTimer_messages (profiler : String) (args : Arguments) (s : Store) :
    (freshTimer profiler args s).2.messages = s.messages := by
  unfold freshTimer
  split <;> rfl

inductive Trial (p : Plan κ) (b : Binding) (r : Run κ) : Run κ → Prop
  | discarded (rejected : p.admits (r.args.insertInts b) = false) :
      Trial p b r { r with args := r.args.insertInts b }
  | failed {timer : Ref Timer} {cleared : Store} {kernel : κ} {store : Store}
      (admitted : p.admits (r.args.insertInts b) = true)
      (fresh : freshTimer p.kernel.profiler (r.args.insertInts b) r.store = (timer, cleared))
      (call : p.kernel.call (p.kernel.positional (p.callArguments b r.args timer)) r.kernel cleared =
        (false, kernel, store)) :
      Trial p b r
        { kernel := kernel
          store := store
          args := p.callArguments b r.args timer
          results := r.results }
  | succeeded {timer : Ref Timer} {cleared : Store} {kernel : κ} {store : Store}
      (admitted : p.admits (r.args.insertInts b) = true)
      (fresh : freshTimer p.kernel.profiler (r.args.insertInts b) r.store = (timer, cleared))
      (call : p.kernel.call (p.kernel.positional (p.callArguments b r.args timer)) r.kernel cleared =
        (true, kernel, store)) :
      Trial p b r
        { kernel := kernel
          store := store
          args := p.moveOn (p.callArguments b r.args timer)
          results := r.results ++ [⟨b, store.elapsed timer⟩] }

theorem trial_attempt (p : Plan κ) (b : Binding) (r : Run κ) : Trial p b r (attempt p b r) := by
  unfold attempt
  by_cases hadmits : p.admits (r.args.insertInts b) = true
  · rw [if_pos hadmits]
    generalize hfresh : freshTimer p.kernel.profiler (r.args.insertInts b) r.store = fresh
    obtain ⟨timer, cleared⟩ := fresh
    generalize hcall : p.kernel.call (p.kernel.positional (p.callArguments b r.args timer))
      r.kernel cleared = result
    obtain ⟨ok, kernel, store⟩ := result
    have hmeasure := hcall
    simp only [Plan.callArguments] at hmeasure
    simp only [measure, hfresh, hmeasure]
    cases ok with
    | false => exact .failed hadmits hfresh hcall
    | true => exact .succeeded hadmits hfresh hcall
  · rw [if_neg hadmits]
    exact .discarded (Bool.eq_false_iff.2 hadmits)

theorem tryAll_induction {motive : Run κ → Prop} {bs : List Binding} (h : motive r)
    (hstep : ∀ b ∈ bs, ∀ r r', motive r → Trial p b r r' → motive r') :
    motive (tryAll p bs r) := by
  induction bs generalizing r with
  | nil => exact h
  | cons b bs ih =>
    rw [tryAll]
    split
    · exact ih (hstep b List.mem_cons_self r _ h (trial_attempt p b r))
        fun c hc => hstep c (List.mem_cons_of_mem b hc)
    · exact h

theorem binding_mem_of_mem_results {bs : List Binding} (h : r.results = []) :
    ∀ x ∈ (tryAll p bs r).results, x.binding ∈ bs := by
  refine tryAll_induction (motive := fun r => ∀ x ∈ r.results, x.binding ∈ bs) (by simp [h]) ?_
  intro b hb r r' hr ht
  cases ht with
  | discarded => exact hr
  | failed => exact hr
  | succeeded =>
    intro x hx
    rcases List.mem_append.1 hx with hx | hx
    · exact hr x hx
    · rw [List.mem_singleton.1 hx]
      exact hb

def Plan.adopted (p : Plan κ) (best : TimedRun) (work : Arguments) : Arguments :=
  match p.loop with
  | some t => t.resume work (p.caller.insertInts best.binding) p.mode
  | none => p.caller.insertInts best.binding

theorem conclude_none (h : r.results.best? = none) : conclude p r = abandon p.caller r := by
  rw [conclude, h]

theorem conclude_some {best : TimedRun} (h : r.results.best? = some best) : conclude p r =
    { kernel := r.kernel
      store := (freshTimer p.kernel.profiler (p.adopted best r.args) r.store).2
      results := r.results
      answer := .ok
        ((p.adopted best r.args).insert p.kernel.profiler
          (.timer (freshTimer p.kernel.profiler (p.adopted best r.args) r.store).1),
        ⟨r.results.length, p.steps, .ofList best.binding⟩) } := by
  rw [conclude, h]
  rfl

theorem withWindow_cases (k : Kernel κ) (o : Options) (level : Level) (mode : Mode)
    (caller : Arguments) (r : Run κ) :
    withWindow k o level mode caller r = abandon caller r ∨
    timeLoops k.nests = [] ∧
      withWindow k o level mode caller r = explore (planFor k o mode caller none 1) level r ∨
    ∃ l steps args, timeLoops k.nests = [l] ∧
      (TimeLoop.ofLoop l).firstWindow? r.args o.extraSteps = some (steps, args) ∧
      withWindow k o level mode caller r =
        explore (planFor k o mode caller (some (.ofLoop l)) steps) level { r with args := args } := by
  cases hl : timeLoops k.nests with
  | nil =>
    refine .inr (.inl ⟨rfl, ?_⟩)
    simp only [withWindow, hl]
    rfl
  | cons l ls =>
    cases ls with
    | nil =>
      rw [withWindow_one hl]
      cases hw : (TimeLoop.ofLoop l).firstWindow? r.args o.extraSteps with
      | none => exact .inl rfl
      | some w => exact .inr (.inr ⟨l, w.1, w.2, rfl, hw, rfl⟩)
    | cons l' ls =>
      refine .inl ?_
      simp only [withWindow, hl]

theorem get?_insert_bound {args : Arguments} {name bound : String} {a : Argument} {v w : Int}
    (ha : ∀ v, a ≠ .int v) (hbound : args.int? bound = some v) :
    (args.insert bound (.int w)).get? name = some a ↔ args.get? name = some a := by
  rw [Table.get?_insert]
  by_cases hname : bound = name
  · subst hname
    have hne : args.get? bound ≠ some a := by
      intro h
      rw [Arguments.int?, h, Option.bind_some] at hbound
      cases a with
      | int v => exact ha v rfl
      | _ => simp [Argument.int?] at hbound
    simp [hne, (ha w).symm]
  · simp [hname]

theorem get?_firstWindow? {t : TimeLoop} {args args' : Arguments} {n steps : Int}
    (hw : t.firstWindow? args n = some (steps, args')) {name : String} {a : Argument}
    (ha : ∀ v, a ≠ .int v) : args'.get? name = some a ↔ args.get? name = some a := by
  obtain ⟨range, hrange⟩ := TimeLoop.firstWindow?_isSome (by rw [hw]; rfl)
  obtain ⟨hlo, hhi⟩ := Arguments.window?_eq_some.1 hrange
  rw [TimeLoop.firstWindow?_eq hrange] at hw
  split at hw
  · simp at hw
  · obtain ⟨-, rfl⟩ := Prod.mk.inj (Option.some.inj hw)
    rw [get?_insert_bound ha, get?_insert_bound ha hlo]
    rw [Arguments.int?_insert_of_ne _ _ t.dim.lowerName_ne_upperName, hhi]

theorem complete_firstWindow? {t : TimeLoop} {args args' : Arguments} {n steps : Int}
    {ps : List Parameter} (h : args.Complete ps)
    (hw : t.firstWindow? args n = some (steps, args')) : args'.Complete ps := by
  obtain ⟨range, hrange⟩ := TimeLoop.firstWindow?_isSome (by rw [hw]; rfl)
  rw [TimeLoop.firstWindow?_eq hrange] at hw
  split at hw
  · simp at hw
  · obtain ⟨-, rfl⟩ := Prod.mk.inj (Option.some.inj hw)
    exact (h.insert _ _).insert _ _

end Stencil.Tuning
