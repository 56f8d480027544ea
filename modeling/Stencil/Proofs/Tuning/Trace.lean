import Stencil.Proofs.Tuning.Candidates

namespace Stencil.Tuning

variable {κ : Type}

structure Call where
  args : List Argument
  ok : Bool
  deriving DecidableEq

def recorded (k : Kernel κ) : Kernel (κ × List Call) where
  toSignature := k.toSignature
  call args s store :=
    let (ok, kernel, store) := k.call args s.1 store
    (ok, (kernel, s.2 ++ [⟨args, ok⟩]), store)

def Plan.recorded (p : Plan κ) : Plan (κ × List Call) where
  kernel := Tuning.recorded p.kernel
  options := p.options
  mode := p.mode
  caller := p.caller
  loop := p.loop
  steps := p.steps
  workloads := p.workloads

namespace Run

def forget (r : Run (κ × List Call)) : Run κ := ⟨r.kernel.1, r.store, r.args, r.results⟩

def log (r : Run (κ × List Call)) : List Call := r.kernel.2

end Run

def Outcome.forget (x : Outcome (κ × List Call)) : Outcome κ :=
  ⟨x.kernel.1, x.store, x.results, x.answer⟩

theorem measure_forget (p : Plan κ) (b : Binding) (r : Run (κ × List Call)) :
    (measure p.recorded b r).forget = measure p b r.forget := by
  have hargs : r.forget.args = r.args := rfl
  have hstore : r.forget.store = r.store := rfl
  simp only [measure, hargs, hstore]
  generalize hf : freshTimer p.kernel.profiler r.args r.store = fresh
  have hf' : freshTimer p.recorded.kernel.profiler r.args r.store = fresh := hf
  rw [hf']
  generalize hc : p.kernel.call (p.kernel.positional
    (r.args.insert p.kernel.profiler (.timer fresh.1))) r.kernel.1 fresh.2 = result
  have hc' : p.kernel.call (p.kernel.positional
    (r.args.insert p.kernel.profiler (.timer fresh.1))) r.forget.kernel fresh.2 = result := hc
  simp only [Plan.recorded, recorded, hc, hc']
  cases result.1 <;> rfl

theorem attempt_forget (p : Plan κ) (b : Binding) (r : Run (κ × List Call)) :
    (attempt p.recorded b r).forget = attempt p b r.forget := by
  have hargs : r.forget.args = r.args := rfl
  have hadmits : p.recorded.admits (r.args.insertInts b) = p.admits (r.args.insertInts b) := rfl
  simp only [attempt, hargs, hadmits]
  by_cases h : p.admits (r.args.insertInts b) = true
  · rw [if_pos h, if_pos h, measure_forget]
    rfl
  · rw [if_neg h, if_neg h]
    rfl

def tryAll (p : Plan κ) : List Binding → Run κ → Run κ
  | [], r => r
  | b :: bs, r => if p.inRange r.args then tryAll p bs (attempt p b r) else r

theorem search_eq (p : Plan κ) (s : SearchSpace) (g : Sweep) (r : Run κ) :
    search p s g r = tryAll p (g.rest s) r := by
  fun_induction search p s g r with
  | case1 g r b g' hnext _ hrange ih =>
    rw [Sweep.rest_of_next_some hnext, tryAll, if_pos hrange, ih]
  | case2 g r b g' hnext _ hrange =>
    rw [Sweep.rest_of_next_some hnext, tryAll, if_neg hrange]
  | case3 g r g' hnext =>
    rw [Sweep.rest_of_next_none hnext, tryAll]

theorem tryAll_forget (p : Plan κ) (bs : List Binding) (r : Run (κ × List Call)) :
    (tryAll p.recorded bs r).forget = tryAll p bs r.forget := by
  induction bs generalizing r with
  | nil => rfl
  | cons b bs ih =>
    have hrange : p.recorded.inRange r.args = p.inRange r.forget.args := rfl
    simp only [tryAll, hrange]
    split
    · rw [ih, attempt_forget]
    · rfl

def conclude (p : Plan κ) (r : Run κ) : Outcome κ :=
  match r.results.best? with
  | some best => adopt p best r
  | none => abandon p.caller r

theorem explore_eq (p : Plan κ) (level : Level) (r : Run κ) : explore p level r =
    conclude p (tryAll p (candidates p.kernel.toSignature p.options level p.caller) r) :=
  congrArg (conclude p) (search_eq p _ {} r)

theorem conclude_forget (p : Plan κ) (r : Run (κ × List Call)) :
    (conclude p.recorded r).forget = conclude p r.forget := by
  have hresults : r.forget.results = r.results := rfl
  unfold conclude
  rw [hresults]
  cases r.results.best? <;> rfl

theorem explore_forget (p : Plan κ) (level : Level) (r : Run (κ × List Call)) :
    (explore p.recorded level r).forget = explore p level r.forget := by
  rw [explore_eq, explore_eq, conclude_forget, tryAll_forget]
  rfl

def planFor (k : Kernel κ) (o : Options) (mode : Mode) (caller : Arguments)
    (loop : Option TimeLoop) (steps : Int) : Plan κ where
  kernel := k
  options := o
  mode := mode
  caller := caller
  loop := loop
  steps := steps
  workloads := Workload.ofNests k.nests k.blocks (k.ofKind .threads)

theorem withWindow_one {k : Kernel κ} {l : Loop} (hloop : timeLoops k.nests = [l]) (o : Options)
    (level : Level) (mode : Mode) (caller : Arguments) (r : Run κ) :
    withWindow k o level mode caller r =
      match (TimeLoop.ofLoop l).firstWindow? r.args o.extraSteps with
      | some (steps, args) =>
        explore (planFor k o mode caller (some (.ofLoop l)) steps) level { r with args := args }
      | none => abandon caller r := by
  simp only [withWindow, hloop]
  rfl

theorem withWindow_forget (k : Kernel κ) (o : Options) (level : Level) (mode : Mode)
    (caller : Arguments) (r : Run (κ × List Call)) :
    (withWindow (recorded k) o level mode caller r).forget =
      withWindow k o level mode caller r.forget := by
  have hnests : (recorded k).nests = k.nests := rfl
  cases hl : timeLoops k.nests with
  | nil =>
    simp only [withWindow, hnests, hl]
    exact explore_forget (planFor k o mode caller none 1) level r
  | cons l ls =>
    cases ls with
    | nil =>
      rw [withWindow_one hl, withWindow_one (k := recorded k) hl]
      have hargs : r.forget.args = r.args := rfl
      rw [hargs]
      cases (TimeLoop.ofLoop l).firstWindow? r.args o.extraSteps with
      | none => rfl
      | some w =>
        exact explore_forget (planFor k o mode caller (some (.ofLoop l)) w.1) level
          { r with args := w.2 }
    | cons l' ls =>
      simp only [withWindow, hnests, hl]
      rfl

def isolated (k : Kernel κ) (caller : Arguments) (r : Run κ) : Run κ :=
  let (args, store) := copyOutputs k r.args r.store
  { r with args := args, store := (SavedRanks.switchOff k.parameters caller store).2 }

theorem preemptive_eq (k : Kernel κ) (o : Options) (level : Level) (caller : Arguments)
    (r : Run κ) : ∃ saved : SavedRanks, preemptive k o level caller r =
      { withWindow k o level .preemptive caller (isolated k caller r) with
        store := saved.restore
          (withWindow k o level .preemptive caller (isolated k caller r)).store } :=
  ⟨(SavedRanks.switchOff k.parameters caller (copyOutputs k r.args r.store).2).1, rfl⟩

theorem preemptive_forget (k : Kernel κ) (o : Options) (level : Level) (caller : Arguments)
    (r : Run (κ × List Call)) :
    (preemptive (recorded k) o level caller r).forget = preemptive k o level caller r.forget := by
  let restore (x : Outcome κ) : Outcome κ := { x with store := (SavedRanks.switchOff
    k.parameters caller (copyOutputs k r.args r.store).2).1.restore x.store }
  exact congrArg restore
    (withWindow_forget k o level .preemptive caller (isolated (recorded k) caller r))

theorem ofName?_of_accept {o : Options} {level mode : String} {l : Level} {m : Mode}
    (h : o.accept level mode = .ok (l, m)) :
    Level.ofName? level = some l ∧ Mode.ofName? mode = some m := by
  simp only [Options.accept] at h
  split at h
  · split at h
    · rename_i hl hm
      obtain ⟨rfl, rfl⟩ := Prod.mk.inj (Except.ok.inj h)
      exact ⟨hl, hm⟩
    · simp at h
  · simp at h

theorem tune_idle_or_explores (k : Kernel κ) (o : Options) (results : Results)
    (level mode : String) (caller : Arguments) (kernel : κ) (store : Store) :
    ((tune k o results level mode caller kernel store).kernel = kernel ∧
      (tune k o results level mode caller kernel store).store = store ∧
      ∀ args summary, (tune k o results level mode caller kernel store).answer =
        .ok (args, summary) → args = caller ∧ summary = {}) ∨
    ∃ level' mode' args, o.accept level mode = .ok (level', mode') ∧
      bindParameters k.parameters caller = .ok args ∧
      tune k o results level mode caller kernel store = match mode' with
        | .preemptive => preemptive k o level' caller ⟨kernel, store, args, []⟩
        | .runtime => withWindow k o level' .runtime caller ⟨kernel, store, args, []⟩ := by
  unfold tune
  cases haccept : o.accept level mode with
  | error e => exact .inl ⟨rfl, rfl, by simp⟩
  | ok accepted =>
    obtain ⟨level', mode'⟩ := accepted
    dsimp only
    split
    · refine .inl ⟨rfl, rfl, fun args summary h => ?_⟩
      obtain ⟨rfl, rfl⟩ := Prod.mk.inj (Except.ok.inj h)
      exact ⟨rfl, rfl⟩
    · cases hbind : bindParameters k.parameters caller with
      | error e => exact .inl ⟨rfl, rfl, by simp⟩
      | ok args =>
        exact .inr ⟨level', mode', args, rfl, rfl, rfl⟩

theorem tune_cases (k : Kernel κ) (o : Options) (results : Results) (level mode : String)
    (caller : Arguments) (kernel : κ) (store : Store) :
    ((tune k o results level mode caller kernel store).kernel = kernel ∧
      ∀ args summary, (tune k o results level mode caller kernel store).answer =
        .ok (args, summary) → args = caller) ∨
    ∃ level' mode' args, Mode.ofName? mode = some mode' ∧
      bindParameters k.parameters caller = .ok args ∧
      tune k o results level mode caller kernel store = match mode' with
        | .preemptive => preemptive k o level' caller ⟨kernel, store, args, []⟩
        | .runtime => withWindow k o level' .runtime caller ⟨kernel, store, args, []⟩ :=
  (tune_idle_or_explores k o results level mode caller kernel store).imp
    (fun h => ⟨h.1, fun args summary ha => (h.2.2 args summary ha).1⟩)
    fun ⟨level', mode', args, haccept, h⟩ => ⟨level', mode', args, (ofName?_of_accept haccept).2, h⟩

theorem tune_forget (k : Kernel κ) (o : Options) (results : Results) (level mode : String)
    (caller : Arguments) (kernel : κ) (log : List Call) (store : Store) :
    (tune (recorded k) o results level mode caller (kernel, log) store).forget =
      tune k o results level mode caller kernel store := by
  have hsig : (recorded k).toSignature = k.toSignature := rfl
  unfold tune
  simp only [hsig]
  split
  · rfl
  · split
    · rfl
    · split
      · rfl
      · split
        · exact preemptive_forget ..
        · exact withWindow_forget ..

def calls (k : Kernel κ) (o : Options) (results : Results) (level mode : String)
    (caller : Arguments) (kernel : κ) (store : Store) : List Call :=
  (tune (recorded k) o results level mode caller (kernel, []) store).kernel.2

def Plan.callArguments (p : Plan κ) (b : Binding) (args : Arguments) (timer : Ref Timer) :
    Arguments :=
  (args.insertInts b).insert p.kernel.profiler (.timer timer)

def Plan.moveOn (p : Plan κ) (args : Arguments) : Arguments :=
  match p.loop with
  | some t => t.slide args p.steps p.mode
  | none => args

inductive Attempt (p : Plan κ) (b : Binding) (r : Run (κ × List Call)) :
    Run (κ × List Call) → Prop
  | discarded : Attempt p b r { r with args := r.args.insertInts b }
  | failed (timer : Ref Timer) (kernel : κ) (store : Store) : Attempt p b r
      { kernel := (kernel,
          r.log ++ [⟨p.kernel.positional (p.callArguments b r.args timer), false⟩])
        store := store
        args := p.callArguments b r.args timer
        results := r.results }
  | succeeded (timer : Ref Timer) (kernel : κ) (store : Store) (elapsed : Binary64) : Attempt p b r
      { kernel := (kernel,
          r.log ++ [⟨p.kernel.positional (p.callArguments b r.args timer), true⟩])
        store := store
        args := p.moveOn (p.callArguments b r.args timer)
        results := r.results ++ [⟨b, elapsed⟩] }

theorem attempt_step (p : Plan κ) (b : Binding) (r : Run (κ × List Call)) :
    Attempt p b r (attempt p.recorded b r) := by
  simp only [attempt]
  split
  · generalize hf : freshTimer p.kernel.profiler (r.args.insertInts b) r.store = fresh
    generalize hc : p.kernel.call
      (p.kernel.positional (p.callArguments b r.args fresh.1)) r.kernel.1 fresh.2 = result
    obtain ⟨ok, kernel, store⟩ := result
    have hm : measure p.recorded b { r with args := r.args.insertInts b } =
        if ok then
          { kernel := (kernel, r.log ++
              [⟨p.kernel.positional (p.callArguments b r.args fresh.1), true⟩])
            store := store
            args := p.moveOn (p.callArguments b r.args fresh.1)
            results := r.results ++ [⟨b, store.elapsed fresh.1⟩] }
        else
          { kernel := (kernel, r.log ++
              [⟨p.kernel.positional (p.callArguments b r.args fresh.1), false⟩])
            store := store
            args := p.callArguments b r.args fresh.1
            results := r.results } := by
      subst hf
      simp only [Plan.callArguments] at hc
      simp only [measure, Plan.recorded, recorded, hc]
      cases ok <;> rfl
    rw [hm]
    split
    · exact .succeeded fresh.1 kernel store _
    · exact .failed fresh.1 kernel store
  · exact .discarded

end Stencil.Tuning
