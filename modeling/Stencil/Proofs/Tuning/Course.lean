import Stencil.Proofs.Tuning.Preemptive
import Stencil.Proofs.Tuning.Selection

namespace Stencil

/-- The fastest of some runs, and the earliest of several. Times are compared by the total order
of floating-point numbers. -/
def Results.Fastest (rs : Results) (best : TimedRun) : Prop :=
  ∃ pre post, rs = pre ++ best :: post ∧
    (∀ x ∈ pre, Binary64.cmp best.elapsed x.elapsed = .lt) ∧
    ∀ x ∈ post, Binary64.cmp x.elapsed best.elapsed ≠ .lt

def TimeLoop.resumedName (t : TimeLoop) : String :=
  if t.isBackward then t.dim.upperName else t.dim.lowerName

namespace Tuning

variable {κ : Type} {p : Plan κ}

theorem candidates_eq (k : Signature) (o : Options) (level : Level) (caller : Arguments) :
    candidates k o level caller =
      let shapes := Candidates.blockShapes k.blocks caller level o
      let counts := Candidates.threadCounts (k.ofKind .threads) caller level o
      if shapes = [] then counts
      else if counts = [] then shapes
      else shapes.flatMap fun b => counts.map (b ++ ·) :=
  SearchSpace.runs_add_add _ _

inductive Visit where
  | discarded (b : Binding)
  | called (b : Binding) (c : Call) (elapsed : Binary64)

namespace Visit

def binding : Visit → Binding
  | discarded b | called b _ _ => b

def call? : Visit → Option Call
  | discarded _ => none
  | called _ c _ => some c

def timed? : Visit → Option TimedRun
  | discarded _ => none
  | called b c elapsed => if c.ok then some ⟨b, elapsed⟩ else none

theorem length_timed (vs : List Visit) : (vs.filterMap timed?).length =
    ((vs.filterMap call?).filter (·.ok)).length := by
  induction vs with
  | nil => rfl
  | cons v vs ih =>
    cases v with
    | discarded b => exact ih
    | called b c elapsed =>
      by_cases hok : c.ok = true
      · simp [call?, timed?, hok, ih]
      · simp [call?, timed?, hok, ih]

end Visit

/-- Some thread gets a whole block of work, unless that does not matter, and what is needed of the
stack is known and there. -/
structure Plan.Suits (p : Plan κ) (args : Arguments) : Prop where
  work : p.options.permitSmall = true ∨ Workload.starved p.workloads args = false
  stack : ∀ e, p.kernel.footprint = some e → ∃ bytes,
    e.eval (Env.ofSymbols Binary64.truncate args.scalars) = .ok bytes ∧
      Binary64.less (.ofInt p.options.stackLimit) bytes = false

theorem Plan.admits_iff {args : Arguments} : p.admits args = true ↔ p.Suits args := by
  have hstack : p.fitsStack args = true ↔ ∀ e, p.kernel.footprint = some e → ∃ bytes,
      e.eval (Env.ofSymbols Binary64.truncate args.scalars) = .ok bytes ∧
        Binary64.less (.ofInt p.options.stackLimit) bytes = false := by
    unfold Plan.fitsStack
    cases p.kernel.footprint with
    | none => simp
    | some e =>
      cases he : e.eval (Env.ofSymbols Binary64.truncate args.scalars) <;> simp [he]
  have hwork : (p.options.permitSmall || !Workload.starved p.workloads args) = true ↔
      p.options.permitSmall = true ∨ Workload.starved p.workloads args = false := by simp
  rw [Plan.admits, Bool.and_eq_true, hstack, hwork]
  constructor
  · intro h
    exact ⟨h.1, h.2⟩
  · intro h
    exact ⟨h.work, h.stack⟩

theorem eq_zero_of_freshTimer {profiler : String} {args : Arguments} {s began : Store}
    {timer : Ref Timer} (h : freshTimer profiler args s = (timer, began)) :
    ∀ x ∈ ((began.timers.get? timer).getD .empty).values, x = .zero := by
  rcases freshTimer_cases profiler args s with ⟨t, -, ht⟩ | ⟨-, ht⟩
  · obtain ⟨rfl, rfl⟩ := Prod.mk.inj (h.symm.trans ht)
    rw [Store.clearTimer, Cells.get?_update_self]
    cases s.timers.get? timer with
    | none => simp [Table.empty, Table.values]
    | some t =>
      intro x hx
      simp only [Option.map_some, Option.getD_some, Table.values, Timer.cleared, Table.mapValues,
        List.map_map, List.mem_map] at hx
      obtain ⟨y, -, rfl⟩ := hx
      rfl
  · have htimer : began.timers.get? timer = some .empty := by
      obtain ⟨rfl, rfl⟩ := Prod.mk.inj (h.symm.trans ht)
      exact (Cells.get?_new _ _ _).trans (if_pos rfl)
    simp [htimer, Table.empty, Table.values]

/-- What a session does with a candidate. Every call starts with a timer whose counters are all
zero. -/
inductive Step (p : Plan κ) (r : Run κ) : Visit → Run κ → Prop
  | discarded {b : Binding} (unsuited : ¬ p.Suits (r.args.insertInts b)) :
      Step p r (.discarded b) { r with args := r.args.insertInts b }
  | called {b : Binding} {timer : Ref Timer} {began ended : Store} {ok : Bool} {kernel : κ}
      (suited : p.Suits (r.args.insertInts b))
      (fresh : freshTimer p.kernel.profiler (r.args.insertInts b) r.store = (timer, began))
      (zero : ∀ x ∈ ((began.timers.get? timer).getD .empty).values, x = .zero)
      (call : p.kernel.call (p.kernel.positional (p.callArguments b r.args timer)) r.kernel began =
        (ok, kernel, ended)) :
      Step p r (.called b ⟨p.kernel.positional (p.callArguments b r.args timer), ok⟩
          (ended.elapsed timer))
        { kernel := kernel
          store := ended
          args := if ok then p.moveOn (p.callArguments b r.args timer)
            else p.callArguments b r.args timer
          results := if ok then r.results ++ [⟨b, ended.elapsed timer⟩] else r.results }

/-- Candidates that are considered one after the other, as long as the next window of time steps
lies within the range of the caller. -/
inductive Course (p : Plan κ) : Run κ → List Visit → Run κ → Prop
  | nil {r : Run κ} : Course p r [] r
  | cons {r r' r'' : Run κ} {v : Visit} {vs : List Visit} (inRange : p.inRange r.args = true)
      (step : Step p r v r') (rest : Course p r' vs r'') : Course p r (v :: vs) r''

theorem Step.results {r r' : Run κ} {v : Visit} (h : Step p r v r') :
    r'.results = r.results ++ v.timed?.toList := by
  cases h with
  | discarded => exact (List.append_nil _).symm
  | @called b timer began ended ok kernel =>
    cases ok with
    | false => exact (List.append_nil _).symm
    | true => rfl

theorem Course.results {r r' : Run κ} {vs : List Visit} (h : Course p r vs r') :
    r'.results = r.results ++ vs.filterMap (·.timed?) := by
  induction h with
  | nil => exact (List.append_nil _).symm
  | @cons r r' r'' v vs _ hstep _ ih =>
    rw [ih, hstep.results, List.append_assoc, List.filterMap_cons]
    cases v.timed? <;> rfl

theorem recorded_call {k : Kernel κ} {args : List Argument} {s s' : κ × List Call}
    {store store' : Store} {ok : Bool} (h : (recorded k).call args s store = (ok, s', store')) :
    k.call args s.1 store = (ok, s'.1, store') ∧ s'.2 = s.2 ++ [⟨args, ok⟩] := by
  simp only [recorded, Prod.mk.injEq] at h
  obtain ⟨rfl, rfl, rfl⟩ := h
  exact ⟨rfl, rfl⟩

theorem step_attempt (p : Plan κ) (b : Binding) (r : Run (κ × List Call)) :
    ∃ v, v.binding = b ∧ Step p r.forget v (attempt p.recorded b r).forget ∧
      (attempt p.recorded b r).log = r.log ++ v.call?.toList := by
  have htrial := trial_attempt p.recorded b r
  generalize attempt p.recorded b r = r' at htrial ⊢
  cases htrial with
  | discarded rejected =>
    refine ⟨.discarded b, rfl, .discarded ?_, (List.append_nil _).symm⟩
    intro hsuits
    have hadmits : p.admits (r.args.insertInts b) = true := Plan.admits_iff.2 hsuits
    exact absurd rejected (by rw [show p.recorded.admits _ = true from hadmits]; decide)
  | @failed timer _ _ store admitted fresh call =>
    obtain ⟨hcall, hlog⟩ := recorded_call call
    have hsuits : p.Suits (r.args.insertInts b) := Plan.admits_iff.1 admitted
    refine ⟨.called b ⟨p.kernel.positional (p.callArguments b r.args timer), false⟩
      (store.elapsed timer), rfl, ?_, hlog⟩
    exact .called hsuits fresh (eq_zero_of_freshTimer fresh) hcall
  | @succeeded timer _ _ store admitted fresh call =>
    obtain ⟨hcall, hlog⟩ := recorded_call call
    have hsuits : p.Suits (r.args.insertInts b) := Plan.admits_iff.1 admitted
    refine ⟨.called b ⟨p.kernel.positional (p.callArguments b r.args timer), true⟩
      (store.elapsed timer), rfl, ?_, hlog⟩
    exact .called hsuits fresh (eq_zero_of_freshTimer fresh) hcall

theorem course_tryAll (p : Plan κ) (bs : List Binding) (r : Run (κ × List Call)) :
    ∃ vs later, bs = vs.map (·.binding) ++ later ∧
      Course p r.forget vs (tryAll p.recorded bs r).forget ∧
      (tryAll p.recorded bs r).log = r.log ++ vs.filterMap (·.call?) ∧
      (later ≠ [] → p.inRange (tryAll p.recorded bs r).args = false) := by
  induction bs generalizing r with
  | nil => exact ⟨[], [], rfl, .nil, (List.append_nil _).symm, absurd rfl⟩
  | cons b bs ih =>
    have hrecorded : p.recorded.inRange r.args = p.inRange r.args := rfl
    rw [tryAll, hrecorded]
    cases hrange : p.inRange r.args with
    | false => exact ⟨[], b :: bs, rfl, .nil, (List.append_nil _).symm, fun _ => hrange⟩
    | true =>
      obtain ⟨v, rfl, hstep, hlog⟩ := step_attempt p b r
      obtain ⟨vs, later, hsplit, hcourse, hcalls, hstop⟩ := ih (attempt p.recorded v.binding r)
      refine ⟨v :: vs, later, congrArg _ hsplit, .cons hrange hstep hcourse, ?_, hstop⟩
      rw [if_pos rfl, hcalls, hlog, List.append_assoc, List.filterMap_cons]
      cases v.call? <;> rfl

/-- The state in which a session starts: with the arguments of all parameters and, in `preemptive`
mode, with copies for outputs and no exchange. -/
def opening (k : Kernel κ) (m : Mode) (caller bound : Arguments) (kernel : κ) (store : Store) :
    Run κ :=
  match m with
  | .preemptive => isolated k caller ⟨kernel, store, bound, []⟩
  | .runtime => ⟨kernel, store, bound, []⟩

inductive Opens (k : Signature) (o : Options) (args : Arguments) :
    Option TimeLoop → Int → Arguments → Prop
  | timeless (hloops : timeLoops k.nests = []) : Opens k o args none 1 args
  | windowed {l : Loop} {steps : Int} {args' : Arguments} (hloops : timeLoops k.nests = [l])
      (hfirst : (TimeLoop.ofLoop l).firstWindow? args o.extraSteps = some (steps, args')) :
      Opens k o args (some (.ofLoop l)) steps args'

/-- There is no time loop, or one whose bounds are given, and a window is not empty. -/
def HasWindow (k : Signature) (o : Options) (caller : Arguments) : Prop :=
  timeLoops k.nests = [] ∨ ∃ l range, timeLoops k.nests = [l] ∧ Declares k l.dim ∧
    caller.window? l.dim = some range ∧ 0 ≤ o.extraSteps

section Opening

variable {k : Kernel κ} {o : Options} {m : Mode} {caller bound args : Arguments} {kernel : κ}
  {store : Store} {loop : Option TimeLoop} {steps : Int}

theorem window?_opening (m : Mode) (kernel : κ) (store : Store) {d : Dimension} {range : Window}
    (hbind : bindParameters k.parameters caller = .ok bound) (hd : Declares k.toSignature d)
    (hrange : caller.window? d = some range) :
    (opening k m caller bound kernel store).args.window? d = some range := by
  have hbound : bound.window? d = some range := by
    have hint : ∀ name ∈ k.parameters.map (·.name), bound.int? name = caller.int? name := by
      intro name hname
      rw [Arguments.int?, get?_bindParameters hbind, if_pos hname, Arguments.int?]
    rw [Arguments.window?_eq_some, hint _ hd.1, hint _ hd.2]
    exact Arguments.window?_eq_some.1 hrange
  cases m with
  | preemptive => exact (window?_copyOutputs k bound store d).trans hbound
  | runtime => exact hbound

theorem exists_opens (hbind : bindParameters k.parameters caller = .ok bound)
    (h : HasWindow k.toSignature o caller) : ∃ loop steps args,
      Opens k.toSignature o (opening k m caller bound kernel store).args loop steps args := by
  rcases h with hnone | ⟨l, range, hone, hd, hrange, hsteps⟩
  · exact ⟨_, _, _, .timeless hnone⟩
  · have hfirst := (TimeLoop.ofLoop l).firstWindow?_eq
      (window?_opening m kernel store hbind hd hrange) o.extraSteps
    rw [if_neg (by omega)] at hfirst
    exact ⟨_, _, _, .windowed hone hfirst⟩

theorem withWindow_of_opens {r : Run κ} {level : Level}
    (h : Opens k.toSignature o r.args loop steps args) : withWindow k o level m caller r =
      explore (planFor k o m caller loop steps) level { r with args := args } := by
  cases h with
  | timeless hloops =>
    simp only [withWindow, hloops]
    rfl
  | windowed hloops hfirst => rw [withWindow_one hloops, hfirst]

theorem tune_of_opens {results : Results} {level mode : String} {l : Level}
    (haccept : o.accept level mode = .ok (l, m))
    (htunable : (k.blocks.isEmpty && (k.ofKind .threads).isEmpty) = false)
    (hbind : bindParameters k.parameters caller = .ok bound)
    (hopens : Opens k.toSignature o (opening k m caller bound kernel store).args loop steps args) :
    ∃ final, tune k o results level mode caller kernel store =
      { explore (planFor k o m caller loop steps) l
          { opening k m caller bound kernel store with args := args } with store := final } := by
  unfold tune
  simp only [haccept, htunable, hbind, Bool.false_eq_true, if_false]
  cases m with
  | preemptive =>
    obtain ⟨saved, hsaved⟩ := preemptive_eq k o l caller ⟨kernel, store, bound, []⟩
    have hwindow : withWindow k o l .preemptive caller
        (isolated k caller ⟨kernel, store, bound, []⟩) = _ := withWindow_of_opens hopens
    rw [hwindow] at hsaved
    exact ⟨_, hsaved⟩
  | runtime => exact ⟨_, withWindow_of_opens hopens⟩

end Opening

theorem isSome_bindFold {ps : List Parameter} {caller : Arguments} (h : caller.Complete ps)
    (start : Arguments) : ∃ args, ps.foldlM (fun (args : Arguments) p =>
      match caller.get? p.name with
      | some v => Except.ok (args.insert p.name v)
      | none => .error (TuningError.missingArgument p.name)) start = .ok args := by
  induction ps generalizing start with
  | nil => exact ⟨start, rfl⟩
  | cons p ps ih =>
    obtain ⟨v, hv⟩ := Option.isSome_iff_exists.1 (h p List.mem_cons_self)
    obtain ⟨args, hargs⟩ := ih (fun q hq => h q (List.mem_cons_of_mem p hq)) (start.insert p.name v)
    refine ⟨args, ?_⟩
    rw [List.foldlM_cons, hv]
    exact hargs

theorem candidates_eq_nil {k : Signature} {o : Options} {level : Level} {caller : Arguments}
    (h : (k.blocks.isEmpty && (k.ofKind .threads).isEmpty) = true) :
    candidates k o level caller = [] := by
  rw [Bool.and_eq_true, List.isEmpty_iff, List.isEmpty_iff] at h
  rw [candidates_eq, h.1, h.2]
  cases level <;> simp [Candidates.blockShapes, Candidates.domain, Candidates.threadCounts]

theorem get?_insert_adopted {best : TimedRun} {work : Arguments} {timer : Ref Timer}
    {name : String} (hbinding : name ∉ Candidates.names best.binding)
    (hprofiler : name ≠ p.kernel.profiler)
    (hbound : ∀ t, p.loop = some t → p.mode = .runtime → name ≠ t.resumedName) :
    ((p.adopted best work).insert p.kernel.profiler (.timer timer)).get? name =
      p.caller.get? name := by
  have hints : (p.caller.insertInts best.binding).get? name = p.caller.get? name := by
    apply Arguments.get?_insertInts
    rintro x hx rfl
    exact hbinding (List.mem_map_of_mem hx)
  rw [Table.get?_insert_of_ne _ _ hprofiler.symm, ← hints, Plan.adopted]
  cases hloop : p.loop with
  | none => rfl
  | some t =>
    dsimp only
    cases hmode : p.mode with
    | preemptive => rfl
    | runtime =>
      simp only [TimeLoop.resume]
      split
      · exact Table.get?_insert_of_ne _ _ (hbound t hloop hmode).symm
      · rfl

theorem runtime_of_inRange {args : Arguments} (h : p.inRange args = false) : p.mode = .runtime := by
  unfold Plan.inRange at h
  cases hmode : p.mode with
  | runtime => rfl
  | preemptive => cases hloop : p.loop <;> simp [hloop, hmode, TimeLoop.fits] at h

theorem conclude_of_ne_nil {r : Run κ} (h : r.results ≠ []) :
    ∃ args best, (conclude p r).answer =
        .ok (args, ⟨r.results.length, p.steps, .ofList best.binding⟩) ∧
      r.results.Fastest best ∧
      ∀ name, name ∉ Candidates.names best.binding → name ≠ p.kernel.profiler →
        (∀ t, p.loop = some t → p.mode = .runtime → name ≠ t.resumedName) →
        args.get? name = p.caller.get? name := by
  cases hbest : r.results.best? with
  | none => exact absurd (Results.best?_eq_none hbest) h
  | some best =>
    rw [conclude_some hbest]
    refine ⟨_, best, rfl, Results.best?_split hbest, ?_⟩
    intro name hbinding hprofiler hbound
    exact get?_insert_adopted hbinding hprofiler hbound

theorem kernel_conclude (r : Run κ) : (conclude p r).kernel = r.kernel := by
  cases hbest : r.results.best? with
  | none => rw [conclude_none hbest]; rfl
  | some best => rw [conclude_some hbest]

/-- A session considers the pairs of block shapes and thread counts in order, up to the first one
for which no time steps are left. It calls the kernel once with each of these that suits, and with
no other. If a call succeeds, the fastest one is adopted. -/
theorem tune_course {k : Kernel κ} {o : Options} {level mode : String} {l : Level} {m : Mode}
    {caller : Arguments} (haccept : o.accept level mode = .ok (l, m))
    (hcomplete : caller.Complete k.parameters) (hwindow : HasWindow k.toSignature o caller)
    (results : Results) (kernel : κ) (store : Store) :
    ∃ bound loop steps args vs later last,
      bindParameters k.parameters caller = .ok bound ∧
      Opens k.toSignature o (opening k m caller bound kernel store).args loop steps args ∧
      candidates k.toSignature o l caller = vs.map (·.binding) ++ later ∧
      Course (planFor k o m caller loop steps)
        { opening k m caller bound kernel store with args := args } vs last ∧
      (later ≠ [] → m = .runtime ∧ (planFor k o m caller loop steps).inRange last.args = false) ∧
      calls k o results level mode caller kernel store = vs.filterMap (·.call?) ∧
      ((∃ c ∈ calls k o results level mode caller kernel store, c.ok = true) →
        ∃ args' summary best,
          (tune k o results level mode caller kernel store).answer = .ok (args', summary) ∧
          summary.runs =
            ((calls k o results level mode caller kernel store).filter (·.ok)).length ∧
          Results.Fastest (vs.filterMap (·.timed?)) best ∧
          summary.tuned = .ofList best.binding ∧
          ∀ name, name ∉ Candidates.names best.binding → name ≠ k.profiler →
            (∀ t, loop = some t → m = .runtime → name ≠ t.resumedName) →
            args'.get? name = caller.get? name) := by
  obtain ⟨bound, hbind⟩ : ∃ bound, bindParameters k.parameters caller = .ok bound :=
    isSome_bindFold hcomplete .empty
  obtain ⟨loop, steps, args, hopens⟩ : ∃ loop steps args, Opens k.toSignature o
      (opening k m caller bound kernel store).args loop steps args := exists_opens hbind hwindow
  cases htunable : k.blocks.isEmpty && (k.ofKind .threads).isEmpty with
  | true =>
    have hcalls : calls k o results level mode caller kernel store = [] := by
      have htunable' : ((recorded k).blocks.isEmpty && ((recorded k).ofKind .threads).isEmpty) =
        true := htunable
      simp only [calls, tune, haccept, htunable', if_true, abandon]
    refine ⟨bound, loop, steps, args, [], [], _, hbind, hopens, candidates_eq_nil htunable, .nil,
      absurd rfl, hcalls, ?_⟩
    rintro ⟨c, hc, -⟩
    rw [hcalls] at hc
    contradiction
  | false =>
    -- The session is run with the recording kernel, whose log the calls are. That it records is
    -- forgotten where the answer is compared.
    let p := planFor k o m caller loop steps
    let r : Run (κ × List Call) :=
      { opening (recorded k) m caller bound (kernel, []) store with args := args }
    have hforget : r.forget = { opening k m caller bound kernel store with args := args } := by
      cases m <;> rfl
    have hlog : r.log = [] := by cases m <;> rfl
    have hresults : r.forget.results = [] := by cases m <;> rfl
    obtain ⟨final, htune⟩ : ∃ final,
        tune (recorded k) o results level mode caller (kernel, []) store =
          { explore p.recorded l r with store := final } := by
      have hopens' : Opens (recorded k).toSignature o
          (opening (recorded k) m caller bound (kernel, []) store).args loop steps args := by
        cases m <;> exact hopens
      exact tune_of_opens haccept htunable hbind hopens'
    obtain ⟨vs, later, hsplit, hcourse, hcalls, hstop⟩ :=
      course_tryAll p (candidates k.toSignature o l caller) r
    rw [hlog, List.nil_append] at hcalls
    have hrecords := hcourse.results
    rw [hresults, List.nil_append] at hrecords
    generalize hlast : tryAll p.recorded (candidates k.toSignature o l caller) r = last at *
    have hexplore : explore p.recorded l r = conclude p.recorded last := hlast ▸ explore_eq ..
    have hlast' : calls k o results level mode caller kernel store = last.log := by
      rw [calls, htune, hexplore]
      exact congrArg Prod.snd (kernel_conclude last)
    have hanswer : (tune k o results level mode caller kernel store).answer =
        (conclude p last.forget).answer := by
      rw [← tune_forget k o results level mode caller kernel [] store, ← conclude_forget, htune,
        hexplore]
      rfl
    refine ⟨bound, loop, steps, args, vs, later, last.forget, hbind, hopens, hsplit,
      hforget ▸ hcourse, fun hlater => ⟨runtime_of_inRange (hstop hlater), hstop hlater⟩,
      hlast'.trans hcalls, ?_⟩
    rw [hlast', hcalls, hanswer, ← Visit.length_timed, ← hrecords]
    rintro ⟨c, hc, hok⟩
    have hne : last.forget.results ≠ [] := by
      obtain ⟨v, hv, hcall⟩ := List.mem_filterMap.1 hc
      cases v with
      | discarded b => simp [Visit.call?] at hcall
      | called b c' elapsed =>
        obtain rfl := Option.some.inj hcall
        have hmem : (⟨b, elapsed⟩ : TimedRun) ∈ vs.filterMap (·.timed?) :=
          List.mem_filterMap.2 ⟨_, hv, if_pos hok⟩
        rw [hrecords]
        exact List.ne_nil_of_mem hmem
    obtain ⟨args', best, ha, hbest, hframe⟩ := conclude_of_ne_nil (p := p) hne
    exact ⟨args', _, best, ha, rfl, hbest, rfl, hframe⟩

theorem tune_course_twofold :
    ({ manyCore := true } : Options).accept "aggressive" "preemptive" =
        .ok (.aggressive, .preemptive) ∧
      twofoldArguments.Complete twofold.parameters ∧
      HasWindow twofold.toSignature { manyCore := true } twofoldArguments ∧
      ∃ vs : List Visit, candidates twofold.toSignature { manyCore := true } .aggressive twofoldArguments =
          vs.map (·.binding) ∧
        twofoldCalls = vs.filterMap (·.call?) ∧
        ∃ args summary best, twofoldSession.answer = .ok (args, summary) ∧
          summary.runs = (twofoldCalls.filter (·.ok)).length ∧
          Results.Fastest (vs.filterMap (·.timed?)) best ∧
          summary.tuned = .ofList best.binding := by
  have haccept : ({ manyCore := true } : Options).accept "aggressive" "preemptive" =
    .ok (.aggressive, .preemptive) := by decide
  have hcomplete : twofoldArguments.Complete twofold.parameters := by
    unfold Arguments.Complete
    decide
  have hwindow : HasWindow twofold.toSignature { manyCore := true } twofoldArguments :=
    .inl (by decide)
  have hcall : (⟨[.int 2, .int 8, .timer ⟨0⟩], true⟩ : Call) ∈ twofoldCalls := by decide +kernel
  refine ⟨haccept, hcomplete, hwindow, ?_⟩
  obtain ⟨_, _, _, _, vs, later, _, -, -, hsplit, -, hstop, hcalls, hok⟩ :=
    tune_course haccept hcomplete hwindow [] () nothingTimed
  obtain ⟨args, summary, best, ha, hruns, hbest, htuned, -⟩ := hok ⟨_, hcall, rfl⟩
  have hlater : later = [] := by
    by_contra hne
    simpa using (hstop hne).1
  rw [hlater, List.append_nil] at hsplit
  exact ⟨vs, hsplit, hcalls, args, summary, best, ha, hruns, hbest, htuned⟩

end Tuning

end Stencil
