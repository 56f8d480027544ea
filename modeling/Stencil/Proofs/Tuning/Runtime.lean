import Stencil.Proofs.Tuning.TimeSteps

namespace Stencil.Tuning

open Arguments (Apart)

variable {κ : Type}

/-- The session slides the window along the range: the successful calls have cut off `ws`, and the
next call gets the first steps of `rest`. -/
structure Sliding (p : Plan κ) (t : TimeLoop) (range : Window) (ws : List Window) (rest : Window)
    (r : Run (κ × List Call)) : Prop where
  complete : r.args.Complete p.kernel.parameters
  cutsOff : t.CutsOff p.steps range ws rest
  next : r.args.window? t.dim = some (t.first p.steps rest)
  succeeded : (r.log.filter (·.ok)).map (·.window? p.kernel.toSignature t.dim) = ws.map some
  length_results : r.results.length = ws.length
  bindings : ∀ x ∈ r.results, ∀ y ∈ x.binding, Apart t.dim y.1

variable {p : Plan κ} {t : TimeLoop} {range rest : Window} {ws : List Window}
  {r : Run (κ × List Call)}

theorem Sliding.attempt (hloop : p.loop = some t) (hmode : p.mode = .runtime)
    (hsteps : 0 < p.steps) (hdecl : Declares p.kernel.toSignature t.dim)
    (hprof : Apart t.dim p.kernel.profiler) (hcaller : p.caller.window? t.dim = some range)
    {b : Binding} (hb : ∀ x ∈ b, Apart t.dim x.1) (h : Sliding p t range ws rest r)
    (hrange : p.inRange r.args = true) :
    ∃ ws' rest', Sliding p t range ws' rest' (attempt p.recorded b r) := by
  have hfit : if t.isBackward then range.lo ≤ (t.first p.steps rest).lo
      else (t.first p.steps rest).hi ≤ range.hi := by
    simp only [Plan.inRange, hloop, hmode, Option.all_some, TimeLoop.fits_runtime h.next hcaller]
      at hrange
    split <;> simp_all
  -- Neither the candidate nor the timer goes by the name of a bound.
  have hwindow (timer : Ref Timer) : (p.callArguments b r.args timer).window? t.dim =
      some (t.first p.steps rest) := (window?_callArguments hprof hb timer).trans h.next
  have hcomplete (timer : Ref Timer) :
      (p.callArguments b r.args timer).Complete p.kernel.parameters :=
    complete_callArguments h.complete b timer
  have hcall (timer : Ref Timer) (ok : Bool) : Call.window? p.kernel.toSignature t.dim
      ⟨p.kernel.positional (p.callArguments b r.args timer), ok⟩ =
        some (t.first p.steps rest) := by
    rw [Call.window?_positional hdecl (hcomplete timer) ok, hwindow]
  have hstep := attempt_step p b r
  generalize Tuning.attempt p.recorded b r = r' at hstep ⊢
  cases hstep with
  | discarded =>
    exact ⟨ws, rest, h.complete.insertInts b, h.cutsOff,
      (Arguments.window?_insertInts _ hb).trans h.next, h.succeeded, h.length_results, h.bindings⟩
  | failed timer kernel store =>
    refine ⟨ws, rest, hcomplete timer, h.cutsOff, hwindow timer, ?_, h.length_results, h.bindings⟩
    simp [Run.log, List.filter_append, ← h.succeeded]
  | succeeded timer kernel store elapsed =>
    refine ⟨ws ++ [t.first p.steps rest], t.afterFirst p.steps rest, ?_,
      h.cutsOff.snoc hsteps hfit, ?_, ?_, ?_, ?_⟩
    · simp only [Plan.moveOn, hloop]
      exact TimeLoop.complete_slide (hcomplete timer) _ _
    · simp only [Plan.moveOn, hloop, hmode]
      exact TimeLoop.window?_slide (hwindow timer)
    · simp [Run.log, List.filter_append, ← h.succeeded, hcall]
    · simp [h.length_results]
    · intro x hx
      rcases List.mem_append.1 hx with hx | hx
      · exact h.bindings x hx
      · rw [List.mem_singleton.1 hx]
        exact hb

theorem Sliding.tryAll (hloop : p.loop = some t) (hmode : p.mode = .runtime)
    (hsteps : 0 < p.steps) (hdecl : Declares p.kernel.toSignature t.dim)
    (hprof : Apart t.dim p.kernel.profiler) (hcaller : p.caller.window? t.dim = some range)
    {bs : List Binding} (hbs : ∀ b ∈ bs, ∀ x ∈ b, Apart t.dim x.1)
    (h : Sliding p t range ws rest r) :
    ∃ ws' rest', Sliding p t range ws' rest' (tryAll p.recorded bs r) := by
  induction bs generalizing ws rest r with
  | nil => exact ⟨ws, rest, h⟩
  | cons b bs ih =>
    rw [Tuning.tryAll]
    split
    · rename_i hrange
      obtain ⟨ws', rest', h'⟩ := h.attempt hloop hmode hsteps hdecl hprof hcaller
        (hbs b List.mem_cons_self) hrange
      exact ih (fun c hc => hbs c (List.mem_cons_of_mem b hc)) h'
    · exact ⟨ws, rest, h⟩

theorem Sliding.window?_conclude (hloop : p.loop = some t) (hmode : p.mode = .runtime)
    (hprof : Apart t.dim p.kernel.profiler) (hcaller : p.caller.window? t.dim = some range)
    (h : Sliding p t range ws rest r) {args : Arguments} {summary : Summary}
    (ha : (conclude p.recorded r).answer = .ok (args, summary)) :
    args.window? t.dim = some rest := by
  unfold conclude at ha
  cases hbest : r.results.best? with
  | none =>
    simp only [hbest, abandon] at ha
    obtain ⟨rfl, -⟩ := Prod.mk.inj (Except.ok.inj ha)
    have hnone : ws = [] := by
      rw [← List.length_eq_zero_iff, ← h.length_results, Results.best?_eq_none hbest]
      rfl
    rw [h.cutsOff.rest_all hnone]
    exact hcaller
  | some best =>
    have hbinding := h.bindings best (Results.best?_mem hbest)
    simp only [hbest, adopt, Plan.recorded, recorded, hloop, hmode] at ha
    obtain ⟨rfl, -⟩ := Prod.mk.inj (Except.ok.inj ha)
    rw [Arguments.window?_insert _ _ hprof]
    exact TimeLoop.window?_resume h.next
      ((Arguments.window?_insertInts _ hbinding).trans hcaller) h.cutsOff.rest_end

def Advances (k : Signature) (t : TimeLoop) (steps : Int) (range : Window)
    (x : Outcome (κ × List Call)) : Prop :=
  ∃ ws rest, t.CutsOff steps range ws rest ∧
    (x.kernel.2.filter (·.ok)).map (·.window? k t.dim) = ws.map some ∧
    ∀ args summary, x.answer = .ok (args, summary) → args.window? t.dim = some rest

theorem advances_idle {k : Signature} {steps : Int} {x : Outcome (κ × List Call)}
    {caller : Arguments} (hlog : x.kernel.2 = []) (hcaller : caller.window? t.dim = some range)
    (ha : ∀ args summary, x.answer = .ok (args, summary) → args = caller) :
    Advances k t steps range x := by
  refine ⟨[], range, TimeLoop.cutsOff_nil, by simp [hlog], fun args summary h => ?_⟩
  rw [ha args summary h, hcaller]

theorem advances_explore (hloop : p.loop = some t) (hmode : p.mode = .runtime)
    (hsteps : 0 < p.steps) (hdecl : Declares p.kernel.toSignature t.dim)
    (hfree : LeavesBounds p.kernel.toSignature t.dim)
    (hcaller : p.caller.window? t.dim = some range) (level : Level) (hlog : r.log = [])
    (hresults : r.results = []) (hcomplete : r.args.Complete p.kernel.parameters)
    (hnext : r.args.window? t.dim = some (t.first p.steps range)) :
    Advances p.kernel.toSignature t p.steps range (explore p.recorded level r) := by
  have hstart : Sliding p t range [] range r :=
    ⟨hcomplete, TimeLoop.cutsOff_nil, hnext, by simp [hlog], by simp [hresults],
      by simp [hresults]⟩
  have hbs : ∀ b ∈ candidates p.kernel.toSignature p.options level p.caller,
      ∀ x ∈ b, Apart t.dim x.1 :=
    fun b hb x hx => hfree.1 x.1 (mem_tunables_of_mem_candidates hb x hx)
  obtain ⟨ws, rest, h⟩ := hstart.tryAll hloop hmode hsteps hdecl hfree.2 hcaller hbs
  rw [explore_eq]
  refine ⟨ws, rest, h.cutsOff, ?_, fun args summary ha =>
    h.window?_conclude hloop hmode hfree.2 hcaller ha⟩
  rw [← h.succeeded, conclude]
  split <;> rfl

/-- In `runtime` mode no time step is lost or repeated. -/
theorem runtime_cuts_off_range {k : Kernel κ} {l : Loop} {o : Options} {caller : Arguments}
    {range : Window} (hloop : timeLoops k.nests = [l]) (hsteps : 0 ≤ o.extraSteps)
    (hcaller : caller.window? l.dim = some range)
    (hfree : LeavesBounds k.toSignature l.dim) (results : Results) (level : String) (kernel : κ)
    (store : Store) :
    ∃ ws rest, (TimeLoop.ofLoop l).CutsOff (o.extraSteps + 1) range ws rest ∧
      ((calls k o results level "runtime" caller kernel store).filter (·.ok)).map
        (·.window? k.toSignature l.dim) = ws.map some ∧
      ∀ args summary, (tune k o results level "runtime" caller kernel store).answer =
        .ok (args, summary) → args.window? l.dim = some rest := by
  rw [← tune_forget k o results level "runtime" caller kernel []]
  show Advances k.toSignature (.ofLoop l) (o.extraSteps + 1) range
    (tune (recorded k) o results level "runtime" caller (kernel, []) store)
  rcases tune_cases (recorded k) o results level "runtime" caller (kernel, []) store with
    ⟨hkernel, ha⟩ | ⟨level', mode', args, hmode, hbind, ht⟩
  · exact advances_idle (congrArg Prod.snd hkernel) hcaller ha
  · obtain rfl : Mode.runtime = mode' := Option.some.inj hmode
    rw [ht]
    dsimp only
    rw [withWindow_one (k := recorded k) hloop]
    cases hfirst : (TimeLoop.ofLoop l).firstWindow? args o.extraSteps with
    | none => exact advances_idle rfl hcaller (by simp [abandon])
    | some w =>
      obtain ⟨range', hrange⟩ := TimeLoop.firstWindow?_isSome (by rw [hfirst]; rfl)
      obtain ⟨hdecl, hcaller'⟩ := window?_bindParameters hbind hrange
      obtain rfl : range' = range := Option.some.inj (hcaller'.symm.trans hcaller)
      rw [TimeLoop.firstWindow?_eq hrange, if_neg (by omega)] at hfirst
      obtain rfl := Option.some.inj hfirst
      have hpos : 0 < o.extraSteps + 1 := by omega
      exact advances_explore
        (p := planFor k o .runtime caller (some (.ofLoop l)) (o.extraSteps + 1)) rfl rfl hpos
        hdecl hfree hcaller level' rfl rfl
        (((complete_bindParameters hbind).insert _ _).insert _ _)
        (Arguments.window?_insert_bounds _ _ _)

def idle (profiler : String) : Kernel Unit where
  parameters := [⟨"t_m", .scalar⟩, ⟨"t_M", .scalar⟩, ⟨"nthreads", .threads⟩, ⟨"timers", .timer⟩]
  dimensions := [.time (.time "t")]
  body := [[⟨0, .time "t", .forward, 1⟩]]
  profiler := profiler
  call _ _ s := (true, (), s)

def idleArguments (range : Window) : Arguments :=
  ⟨[("t_m", .int range.lo), ("t_M", .int range.hi), ("nthreads", .int 2), ("timers", .timer ⟨0⟩)]⟩

theorem runtime_cuts_off_range_idle :
    timeLoops (idle "timers").nests = [⟨0, .time "t", .forward, 1⟩] ∧
      LeavesBounds (idle "timers").toSignature (.time "t") ∧
      ∃ ws rest, (TimeLoop.ofLoop ⟨0, .time "t", .forward, 1⟩).CutsOff 5 ⟨0, 9⟩ ws rest ∧
        ((calls (idle "timers") {} [] "basic" "runtime" (idleArguments ⟨0, 9⟩) () {}).filter
          (·.ok)).map (·.window? (idle "timers").toSignature (.time "t")) = ws.map some ∧
        ∀ args summary, (tune (idle "timers") {} [] "basic" "runtime" (idleArguments ⟨0, 9⟩) ()
          {}).answer = .ok (args, summary) → args.window? (.time "t") = some rest :=
  ⟨by decide, by decide, runtime_cuts_off_range (l := ⟨0, .time "t", .forward, 1⟩) (o := {})
    (by decide) (by decide) (by decide) (by decide) [] "basic" () {}⟩

/-- A timer that takes the place of a bound hides the window from the kernel. -/
theorem profiler_hides_window :
    timeLoops (idle "t_m").nests = [⟨0, .time "t", .forward, 1⟩] ∧
      (∀ name ∈ (idle "t_m").toSignature.tunables, Apart (.time "t") name) ∧
      (idleArguments ⟨0, 9⟩).window? (.time "t") = some ⟨0, 9⟩ ∧
      ((calls (idle "t_m") {} [] "basic" "runtime" (idleArguments ⟨0, 9⟩) () {}).filter
        (·.ok)).map (·.window? (idle "t_m").toSignature (.time "t")) = [none] := by
  decide +kernel

end Stencil.Tuning
