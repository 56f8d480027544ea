import Stencil.Proofs.Tuning.Runtime

namespace Stencil.Tuning

open Arguments (Apart)

variable {κ : Type} {p : Plan κ} {t : TimeLoop} {range : Window} {r : Run (κ × List Call)}

structure Staying (p : Plan κ) (d : Dimension) (w : Window) (r : Run (κ × List Call)) :
    Prop where
  complete : r.args.Complete p.kernel.parameters
  next : r.args.window? d = some w
  called : ∀ c ∈ r.log, c.window? p.kernel.toSignature d = some w

theorem Staying.attempt {w : Window} (hloop : p.loop = some t) (hmode : p.mode = .preemptive)
    (hdecl : Declares p.kernel.toSignature t.dim) (hprof : Apart t.dim p.kernel.profiler)
    {b : Binding} (hb : ∀ x ∈ b, Apart t.dim x.1) (h : Staying p t.dim w r) :
    Staying p t.dim w (attempt p.recorded b r) := by
  have hwindow (timer : Ref Timer) : (p.callArguments b r.args timer).window? t.dim = some w :=
    (window?_callArguments hprof hb timer).trans h.next
  have hcomplete (timer : Ref Timer) :
      (p.callArguments b r.args timer).Complete p.kernel.parameters :=
    complete_callArguments h.complete b timer
  have hcalled (timer : Ref Timer) (ok : Bool) : ∀ c ∈
      r.log ++ [⟨p.kernel.positional (p.callArguments b r.args timer), ok⟩],
        c.window? p.kernel.toSignature t.dim = some w := by
    intro c hc
    rcases List.mem_append.1 hc with hc | hc
    · exact h.called c hc
    · rw [List.mem_singleton.1 hc, Call.window?_positional hdecl (hcomplete timer), hwindow]
  have hstep := attempt_step p b r
  generalize Tuning.attempt p.recorded b r = r' at hstep ⊢
  cases hstep with
  | discarded =>
    exact ⟨h.complete.insertInts b, (Arguments.window?_insertInts _ hb).trans h.next, h.called⟩
  | failed timer kernel store => exact ⟨hcomplete timer, hwindow timer, hcalled timer false⟩
  | succeeded timer kernel store elapsed =>
    have hstay (args : Arguments) : p.moveOn args = args := by
      simp [Plan.moveOn, hloop, hmode, TimeLoop.slide]
    refine ⟨?_, ?_, hcalled timer true⟩
    · rw [hstay]
      exact hcomplete timer
    · rw [hstay]
      exact hwindow timer

theorem Staying.tryAll {w : Window} (hloop : p.loop = some t) (hmode : p.mode = .preemptive)
    (hdecl : Declares p.kernel.toSignature t.dim) (hprof : Apart t.dim p.kernel.profiler)
    {bs : List Binding} (hbs : ∀ b ∈ bs, ∀ x ∈ b, Apart t.dim x.1) (h : Staying p t.dim w r) :
    Staying p t.dim w (tryAll p.recorded bs r) := by
  induction bs generalizing r with
  | nil => exact h
  | cons b bs ih =>
    rw [Tuning.tryAll]
    split
    · exact ih (fun c hc => hbs c (List.mem_cons_of_mem b hc))
        (h.attempt hloop hmode hdecl hprof (hbs b List.mem_cons_self))
    · exact h

theorem called_explore {w : Window} (hloop : p.loop = some t) (hmode : p.mode = .preemptive)
    (hdecl : Declares p.kernel.toSignature t.dim)
    (hfree : LeavesBounds p.kernel.toSignature t.dim) (level : Level)
    (h : Staying p t.dim w r) :
    ∀ c ∈ (explore p.recorded level r).kernel.2, c.window? p.kernel.toSignature t.dim = some w := by
  have hbs : ∀ b ∈ candidates p.kernel.toSignature p.options level p.caller,
      ∀ x ∈ b, Apart t.dim x.1 :=
    fun b hb x hx => hfree.1 x.1 (mem_tunables_of_mem_candidates hb x hx)
  have hall := (h.tryAll hloop hmode hdecl hfree.2 hbs).called
  rw [explore_eq, conclude]
  split <;> exact hall

theorem window?_copyOutputs (k : Kernel κ) (args : Arguments) (s : Store) (d : Dimension) :
    (copyOutputs k args s).1.window? d = args.window? d := by
  rw [Arguments.window?, int?_copyOutputs, int?_copyOutputs, Arguments.window?]

theorem called_preemptive {k : Kernel κ} {l : Loop} {o : Options} {caller : Arguments}
    (hloop : timeLoops k.nests = [l]) (hcaller : caller.window? l.dim = some range)
    (hfree : LeavesBounds k.toSignature l.dim) (results : Results) (level : String) (kernel : κ)
    (store : Store) :
    ∀ c ∈ calls k o results level "preemptive" caller kernel store, 0 ≤ o.extraSteps ∧
      c.window? k.toSignature l.dim =
        some ((TimeLoop.ofLoop l).first (o.extraSteps + 1) range) := by
  unfold calls
  rcases tune_cases (recorded k) o results level "preemptive" caller (kernel, []) store with
    ⟨hkernel, -⟩ | ⟨level', mode', args, hmode, hbind, ht⟩
  · rw [hkernel]
    simp
  · obtain rfl : Mode.preemptive = mode' := Option.some.inj hmode
    obtain ⟨saved, hout⟩ := preemptive_eq (recorded k) o level' caller ⟨(kernel, []), store, args, []⟩
    rw [ht]
    dsimp only
    rw [hout]
    dsimp only
    rw [withWindow_one (k := recorded k) hloop]
    cases hfirst : (TimeLoop.ofLoop l).firstWindow?
        (isolated (recorded k) caller ⟨(kernel, []), store, args, []⟩).args o.extraSteps with
    | none => simp [abandon, isolated]
    | some w =>
      obtain ⟨range', hrange⟩ := TimeLoop.firstWindow?_isSome (by rw [hfirst]; rfl)
      have hargs := (window?_copyOutputs (recorded k) args store l.dim).symm.trans hrange
      obtain ⟨hdecl, hcaller'⟩ := window?_bindParameters hbind hargs
      obtain rfl : range' = range := Option.some.inj (hcaller'.symm.trans hcaller)
      rw [TimeLoop.firstWindow?_eq hrange] at hfirst
      by_cases hneg : o.extraSteps < 0
      · simp [hneg] at hfirst
      · rw [if_neg hneg] at hfirst
        obtain rfl := Option.some.inj hfirst
        have hcomplete := complete_copyOutputs (recorded k) store (complete_bindParameters hbind)
        intro c hc
        refine ⟨by omega, called_explore
          (p := planFor k o .preemptive caller (some (.ofLoop l)) (o.extraSteps + 1))
          (r := { isolated (recorded k) caller ⟨(kernel, []), store, args, []⟩ with args := _ })
          rfl rfl hdecl hfree level' ⟨(hcomplete.insert _ _).insert _ _,
            Arguments.window?_insert_bounds _ _ _, ?_⟩ c hc⟩
        simp [Run.log, isolated]

/-- A session in `preemptive` mode stays within the range of the caller exactly if it makes no
call or the range has enough steps for a run. -/
theorem preemptive_inside_iff {k : Kernel κ} {l : Loop} {o : Options} {caller : Arguments}
    (hloop : timeLoops k.nests = [l]) (hcaller : caller.window? l.dim = some range)
    (hfree : LeavesBounds k.toSignature l.dim) (results : Results) (level : String) (kernel : κ)
    (store : Store) :
    (∀ c ∈ calls k o results level "preemptive" caller kernel store, ∃ w,
      c.window? k.toSignature l.dim = some w ∧ range.lo ≤ w.lo ∧ w.hi ≤ range.hi) ↔
    calls k o results level "preemptive" caller kernel store = [] ∨
      o.extraSteps + 1 ≤ range.hi - range.lo + 1 := by
  have hcalled := called_preemptive (o := o) hloop hcaller hfree results level kernel store
  generalize calls k o results level "preemptive" caller kernel store = cs at hcalled ⊢
  have hinside : range.lo ≤ ((TimeLoop.ofLoop l).first (o.extraSteps + 1) range).lo ∧
      ((TimeLoop.ofLoop l).first (o.extraSteps + 1) range).hi ≤ range.hi ↔
        o.extraSteps ≤ range.hi - range.lo := by
    unfold TimeLoop.first
    split <;> dsimp only <;> omega
  constructor
  · intro h
    cases cs with
    | nil => exact .inl rfl
    | cons c cs =>
      obtain ⟨w, hw, hin⟩ := h c List.mem_cons_self
      obtain rfl := Option.some.inj (hw.symm.trans (hcalled c List.mem_cons_self).2)
      have := hinside.1 hin
      exact .inr (by omega)
  · rintro (rfl | hlong) c hc
    · simp at hc
    · exact ⟨_, (hcalled c hc).2, hinside.2 (by omega)⟩

theorem preemptive_inside_iff_idle :
    timeLoops (idle "timers").nests = [⟨0, .time "t", .forward, 1⟩] ∧
      LeavesBounds (idle "timers").toSignature (.time "t") ∧
      ((∀ c ∈ calls (idle "timers") {} [] "basic" "preemptive" (idleArguments ⟨0, 9⟩) () {}, ∃ w,
        c.window? (idle "timers").toSignature (.time "t") = some w ∧ 0 ≤ w.lo ∧ w.hi ≤ 9) ↔
      calls (idle "timers") {} [] "basic" "preemptive" (idleArguments ⟨0, 9⟩) () {} = [] ∨
        (4 : Int) + 1 ≤ 9 - 0 + 1) :=
  have hrange : (idleArguments ⟨0, 9⟩).window? (.time "t") = some ⟨0, 9⟩ := by decide
  ⟨by decide, by decide, preemptive_inside_iff (l := ⟨0, .time "t", .forward, 1⟩) (o := {})
    (by decide) hrange (by decide) [] "basic" () {}⟩

/-- On a range of three steps a run of five steps leaves the range. -/
theorem preemptive_leaves_range :
    timeLoops (idle "timers").nests = [⟨0, .time "t", .forward, 1⟩] ∧
      LeavesBounds (idle "timers").toSignature (.time "t") ∧
      (idleArguments ⟨0, 2⟩).window? (.time "t") = some ⟨0, 2⟩ ∧
      (calls (idle "timers") {} [] "basic" "preemptive" (idleArguments ⟨0, 2⟩) () {}).map
        (·.window? (idle "timers").toSignature (.time "t")) = [some ⟨0, 4⟩] := by
  decide +kernel

end Stencil.Tuning
