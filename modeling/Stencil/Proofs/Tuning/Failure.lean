import Stencil.Proofs.Tuning.Isolation

namespace Stencil.Tuning

variable {κ : Type}

def FailsQuietly (k : Kernel κ) : Prop :=
  ∀ args kernel s, (k.call args kernel s).1 = false → s.Keeps (k.call args kernel s).2.2

theorem failsQuietly_recorded {k : Kernel κ} (h : FailsQuietly k) : FailsQuietly (recorded k) :=
  fun args kernel s hfail => h args kernel.1 s hfail

theorem cleared_cleared (t : Timer) : t.cleared.cleared = t.cleared := by
  simp [Timer.cleared, Table.mapValues]

def OwnTimer (k : Signature) (caller : Arguments) (w : Ref Timer) : Prop :=
  k.profiler ∈ k.parameters.map (·.name) ∧ caller.get? k.profiler = some (.timer w)

structure Clock (k : Signature) (caller : Arguments) (w : Ref Timer) (t : Timer)
    (r : Run (κ × List Call)) : Prop where
  reading : r.store.timers.get? w = some t ∨
    OwnTimer k caller w ∧ r.log ≠ [] ∧ r.store.timers.get? w = some t.cleared
  exposed : r.args.get? k.profiler = some (.timer w) → OwnTimer k caller w
  own : OwnTimer k caller w → k.profiler ∉ k.tunables →
    r.args.get? k.profiler = some (.timer w) ∧
      (r.log ≠ [] → r.store.timers.get? w = some t.cleared)

variable {p : Plan κ} {caller : Arguments} {w : Ref Timer} {t : Timer}
  {r r' : Run (κ × List Call)} {b : Binding}

theorem Clock.insertInts (h : Clock p.kernel.toSignature caller w t r)
    (hb : ∀ x ∈ b, x.1 ∈ p.kernel.tunables) :
    Clock p.kernel.toSignature caller w t { r with args := r.args.insertInts b } where
  reading := h.reading
  exposed hw := by
    dsimp only at hw
    rw [Arguments.get?_insertInts_eq] at hw
    cases hv : Arguments.lastValue b p.kernel.profiler with
    | none => exact h.exposed (by simpa [hv] using hw)
    | some v => simp [hv] at hw
  own hown htunable := by
    have hapart : ∀ x ∈ b, x.1 ≠ p.kernel.profiler := fun x hx hname => htunable (hname ▸ hb x hx)
    exact ⟨(Arguments.get?_insertInts r.args hapart).trans (h.own hown htunable).1,
      (h.own hown htunable).2⟩

theorem Clock.fresh {timer : Ref Timer} {cleared : Store}
    (h : Clock p.kernel.toSignature caller w t r)
    (fresh : freshTimer p.kernel.profiler r.args r.store = (timer, cleared)) :
    (timer = w ∧ OwnTimer p.kernel.toSignature caller w ∧
      cleared.timers.get? w = some t.cleared) ∨
    (timer ≠ w ∧ cleared.timers.get? w = r.store.timers.get? w ∧
      (OwnTimer p.kernel.toSignature caller w → p.kernel.profiler ∈ p.kernel.tunables)) := by
  have hpresent : ∃ u, r.store.timers.get? w = some u ∧ u.cleared = t.cleared := by
    rcases h.reading with hw | ⟨-, -, hw⟩
    · exact ⟨t, hw, rfl⟩
    · exact ⟨t.cleared, hw, cleared_cleared t⟩
  obtain ⟨u, hu, hcleared⟩ := hpresent
  rcases freshTimer_cases p.kernel.profiler r.args r.store with ⟨v, hv, hf⟩ | ⟨hnone, hf⟩
  · obtain ⟨rfl, rfl⟩ := Prod.mk.inj (fresh.symm.trans hf)
    by_cases hw : timer = w
    · subst hw
      refine .inl ⟨rfl, h.exposed hv, ?_⟩
      rw [Store.clearTimer, Cells.get?_update_self, hu, Option.map_some, hcleared]
    · refine .inr ⟨hw, Cells.get?_update_of_ne _ _ hw, fun hown => ?_⟩
      by_contra htunable
      exact hw (Argument.timer.inj (Option.some.inj (hv.symm.trans (h.own hown htunable).1)))
  · obtain ⟨rfl, rfl⟩ := Prod.mk.inj (fresh.symm.trans hf)
    refine .inr ⟨?_, ?_, fun hown => ?_⟩
    · rintro rfl
      exact absurd (hu.symm.trans (Cells.get?_new_self r.store.timers .empty)) (by simp)
    · exact (Cells.keeps_new r.store.timers _ w u hu).trans hu.symm
    · by_contra htunable
      exact hnone w (h.own hown htunable).1

theorem Clock.failed {timer : Ref Timer} {cleared store : Store} {kernel : κ × List Call}
    (h : Clock p.kernel.toSignature caller w t r)
    (fresh : freshTimer p.kernel.profiler r.args r.store = (timer, cleared))
    (hkept : cleared.timers.Keeps store.timers) (hlog : kernel.2 ≠ []) :
    Clock p.kernel.toSignature caller w t
      { kernel := kernel
        store := store
        args := r.args.insert p.kernel.profiler (.timer timer)
        results := r.results } := by
  rcases h.fresh fresh with ⟨rfl, hown, hget⟩ | ⟨hne, hget, htunable⟩
  · exact ⟨.inr ⟨hown, hlog, hkept _ _ hget⟩, fun _ => hown,
      fun _ _ => ⟨Table.get?_insert_self _ _ _, fun _ => hkept _ _ hget⟩⟩
  · refine ⟨?_, fun hw => ?_, fun hown hnot => absurd (htunable hown) hnot⟩
    · rcases h.reading with hw | ⟨hown, -, hw⟩
      · exact .inl (hkept w t (hget.trans hw))
      · exact .inr ⟨hown, hlog, hkept w _ (hget.trans hw)⟩
    · rw [Table.get?_insert_self] at hw
      exact absurd (Argument.timer.inj (Option.some.inj hw)) hne

structure Unharmed (s s' : Store) : Prop where
  buffers : s.buffers.Keeps s'.buffers
  neighbours : s.neighbours.Keeps s'.neighbours
  messages : s.messages.Keeps s'.messages

theorem Unharmed.refl (s : Store) : Unharmed s s := ⟨.refl _, .refl _, .refl _⟩

theorem Unharmed.trans {s s' s'' : Store} (h : Unharmed s s') (h' : Unharmed s' s'') :
    Unharmed s s'' :=
  ⟨h.buffers.trans h'.buffers, h.neighbours.trans h'.neighbours, h.messages.trans h'.messages⟩

theorem unharmed_freshTimer (profiler : String) (args : Arguments) (s : Store) :
    Unharmed s (freshTimer profiler args s).2 where
  buffers := by rw [freshTimer_buffers]; exact .refl _
  neighbours := by rw [freshTimer_neighbours]; exact .refl _
  messages := by rw [freshTimer_messages]; exact .refl _

structure Failing (p : Plan κ) (caller : Arguments) (s : Store) (r : Run (κ × List Call)) :
    Prop where
  results : r.results = []
  unharmed : Unharmed s r.store
  clock : ∀ w t, s.timers.get? w = some t → Clock p.kernel.toSignature caller w t r

variable {s : Store}

theorem Failing.trial (hk : FailsQuietly p.kernel) (hb : ∀ x ∈ b, x.1 ∈ p.kernel.tunables)
    (h : Failing p caller s r) (ht : Trial p.recorded b r r') (hresults : r'.results = []) :
    Failing p caller s r' := by
  cases ht with
  | discarded => exact ⟨h.results, h.unharmed, fun w t hw => (h.clock w t hw).insertInts hb⟩
  | failed admitted fresh call =>
    rename_i timer cleared kernel store
    have hkept : cleared.Keeps store := by
      have hquiet := failsQuietly_recorded hk
        (p.kernel.positional (p.callArguments b r.args timer)) r.kernel cleared
      have hcall : (recorded p.kernel).call
          (p.kernel.positional (p.callArguments b r.args timer)) r.kernel cleared =
            (false, kernel, store) := call
      rw [hcall] at hquiet
      exact hquiet rfl
    have hlog : kernel.2 ≠ [] := by
      have hkernel := congrArg (fun x => x.2.1.2) call
      simp only [Plan.recorded, recorded] at hkernel
      rw [← hkernel]
      simp
    have hcleared : Unharmed r.store cleared := by
      have hsnd := unharmed_freshTimer p.kernel.profiler (r.args.insertInts b) r.store
      rwa [show freshTimer p.kernel.profiler (r.args.insertInts b) r.store = (timer, cleared)
        from fresh] at hsnd
    exact ⟨h.results,
      (h.unharmed.trans hcleared).trans ⟨hkept.buffers, hkept.neighbours, hkept.messages⟩,
      fun w t hw => ((h.clock w t hw).insertInts hb).failed fresh hkept.timers hlog⟩
  | succeeded => simp at hresults

/-- What is left of the timer `w`, which held `t`, after some calls. -/
structure TimerKept (k : Signature) (caller : Arguments) (w : Ref Timer) (t : Timer)
    (cs : List Call) (s : Store) : Prop where
  reading : s.timers.get? w = some t ∨
    OwnTimer k caller w ∧ cs ≠ [] ∧ s.timers.get? w = some t.cleared
  own : OwnTimer k caller w → k.profiler ∉ k.tunables → cs ≠ [] →
    s.timers.get? w = some t.cleared

theorem TimerKept.congr {k : Signature} {cs : List Call} {s s' : Store}
    (h : TimerKept k caller w t cs s) (hs : s'.timers = s.timers) :
    TimerKept k caller w t cs s' :=
  ⟨by rw [hs]; exact h.reading, by rw [hs]; exact h.own⟩

structure Harmless (k : Signature) (caller : Arguments) (s : Store)
    (x : Outcome (κ × List Call)) : Prop where
  answer : ∀ args summary, x.answer = .ok (args, summary) → args = caller
  unharmed : Unharmed s x.store
  timers : ∀ w t, s.timers.get? w = some t → TimerKept k caller w t x.kernel.2 x.store

theorem harmless_abandon {k : Signature} (hunharmed : Unharmed s r.store)
    (hclock : ∀ w t, s.timers.get? w = some t → Clock k caller w t r) :
    Harmless k caller s (abandon caller r) where
  answer _ _ ha := (Prod.mk.inj (Except.ok.inj ha)).1.symm
  unharmed := hunharmed
  timers w t hw := ⟨(hclock w t hw).reading,
    fun hown htunable => ((hclock w t hw).own hown htunable).2⟩

theorem harmless_conclude (h : r.results = [] → Failing p p.caller s r)
    (hempty : ∀ args summary,
      (conclude p.recorded r).answer = .ok (args, summary) → summary = {}) :
    Harmless p.kernel.toSignature p.caller s (conclude p.recorded r) := by
  cases hbest : r.results.best? with
  | none =>
    have hfailing := h (Results.best?_eq_none hbest)
    rw [conclude_none hbest]
    exact harmless_abandon hfailing.unharmed hfailing.clock
  | some best =>
    rw [conclude_some hbest] at hempty
    have hlength := congrArg Summary.runs (hempty _ _ rfl)
    rw [List.eq_nil_of_length_eq_zero hlength] at hbest
    simp [Results.best?] at hbest

theorem harmless_explore (hk : FailsQuietly p.kernel) (level : Level)
    (h : Failing p p.caller s r) (hempty : ∀ args summary,
      (explore p.recorded level r).answer = .ok (args, summary) → summary = {}) :
    Harmless p.kernel.toSignature p.caller s (explore p.recorded level r) := by
  rw [explore_eq] at hempty ⊢
  refine harmless_conclude ?_ hempty
  refine tryAll_induction (motive := fun r => r.results = [] → Failing p p.caller s r) (fun _ => h)
    fun b hb r r' ih ht hresults => ?_
  have hnone : r.results = [] := by
    cases ht with
    | discarded => exact hresults
    | failed => exact hresults
    | succeeded => simp at hresults
  exact (ih hnone).trial hk (mem_tunables_of_mem_candidates hb) ht hresults

theorem Clock.firstWindow? {k : Signature} {l : TimeLoop} {n steps : Int} {args : Arguments}
    (h : Clock k caller w t r) (hw : l.firstWindow? r.args n = some (steps, args)) :
    Clock k caller w t { r with args := args } where
  reading := h.reading
  exposed hexposed := h.exposed ((get?_firstWindow? hw (by simp)).1 hexposed)
  own hown htunable :=
    ⟨(get?_firstWindow? hw (by simp)).2 (h.own hown htunable).1, (h.own hown htunable).2⟩

theorem harmless_withWindow {k : Kernel κ} (hk : FailsQuietly k) {o : Options} {level : Level}
    {mode : Mode} (h : Unharmed s r.store) (hresults : r.results = [])
    (hclock : ∀ w t, s.timers.get? w = some t → Clock k.toSignature caller w t r)
    (hempty : ∀ args summary, (withWindow (recorded k) o level mode caller r).answer =
      .ok (args, summary) → summary = {}) :
    Harmless k.toSignature caller s (withWindow (recorded k) o level mode caller r) := by
  rcases withWindow_cases (recorded k) o level mode caller r with
    hw | ⟨-, hw⟩ | ⟨l, steps, args, -, hfirst, hw⟩
  · rw [hw]
    exact harmless_abandon h hclock
  · rw [hw] at hempty ⊢
    exact harmless_explore (p := planFor k o mode caller none 1) hk level
      ⟨hresults, h, hclock⟩ hempty
  · rw [hw] at hempty ⊢
    exact harmless_explore (p := planFor k o mode caller (some (.ofLoop l)) steps) hk level
      ⟨hresults, h, fun w t hw => (hclock w t hw).firstWindow? hfirst⟩ hempty

theorem clock_bindParameters {k : Signature} {args : Arguments}
    (hbind : bindParameters k.parameters caller = .ok args) {kernel : κ} {store : Store}
    (hw : store.timers.get? w = some t) :
    Clock k caller w t ⟨(kernel, []), store, args, []⟩ where
  reading := .inl hw
  exposed h := by
    dsimp only at h
    rw [get?_bindParameters hbind] at h
    split at h
    · rename_i hname
      exact ⟨hname, h⟩
    · simp at h
  own h _ := ⟨(get?_bindParameters hbind _).trans ((if_pos h.1).trans h.2),
    fun hlog => absurd rfl hlog⟩

theorem Clock.isolated {k : Kernel κ} {k' : Signature}
    (h : Clock k' caller w t r) : Clock k' caller w t (isolated (recorded k) caller r) := by
  obtain ⟨htimers, -, -, hget⟩ := frame_copyOutputs (recorded k) r.args r.store
  have hoff := SavedRanks.aside_switchOff k.parameters caller
    (copyOutputs (recorded k) r.args r.store).2
  have hstore : (Tuning.isolated (recorded k) caller r).store.timers = r.store.timers :=
    hoff.timers.trans htimers
  refine ⟨?_, fun hw => h.exposed ((hget _ _ (by simp)).1 hw), fun hown htunable =>
    ⟨(hget _ _ (by simp)).2 (h.own hown htunable).1, fun hlog => ?_⟩⟩
  · rw [hstore]
    exact h.reading
  · rw [hstore]
    exact (h.own hown htunable).2 hlog

theorem eq_name_of_ofName? {name : String} {m : Mode} (h : Mode.ofName? name = some m) :
    name = m.name := by
  unfold Mode.ofName? at h
  split at h
  · cases Option.some.inj h
    rfl
  · cases Option.some.inj h
    rfl
  · simp at h

theorem restored_preemptive {k : Kernel κ} {args : Arguments} {store after : Store}
    (hs : store.WellKeyed) (kernel : κ × List Call)
    (h : Unharmed (isolated (recorded k) caller ⟨kernel, store, args, []⟩).store after) :
    ∀ saved, saved = (SavedRanks.switchOff k.parameters caller
      (copyOutputs (recorded k) args store).2).1 →
    store.buffers.Keeps (saved.restore after).buffers ∧
    (∀ r ranks, (SavedRanks.routedNeighbours k.parameters caller).count r ≤ 1 →
      store.neighbours.get? r = some ranks →
      (saved.restore after).neighbours.get? r = some ranks) ∧
    ∀ r ranks, (SavedRanks.routedMessages k.parameters caller).count r ≤ 1 →
      store.messages.get? r = some ranks →
      (saved.restore after).messages.get? r = some ranks := by
  rintro saved rfl
  obtain ⟨-, hneighbours, hmessages, -⟩ := frame_copyOutputs (recorded k) args store
  have hbuffers : store.buffers.Keeps (args, store).2.buffers := .refl _
  have hcopies := (detached_copyOutputs ((recorded k).ofKind .output) hbuffers).1
  have hkeyed : (copyOutputs (recorded k) args store).2.WellKeyed :=
    fun r t ht => hs r t (by rwa [hneighbours] at ht)
  have hoff := SavedRanks.switchedOff_switchOff hkeyed k.parameters caller
  have haside := SavedRanks.aside_switchOff k.parameters caller
    (copyOutputs (recorded k) args store).2
  refine ⟨?_, fun r ranks hcount hr => ?_, fun r ranks hcount hr => ?_⟩
  · rw [(SavedRanks.aside_restore _ after).buffers]
    refine (hcopies.trans ?_).trans h.buffers
    exact haside.buffers.symm ▸ .refl _
  · rw [hoff.restore_neighbours hkeyed h.neighbours (by rwa [hneighbours]), if_pos hcount]
  · rw [hoff.restore_messages h.messages (by rwa [hmessages]), if_pos hcount]

/-- A session without a successful run returns the arguments of the caller and leaves storage as
it was, but for the timer of the kernel, which calls clear. -/
theorem failure_keeps_storage {k : Kernel κ} (hk : FailsQuietly k) {o : Options}
    {results : Results} {level mode : String} {caller : Arguments} {kernel : κ} {store : Store}
    (hs : store.WellKeyed)
    (hempty : ∀ args summary, (tune k o results level mode caller kernel store).answer =
      .ok (args, summary) → summary = {}) :
    (∀ args summary, (tune k o results level mode caller kernel store).answer =
      .ok (args, summary) → args = caller) ∧
    store.buffers.Keeps (tune k o results level mode caller kernel store).store.buffers ∧
    (∀ r ranks,
      (mode = "preemptive" → (SavedRanks.routedNeighbours k.parameters caller).count r ≤ 1) →
      store.neighbours.get? r = some ranks →
      (tune k o results level mode caller kernel store).store.neighbours.get? r = some ranks) ∧
    (∀ r ranks,
      (mode = "preemptive" → (SavedRanks.routedMessages k.parameters caller).count r ≤ 1) →
      store.messages.get? r = some ranks →
      (tune k o results level mode caller kernel store).store.messages.get? r = some ranks) ∧
    ∀ w t, store.timers.get? w = some t → TimerKept k.toSignature caller w t
      (calls k o results level mode caller kernel store)
      (tune k o results level mode caller kernel store).store := by
  -- The session is run with the recording kernel, so that its calls can be told.
  rw [← tune_forget k o results level mode caller kernel []] at hempty ⊢
  unfold calls
  rcases tune_idle_or_explores (recorded k) o results level mode caller (kernel, []) store with
    ⟨hkernel, hstore, ha⟩ | ⟨level', mode', args, haccept, hbind, ht⟩
  · simp only [Outcome.forget, hkernel, hstore]
    exact ⟨fun args summary h => (ha args summary h).1, .refl _, fun _ _ _ => id, fun _ _ _ => id,
      fun w t hw => ⟨.inl hw, fun _ _ h => absurd rfl h⟩⟩
  · rw [ht] at hempty ⊢
    have hclock : ∀ w t, store.timers.get? w = some t →
        Clock k.toSignature caller w t ⟨(kernel, []), store, args, []⟩ :=
      fun w t hw => clock_bindParameters hbind hw
    cases mode' with
    | runtime =>
      have h := harmless_withWindow hk (.refl store) rfl hclock hempty
      exact ⟨h.answer, h.unharmed.buffers, fun r ranks _ => h.unharmed.neighbours r ranks,
        fun r ranks _ => h.unharmed.messages r ranks, h.timers⟩
    | preemptive =>
      obtain rfl := eq_name_of_ofName? (ofName?_of_accept haccept).2
      have htimers : (isolated (recorded k) caller
          ⟨(kernel, []), store, args, []⟩).store.timers = store.timers :=
        (SavedRanks.aside_switchOff _ _ _).timers.trans
          (frame_copyOutputs (recorded k) args store).1
      have h := harmless_withWindow hk (.refl _) rfl
        (fun w t hw => (hclock w t (htimers ▸ hw)).isolated) hempty
      obtain ⟨hbuffers, hneighbours, hmessages⟩ := restored_preemptive hs _ h.unharmed _ rfl
      refine ⟨h.answer, hbuffers, fun r ranks hcount => hneighbours r ranks (hcount rfl),
        fun r ranks hcount => hmessages r ranks (hcount rfl), fun w t hw => ?_⟩
      exact (h.timers w t (htimers ▸ hw)).congr (SavedRanks.aside_restore _ _).timers

def failing : Kernel Unit where
  parameters := [⟨"u", .output⟩, ⟨"nb", .neighbours⟩, ⟨"nthreads", .threads⟩, ⟨"timers", .timer⟩]
  dimensions := []
  body := []
  profiler := "timers"
  call _ _ s := (false, (), s)

def failingArguments : Arguments :=
  ⟨[("u", .buffer ⟨0⟩), ("nb", .neighbours ⟨0⟩), ("nthreads", .int 2), ("timers", .timer ⟨0⟩)]⟩

def secondPassed : Store where
  buffers := ⟨[[.ofInt 1]]⟩
  timers := ⟨[⟨[("section0", .ofInt 1)]⟩]⟩
  neighbours := ⟨[⟨[("left", 0), ("right", 2)]⟩]⟩

theorem wellKeyed_secondPassed : secondPassed.WellKeyed := by
  intro r t ht
  have hall : ∀ t ∈ secondPassed.neighbours.contents, t.keys.Nodup := by decide
  exact hall t (List.mem_of_getElem? ht)

theorem failure_keeps_storage_failing :
    FailsQuietly failing ∧ secondPassed.WellKeyed ∧
      (SavedRanks.routedNeighbours failing.parameters failingArguments).count ⟨0⟩ ≤ 1 ∧
      (tune failing {} [] "basic" "preemptive" failingArguments ()
        secondPassed).store.neighbours.get? ⟨0⟩ = some ⟨[("left", 0), ("right", 2)]⟩ := by
  have hquiet : FailsQuietly failing := fun _ _ s _ => .refl s
  have hanswer : (tune failing {} [] "basic" "preemptive" failingArguments () secondPassed).answer =
      .ok (failingArguments, {}) := by with_unfolding_all rfl
  have hempty : ∀ args summary, (tune failing {} [] "basic" "preemptive" failingArguments ()
      secondPassed).answer = .ok (args, summary) → summary = {} := by
    intro args summary h
    exact (Prod.mk.inj (Except.ok.inj (h.symm.trans hanswer))).2
  have hcount :
      (SavedRanks.routedNeighbours failing.parameters failingArguments).count ⟨0⟩ ≤ 1 := by
    decide
  exact ⟨hquiet, wellKeyed_secondPassed, hcount,
    (failure_keeps_storage hquiet wellKeyed_secondPassed hempty).2.2.1 ⟨0⟩ _ (fun _ => hcount) rfl⟩

/-- A session whose only call fails loses what the timer had counted. -/
theorem failure_clears_timer :
    FailsQuietly failing ∧
      (tune failing {} [] "basic" "preemptive" failingArguments () secondPassed).answer =
        .ok (failingArguments, {}) ∧
      failingArguments.get? failing.profiler = some (.timer ⟨0⟩) ∧
      secondPassed.timers.get? ⟨0⟩ = some ⟨[("section0", .ofInt 1)]⟩ ∧
      (tune failing {} [] "basic" "preemptive" failingArguments ()
        secondPassed).store.timers.get? ⟨0⟩ = some ⟨[("section0", .zero)]⟩ ∧
      Binary64.ofInt 1 ≠ .zero :=
  ⟨fun _ _ s _ => .refl s, by with_unfolding_all rfl, rfl, rfl, by decide +kernel, by decide⟩

end Stencil.Tuning
