import Stencil.Proofs.Tuning.Steps

/-!
Whether a session returns the arguments that it measured. The working arguments are never reset,
so a call gets the values of its candidate and, where that is silent, of the candidates before it;
what is returned are the values of one candidate and, where that is silent, of the caller.
-/

namespace Stencil

theorem Binary64.cmp_eq_lt {x y : Binary64} : Binary64.cmp x y = .lt ↔ x.rank < y.rank :=
  Int.compare_eq_lt

theorem Results.best?_split {rs : Results} {b : TimedRun} (h : rs.best? = some b) :
    ∃ pre post, rs = pre ++ b :: post ∧
      (∀ x ∈ pre, Binary64.cmp b.elapsed x.elapsed = .lt) ∧
      ∀ x ∈ post, Binary64.cmp x.elapsed b.elapsed ≠ .lt := by
  simp only [Binary64.cmp_eq_lt, ne_eq]
  induction rs generalizing b with
  | nil => simp [best?] at h
  | cons r rs ih =>
    rw [best?] at h
    cases hbest : best? rs with
    | none =>
      simp only [hbest, Option.some.injEq] at h
      subst h
      exact ⟨[], [], by rw [best?_eq_none hbest]; rfl, by simp, by simp⟩
    | some c =>
      obtain ⟨pre, post, hrs, hpre, hpost⟩ := ih hbest
      simp only [hbest, beq_iff_eq, Binary64.cmp_eq_lt] at h
      split at h
      · rename_i hlt
        obtain rfl := Option.some.inj h
        refine ⟨r :: pre, post, by rw [hrs]; rfl, fun x hx => ?_, hpost⟩
        rcases List.mem_cons.1 hx with rfl | hx
        · exact hlt
        · exact hpre x hx
      · rename_i hle
        obtain rfl := Option.some.inj h
        refine ⟨[], rs, rfl, by simp, fun x hx => ?_⟩
        rw [hrs] at hx
        rcases List.mem_append.1 hx with hx | hx
        · have := hpre x hx
          omega
        · rcases List.mem_cons.1 hx with rfl | hx
          · exact hle
          · have := hpost x hx
            omega

theorem forall₂_split {β γ : Type} {R : β → γ → Prop} {xs : List β} {pre post : List γ} {y : γ}
    (h : List.Forall₂ R xs (pre ++ y :: post)) :
    ∃ pre' x post', xs = pre' ++ x :: post' ∧ pre'.length = pre.length ∧ R x y := by
  induction pre generalizing xs with
  | nil =>
    obtain ⟨x, rest, hx, -, rfl⟩ := List.forall₂_cons_right_iff.1 h
    exact ⟨[], x, rest, rfl, rfl, hx⟩
  | cons z pre ih =>
    obtain ⟨w, rest, -, hrest, rfl⟩ := List.forall₂_cons_right_iff.1 h
    obtain ⟨pre', x, post', rfl, hlength, hx⟩ := ih hrest
    exact ⟨w :: pre', x, post', rfl, by simp [hlength], hx⟩

namespace Tuning

open Arguments (Apart lastValue)

variable {κ : Type} {p : Plan κ} {start : Arguments} {r : Run (κ × List Call)}
  {done : List Binding}

/-- Of the successful calls `c` is the fastest, and the earliest of several; its record is
`best`. -/
def Wins (cs : List Call) (rs : Results) (c : Call) (best : TimedRun) : Prop :=
  ∃ pre post pre' post', cs.filter (·.ok) = pre' ++ c :: post' ∧ rs = pre ++ best :: post ∧
    pre'.length = pre.length ∧ (∀ x ∈ pre, Binary64.cmp best.elapsed x.elapsed = .lt) ∧
    ∀ x ∈ post, Binary64.cmp x.elapsed best.elapsed ≠ .lt

def Plan.Free (p : Plan κ) (name : String) : Prop :=
  name ≠ p.kernel.profiler ∧ ∀ t ∈ p.loop, Apart t.dim name

def Plan.Traces (p : Plan κ) (start : Arguments) (done : List Binding) (c : Call) (x : TimedRun) :
    Prop :=
  ∃ earlier later, done = earlier ++ x.binding :: later ∧
    ∀ name ∈ p.kernel.parameters.map (·.name), p.Free name →
      (p.kernel.named c.args).get? name =
        (start.insertInts (earlier.flatten ++ x.binding)).get? name

theorem Plan.Traces.snoc {c : Call} {x : TimedRun} (h : p.Traces start done c x) (b : Binding) :
    p.Traces start (done ++ [b]) c x := by
  obtain ⟨earlier, later, hdone, hget⟩ := h
  exact ⟨earlier, later ++ [b], by simp [hdone], hget⟩

/-- What the working arguments hold under free names once some candidates were considered, and
what the successful calls got. -/
structure Tracks (p : Plan κ) (start : Arguments) (done : List Binding)
    (r : Run (κ × List Call)) : Prop where
  complete : r.args.Complete p.kernel.parameters
  args : ∀ name, p.Free name → r.args.get? name = (start.insertInts done.flatten).get? name
  runs : List.Forall₂ (p.Traces start done) (r.log.filter (·.ok)) r.results

theorem get?_insertInts_flatten (start : Arguments) (done : List Binding) (b : Binding)
    (name : String) : ((start.insertInts done.flatten).insertInts b).get? name =
      (start.insertInts (done.flatten ++ b)).get? name := by
  rw [Arguments.get?_insertInts_eq, Arguments.get?_insertInts_eq, Arguments.get?_insertInts_eq,
    Arguments.lastValue_append]
  cases lastValue b name <;> rfl

theorem get?_slide {t : TimeLoop} {name : String} (h : Apart t.dim name) (args : Arguments)
    (n : Int) (m : Mode) : (t.slide args n m).get? name = args.get? name := by
  have hshift : ∀ (args : Arguments) (bound : String) (n : Int), bound ≠ name →
      (TimeLoop.shiftBound args bound n).get? name = args.get? name := by
    intro args bound n hne
    unfold TimeLoop.shiftBound
    split
    · exact Table.get?_insert_of_ne _ _ hne
    · rfl
  cases m with
  | preemptive => rfl
  | runtime =>
    exact (hshift _ _ _ h.2.symm).trans (hshift _ _ _ h.1.symm)

theorem Plan.Free.get?_moveOn {name : String} (h : p.Free name) (args : Arguments) :
    (p.moveOn args).get? name = args.get? name := by
  unfold Plan.moveOn
  cases hloop : p.loop with
  | none => rfl
  | some t => exact get?_slide (h.2 t hloop) _ _ _

theorem Tracks.attempt {b : Binding} (h : Tracks p start done r) :
    Tracks p start (done ++ [b]) (attempt p.recorded b r) := by
  have hinsert (name : String) (hname : p.Free name) : (r.args.insertInts b).get? name =
      (start.insertInts (done.flatten ++ b)).get? name := by
    rw [Arguments.get?_insertInts_eq, h.args name hname, ← Arguments.get?_insertInts_eq,
      get?_insertInts_flatten]
  have hcall (timer : Ref Timer) (name : String) (hname : p.Free name) :
      (p.callArguments b r.args timer).get? name =
        (start.insertInts (done.flatten ++ b)).get? name := by
    rw [Plan.callArguments, Table.get?_insert_of_ne _ _ hname.1.symm, hinsert name hname]
  have hcomplete (timer : Ref Timer) :
      (p.callArguments b r.args timer).Complete p.kernel.parameters :=
    complete_callArguments h.complete b timer
  have hruns : List.Forall₂ (p.Traces start (done ++ [b])) (r.log.filter (·.ok)) r.results :=
    h.runs.imp fun _ _ hx => hx.snoc b
  have hdone : (done ++ [b]).flatten = done.flatten ++ b := by simp
  have hstep := attempt_step p b r
  generalize Tuning.attempt p.recorded b r = r' at hstep ⊢
  cases hstep with
  | discarded =>
    exact ⟨h.complete.insertInts b, fun name hname => by rw [hdone]; exact hinsert name hname,
      hruns⟩
  | failed timer kernel store =>
    refine ⟨hcomplete timer, fun name hname => by rw [hdone]; exact hcall timer name hname, ?_⟩
    simpa [Run.log, List.filter_append] using hruns
  | succeeded timer kernel store elapsed =>
    refine ⟨?_, fun name hname => ?_, ?_⟩
    · unfold Plan.moveOn
      split
      · exact TimeLoop.complete_slide (hcomplete timer) _ _
      · exact hcomplete timer
    · rw [hname.get?_moveOn, hdone]
      exact hcall timer name hname
    · have hlast : p.Traces start (done ++ [b])
          ⟨p.kernel.positional (p.callArguments b r.args timer), true⟩ ⟨b, elapsed⟩ := by
        refine ⟨done, [], rfl, fun name hmem hname => ?_⟩
        rw [Signature.get?_named_positional (hcomplete timer), if_pos hmem, hcall timer name hname]
      simpa [Run.log, List.filter_append] using List.rel_append hruns (.cons hlast .nil)

theorem Tracks.tryAll (bs : List Binding) (h : Tracks p start done r) :
    ∃ considered later, bs = considered ++ later ∧
      Tracks p start (done ++ considered) (tryAll p.recorded bs r) := by
  induction bs generalizing done r with
  | nil => exact ⟨[], [], rfl, by simpa [Tuning.tryAll] using h⟩
  | cons b bs ih =>
    rw [Tuning.tryAll]
    split
    · obtain ⟨considered, later, rfl, h'⟩ := ih h.attempt
      exact ⟨b :: considered, later, rfl, by simpa using h'⟩
    · exact ⟨[], b :: bs, rfl, by simpa using h⟩

theorem Tracks.wins {best : TimedRun} {bs : List Binding} (h : Tracks p start [] r)
    (hbest : (Tuning.tryAll p.recorded bs r).results.best? = some best) :
    ∃ c earlier later, bs = earlier ++ best.binding :: later ∧
      Wins (Tuning.tryAll p.recorded bs r).log (Tuning.tryAll p.recorded bs r).results c best ∧
      ∀ name ∈ p.kernel.parameters.map (·.name), p.Free name →
        (p.kernel.named c.args).get? name =
          (start.insertInts (earlier.flatten ++ best.binding)).get? name := by
  obtain ⟨considered, rest, rfl, h'⟩ := h.tryAll bs
  obtain ⟨pre, post, hresults, hpre, hpost⟩ := Results.best?_split hbest
  have hruns := h'.runs
  rw [hresults] at hruns
  obtain ⟨pre', c, post', hlog, hlength, earlier, later, hdone, hget⟩ := forall₂_split hruns
  refine ⟨c, earlier, later ++ rest, ?_, ⟨pre, post, pre', post', hlog, hresults, hlength, hpre,
    hpost⟩, hget⟩
  rw [List.nil_append] at hdone
  rw [hdone]
  simp

theorem get?_resume {t : TimeLoop} {name : String} (h : Apart t.dim name)
    (work caller : Arguments) (m : Mode) : (t.resume work caller m).get? name = caller.get? name := by
  have hname : (if t.isBackward then t.dim.upperName else t.dim.lowerName) ≠ name := by
    split
    · exact h.2.symm
    · exact h.1.symm
  cases m with
  | preemptive => rfl
  | runtime =>
    simp only [TimeLoop.resume]
    split
    · exact Table.get?_insert_of_ne _ _ hname
    · rfl

theorem Plan.Free.get?_adopted {name : String} (h : p.Free name) (best : TimedRun)
    (work : Arguments) :
    (p.adopted best work).get? name = (p.caller.insertInts best.binding).get? name := by
  unfold Plan.adopted
  cases hloop : p.loop with
  | none => rfl
  | some t => exact get?_resume (h.2 t hloop) _ _ _

/-- Under this name, what the candidates before `b` left behind is not what `b` gets in place of
the value of the caller. -/
def Settles (caller : Arguments) (earlier : List Binding) (b : Binding) (name : String) : Prop :=
  lastValue b name = none →
    ∀ v, lastValue earlier.flatten name = some v → caller.get? name = some (.int v)

theorem get?_insertInts_eq_iff_settles {caller : Arguments} {name : String}
    (hstart : start.get? name = caller.get? name) (earlier : List Binding) (b : Binding) :
    (start.insertInts (earlier.flatten ++ b)).get? name = (caller.insertInts b).get? name ↔
      Settles caller earlier b name := by
  rw [Arguments.get?_insertInts_eq, Arguments.get?_insertInts_eq, Arguments.lastValue_append,
    hstart, Settles]
  cases lastValue b name with
  | some v => simp
  | none =>
    cases lastValue earlier.flatten name with
    | none => simp
    | some v => simp [eq_comm]

def Faithful (k : Signature) (bs : List Binding) (caller : Arguments) (names : String → Prop)
    (x : Outcome (κ × List Call)) : Prop :=
  ∀ args summary, x.answer = .ok (args, summary) → summary ≠ {} →
    ∃ c best earlier later, bs = earlier ++ best.binding :: later ∧
      Wins x.kernel.2 x.results c best ∧
      ∀ name ∈ k.parameters.map (·.name), names name →
        ((k.named c.args).get? name = args.get? name ↔
          Settles caller earlier best.binding name)

theorem faithful_abandon {k : Signature} {bs : List Binding} {caller : Arguments}
    {names : String → Prop} : Faithful k bs caller names (abandon caller r) :=
  fun _ _ ha hsummary => absurd (Prod.mk.inj (Except.ok.inj ha)).2.symm hsummary

theorem Tracks.faithful (h : Tracks p start [] r) (level : Level) {names : String → Prop}
    (hnames : ∀ name, names name → p.Free name ∧ start.get? name = p.caller.get? name) :
    Faithful p.kernel.toSignature (candidates p.kernel.toSignature p.options level p.caller)
      p.caller names (explore p.recorded level r) := by
  rw [explore_eq]
  generalize hbs : candidates p.kernel.toSignature p.options level p.caller = bs
  have hbs' : candidates p.recorded.kernel.toSignature p.recorded.options level p.recorded.caller =
    bs := hbs
  rw [hbs']
  cases hbest : (Tuning.tryAll p.recorded bs r).results.best? with
  | none =>
    rw [conclude_none hbest]
    exact faithful_abandon
  | some best =>
    obtain ⟨c, earlier, later, hsplit, hwins, hget⟩ := h.wins hbest
    rw [conclude_some hbest]
    intro args summary ha _
    refine ⟨c, best, earlier, later, hsplit, hwins, fun name hmem hname => ?_⟩
    obtain ⟨rfl, -⟩ := Prod.mk.inj (Except.ok.inj ha)
    obtain ⟨hfree, hstart⟩ := hnames name hname
    rw [hget name hmem hfree, ← get?_insertInts_eq_iff_settles hstart]
    refine iff_of_eq (congrArg _ ?_)
    exact (Table.get?_insert_of_ne _ _ hfree.1.symm).trans (hfree.get?_adopted best _)

def Free (k : Signature) (name : String) : Prop :=
  name ≠ k.profiler ∧ ∀ l ∈ timeLoops k.nests, Apart l.dim name

theorem get?_firstWindow?_of_apart {t : TimeLoop} {args args' : Arguments} {n steps : Int}
    {name : String} (hw : t.firstWindow? args n = some (steps, args')) (h : Apart t.dim name) :
    args'.get? name = args.get? name := by
  obtain ⟨range, hrange⟩ := TimeLoop.firstWindow?_isSome (by rw [hw]; rfl)
  rw [TimeLoop.firstWindow?_eq hrange] at hw
  split at hw
  · simp at hw
  · obtain ⟨-, rfl⟩ := Prod.mk.inj (Option.some.inj hw)
    rw [Table.get?_insert_of_ne _ _ h.2.symm, Table.get?_insert_of_ne _ _ h.1.symm]

theorem faithful_withWindow {k : Kernel κ} (o : Options) (level : Level) (mode : Mode)
    {caller : Arguments} (hcomplete : r.args.Complete k.parameters) (hresults : r.results = [])
    (hlog : r.log = []) {names : String → Prop}
    (hnames : ∀ name, names name →
      Free k.toSignature name ∧ r.args.get? name = caller.get? name) :
    Faithful k.toSignature (candidates k.toSignature o level caller) caller names
      (withWindow (recorded k) o level mode caller r) := by
  rcases withWindow_cases (recorded k) o level mode caller r with
    hw | ⟨hloops, hw⟩ | ⟨l, steps, args, hloops, hfirst, hw⟩
  · rw [hw]
    exact faithful_abandon
  · rw [hw]
    have htracks : Tracks (planFor k o mode caller none 1) r.args [] r :=
      ⟨hcomplete, fun _ _ => rfl, by rw [hlog, hresults]; exact .nil⟩
    exact htracks.faithful level fun name hname =>
      ⟨⟨(hnames name hname).1.1, by simp [planFor]⟩, (hnames name hname).2⟩
  · rw [hw]
    have hloops' : timeLoops k.nests = [l] := hloops
    have hfree (name : String) (hname : names name) : Apart l.dim name :=
      (hnames name hname).1.2 l (by simp [hloops'])
    have htracks : Tracks (planFor k o mode caller (some (.ofLoop l)) steps) args []
        { r with args := args } :=
      ⟨complete_firstWindow? hcomplete hfirst, fun _ _ => rfl, by
        have hlog' : ({ r with args := args } : Run (κ × List Call)).log = [] := hlog
        rw [hlog', hresults]; exact .nil⟩
    exact htracks.faithful level fun name hname =>
      ⟨⟨(hnames name hname).1.1, by simpa [planFor, TimeLoop.ofLoop] using hfree name hname⟩,
        (get?_firstWindow?_of_apart hfirst (hfree name hname)).trans (hnames name hname).2⟩

/-- A scalar or a thread count that a session does not use for something else as well: the bounds
of a time loop, the timer, and copies of outputs. -/
structure Ordinary (k : Signature) (q : Parameter) : Prop where
  kind : q.kind = .scalar ∨ q.kind = .threads
  free : Free k q.name
  outputs : ∀ q' ∈ k.ofKind .output, q'.name ≠ q.name

theorem faithful_tune (k : Kernel κ) (o : Options) (results : Results) (level mode : String)
    (caller : Arguments) (kernel : κ) (store : Store) :
    (∀ args summary, (tune k o results level mode caller kernel store).answer =
      .ok (args, summary) → summary = {}) ∨
    ∃ l, Level.ofName? level = some l ∧
      Faithful k.toSignature (candidates k.toSignature o l caller) caller
        (fun name => ∃ q ∈ k.parameters, Ordinary k.toSignature q ∧ q.name = name)
        (tune (recorded k) o results level mode caller (kernel, []) store) := by
  rcases tune_idle_or_explores (recorded k) o results level mode caller (kernel, []) store with
    ⟨-, -, hidle⟩ | ⟨level', mode', args, haccept, hbind, ht⟩
  · refine .inl fun args summary ha => ?_
    rw [← tune_forget k o results level mode caller kernel [] store] at ha
    exact (hidle args summary ha).2
  · refine .inr ⟨level', (ofName?_of_accept haccept).1, ?_⟩
    have hcomplete : args.Complete k.parameters := complete_bindParameters hbind
    have hstart (q : Parameter) (hq : q ∈ k.parameters) :
        args.get? q.name = caller.get? q.name :=
      (get?_bindParameters hbind q.name).trans (if_pos (List.mem_map_of_mem hq))
    rw [ht]
    cases mode' with
    | preemptive =>
      obtain ⟨saved, hp⟩ := preemptive_eq (recorded k) o level' caller
        ⟨(kernel, []), store, args, []⟩
      dsimp only
      rw [hp]
      refine faithful_withWindow (k := k) o level' .preemptive
        (r := isolated (recorded k) caller ⟨(kernel, []), store, args, []⟩)
        (complete_copyOutputs (recorded k) store hcomplete) rfl rfl ?_
      rintro name ⟨q, hq, hordinary, rfl⟩
      exact ⟨hordinary.free, (get?_copyOutputs_of_ne hordinary.outputs).trans (hstart q hq)⟩
    | runtime =>
      refine faithful_withWindow (k := k) o level' .runtime hcomplete rfl rfl ?_
      rintro name ⟨q, hq, hordinary, rfl⟩
      exact ⟨hordinary.free, hstart q hq⟩

/-- A session that finds something returns, for a scalar or a thread count, the value that the
fastest call got exactly if that candidate has a value for it, or no candidate before has one that
differs from the caller's. -/
theorem returns_measured_iff {k : Kernel κ} {o : Options} {results : Results}
    {level mode : String} {caller : Arguments} {kernel : κ} {store : Store} {args : Arguments}
    {summary : Summary}
    (ha : (tune k o results level mode caller kernel store).answer = .ok (args, summary))
    (hsummary : summary ≠ {}) :
    ∃ l c best earlier later, Level.ofName? level = some l ∧
      candidates k.toSignature o l caller = earlier ++ best.binding :: later ∧
      Wins (calls k o results level mode caller kernel store)
        (tune k o results level mode caller kernel store).results c best ∧
      ∀ q ∈ k.parameters, Ordinary k.toSignature q →
        ((k.named c.args).get? q.name = args.get? q.name ↔
          Settles caller earlier best.binding q.name) := by
  rcases faithful_tune k o results level mode caller kernel store with
    hidle | ⟨l, hl, hfaithful⟩
  · exact absurd (hidle args summary ha) hsummary
  · rw [← tune_forget k o results level mode caller kernel [] store] at ha ⊢
    obtain ⟨c, best, earlier, later, hsplit, hwins, hget⟩ := hfaithful args summary ha hsummary
    exact ⟨l, c, best, earlier, later, hl, hsplit, hwins, fun q hq hordinary =>
      hget q.name (List.mem_map_of_mem hq) ⟨q, hq, hordinary, rfl⟩⟩

/-- A kernel that takes one second with eight threads of the second kind, and two otherwise. -/
def twofold : Kernel Unit where
  parameters := [⟨"n1", .threads⟩, ⟨"n2", .threads⟩, ⟨"timers", .timer⟩]
  dimensions := []
  body := []
  profiler := "timers"
  call args _ s :=
    match args with
    | [_, .int n, .timer t] =>
      (true, (), s.recordTime t "section0" (.ofInt (if n = 8 then 1 else 2)))
    | _ => (false, (), s)

def twofoldArguments : Arguments := ⟨[("n1", .int 1), ("n2", .int 1), ("timers", .timer ⟨0⟩)]⟩

def nothingTimed : Store := { timers := ⟨[.empty]⟩ }

/-- A wide search on eight cores, each of which runs several threads. -/
def twofoldSession : Outcome Unit :=
  tune twofold { manyCore := true } [] "aggressive" "preemptive" twofoldArguments () nothingTimed

def twofoldCalls : List Call :=
  calls twofold { manyCore := true } [] "aggressive" "preemptive" twofoldArguments () nothingTimed

theorem answer_twofoldSession : twofoldSession.answer =
    .ok (⟨[("n1", .int 1), ("n2", .int 8), ("timers", .timer ⟨0⟩)]⟩, ⟨8, 1, ⟨[("n2", 8)]⟩⟩) := by
  decide +kernel

theorem wins_twofoldSession : Wins twofoldCalls twofoldSession.results
    ⟨[.int 2, .int 8, .timer ⟨0⟩], true⟩ ⟨[("n2", 8)], .ofInt 1⟩ := by
  refine ⟨twofoldSession.results.take 5, twofoldSession.results.drop 6, twofoldCalls.take 5,
    twofoldCalls.drop 6, ?_, ?_, ?_, ?_, ?_⟩ <;> decide +kernel

theorem ordinary_twofold : Ordinary twofold.toSignature ⟨"n1", .threads⟩ where
  kind := .inr rfl
  free := ⟨by decide, by decide⟩
  outputs := by decide

theorem returns_measured_iff_twofold :
    twofoldSession.answer = .ok
      (⟨[("n1", .int 1), ("n2", .int 8), ("timers", .timer ⟨0⟩)]⟩, ⟨8, 1, ⟨[("n2", 8)]⟩⟩) ∧
    (⟨8, 1, ⟨[("n2", 8)]⟩⟩ : Summary) ≠ {} ∧
    ∃ c best earlier, Wins twofoldCalls twofoldSession.results c best ∧
      ((twofold.named c.args).get? "n1" = some (.int 1) ↔
        Settles twofoldArguments earlier best.binding "n1") := by
  obtain ⟨-, c, best, earlier, -, -, -, hwins, hiff⟩ :=
    returns_measured_iff answer_twofoldSession (by decide)
  exact ⟨answer_twofoldSession, by decide, c, best, earlier, hwins,
    hiff ⟨"n1", .threads⟩ (by decide) ordinary_twofold⟩

/-- The fastest call got two threads of the first kind, which another candidate had left behind,
but one is returned. -/
theorem returns_unmeasured :
    ∃ c best args summary, twofoldSession.answer = .ok (args, summary) ∧ summary ≠ {} ∧
      Wins twofoldCalls twofoldSession.results c best ∧
      Ordinary twofold.toSignature ⟨"n1", .threads⟩ ∧
      (twofold.named c.args).get? "n1" = some (.int 2) ∧ args.get? "n1" = some (.int 1) :=
  ⟨_, _, _, _, answer_twofoldSession, by decide, wins_twofoldSession, ordinary_twofold,
    by decide, by decide⟩

variable {o : Options} {level : Level} {caller : Arguments}

theorem settles_of_candidates {k : Signature} {earlier : List Binding} {b : Binding}
    (hearlier : ∀ a ∈ earlier, a ∈ candidates k o level caller) (hb : b ∈ candidates k o level caller)
    (h : o.manyCore = false ∨ level = .basic ∨
      ∀ p ∈ k.ofKind .threads, ∀ q ∈ k.ofKind .threads, p.name = q.name) (name : String) :
    Settles caller earlier b name := by
  intro hnone v hv
  obtain ⟨a, ha, hmem⟩ := List.mem_flatten.1 (Arguments.mem_of_lastValue hv)
  rw [Arguments.lastValue_eq_none] at hnone
  obtain ⟨shape, count, rfl, hshape, hcount⟩ := mem_candidates hb
  obtain ⟨shape', count', rfl, hshape', hcount'⟩ := mem_candidates (hearlier a ha)
  rw [List.map_append, List.mem_append, not_or] at hnone
  rcases List.mem_append.1 hmem with hmem | hmem
  · rcases hshape' with hshape' | ⟨-, rfl⟩
    · rcases hshape with hshape | ⟨hempty, -⟩
      · have hnames : Candidates.names shape = Candidates.names shape' := by
          rw [Candidates.names_blockShapes shape hshape, Candidates.names_blockShapes shape' hshape']
        have hname : name ∈ Candidates.names shape' := List.mem_map_of_mem hmem
        rw [← hnames] at hname
        exact absurd hname hnone.1
      · simp [hempty] at hshape'
    · simp at hmem
  · rcases hcount' with hcount' | ⟨-, rfl⟩
    · obtain ⟨q, hq, n, rfl, hn⟩ := Candidates.mem_threadCounts hcount'
      obtain ⟨rfl, rfl⟩ := Prod.mk.inj (List.mem_singleton.1 hmem)
      rcases hn with hn | ⟨hlevel, hmany⟩
      · exact Arguments.get?_of_int? hn
      · rcases h with h | h | h
        · simp [hmany] at h
        · simp [hlevel] at h
        · rcases hcount with hcount | ⟨hempty, -⟩
          · obtain ⟨p, hp, m, rfl, -⟩ := Candidates.mem_threadCounts hcount
            exact absurd (by simp [h p hp q hq]) hnone.2
          · simp [hempty] at hcount'
    · simp at hmem

theorem returns_measured {k : Kernel κ} {results : Results} {mode : String} {kernel : κ}
    {store : Store} {args : Arguments} {summary : Summary}
    (ha : (tune k o results level.name mode caller kernel store).answer = .ok (args, summary))
    (hsummary : summary ≠ {})
    (h : o.manyCore = false ∨ level = .basic ∨
      ∀ p ∈ k.ofKind .threads, ∀ q ∈ k.ofKind .threads, p.name = q.name) :
    ∃ c best, Wins (calls k o results level.name mode caller kernel store)
        (tune k o results level.name mode caller kernel store).results c best ∧
      ∀ q ∈ k.parameters, Ordinary k.toSignature q →
        (k.named c.args).get? q.name = args.get? q.name := by
  rcases faithful_tune k o results level.name mode caller kernel store with
    hidle | ⟨l, hl, hfaithful⟩
  · exact absurd (hidle args summary ha) hsummary
  · rw [← tune_forget k o results level.name mode caller kernel [] store] at ha ⊢
    obtain rfl : level = l := Option.some.inj (level.ofName?_name.symm.trans hl)
    obtain ⟨c, best, earlier, later, hsplit, hwins, hget⟩ := hfaithful args summary ha hsummary
    refine ⟨c, best, hwins, fun q hq hordinary => ?_⟩
    refine (hget q.name (List.mem_map_of_mem hq) ⟨q, hq, hordinary, rfl⟩).2 ?_
    refine settles_of_candidates (fun a ha => ?_) ?_ h q.name
    · rw [hsplit]
      exact List.mem_append_left _ ha
    · rw [hsplit]
      exact List.mem_append_right _ List.mem_cons_self

end Tuning

end Stencil
