import Stencil.Proofs.Tuning.Exchange
import Stencil.Proofs.Tuning.Preemptive
import Stencil.Proofs.Tuning.Steps

/-!
Buffers in `preemptive` mode. The working arguments never share an output with the caller: copies
take the place of outputs before the first call, and nothing that happens later puts a buffer
among the arguments. So a kernel that writes to nothing but its outputs leaves all buffers of the
caller as they are.
-/

namespace Stencil.Tuning

variable {κ : Type}

/-- Calls change no buffer but those at the places of outputs. -/
def WritesOutputs (k : Kernel κ) : Prop :=
  ∀ args kernel s b data, s.buffers.get? b = some data →
    (∀ x ∈ k.parameters.zip args, x.1.kind = .output → x.2 ≠ .buffer b) →
    (k.call args kernel s).2.2.buffers.get? b = some data

def Detached (base : Cells (List Binary64)) (args : Arguments) (name : String) : Prop :=
  ∀ b, args.get? name = some (.buffer b) → base.get? b = none

theorem Detached.insert {base : Cells (List Binary64)} {args : Arguments} {name : String}
    (h : Detached base args name) (other : String) {a : Argument}
    (ha : ∀ b, a = .buffer b → base.get? b = none) : Detached base (args.insert other a) name := by
  intro b hb
  rw [Table.get?_insert] at hb
  split at hb
  · exact ha b (Option.some.inj hb)
  · exact h b hb

theorem Detached.insertInts {base : Cells (List Binary64)} {args : Arguments} {name : String}
    (h : Detached base args name) (xs : List (String × Int)) :
    Detached base (args.insertInts xs) name := by
  intro b hb
  rw [Arguments.get?_insertInts_eq] at hb
  cases hx : Arguments.lastValue xs name with
  | none => exact h b (by simpa [hx] using hb)
  | some v => simp [hx] at hb

structure Shielded (k : Signature) (base : Cells (List Binary64)) (args : Arguments) (s : Store) :
    Prop where
  complete : args.Complete k.parameters
  outputs : ∀ q ∈ k.parameters, q.kind = .output → Detached base args q.name
  kept : base.Keeps s.buffers

variable {k : Signature} {base : Cells (List Binary64)} {args : Arguments} {s : Store}

theorem Shielded.insert (h : Shielded k base args s) (name : String) {a : Argument}
    (ha : ∀ b, a ≠ .buffer b) : Shielded k base (args.insert name a) s where
  complete := h.complete.insert name a
  outputs q hq hkind := (h.outputs q hq hkind).insert name fun b hb => absurd hb (ha b)
  kept := h.kept

theorem Shielded.insertInts (h : Shielded k base args s) (xs : List (String × Int)) :
    Shielded k base (args.insertInts xs) s where
  complete := h.complete.insertInts xs
  outputs q hq hkind := (h.outputs q hq hkind).insertInts xs
  kept := h.kept

theorem detached_copyOutput {q : Parameter} {x : Arguments × Store}
    (hkept : base.Keeps x.2.buffers) : base.Keeps (copyOutput q x).2.buffers ∧
      ∀ name, Detached base x.1 name ∨ name = q.name →
        Detached base (copyOutput q x).1 name := by
  rcases copyOutput_cases q x with ⟨b, hb, hcopy⟩ | ⟨hnone, hcopy⟩
  · rw [hcopy]
    refine ⟨hkept.trans (Cells.keeps_new _ _), fun name hname => ?_⟩
    have hnew : ∀ b', (x.2.copyBuffer b).1 = .buffer b' → base.get? b' = none := by
      rintro b' hb'
      rw [← Argument.buffer.inj hb']
      exact hkept.get?_new_eq_none ((x.2.buffers.get? b).getD [])
    rcases hname with h | rfl
    · exact h.insert q.name hnew
    · intro b' hb'
      rw [Table.get?_insert_self] at hb'
      exact hnew b' (Option.some.inj hb')
  · rw [hcopy]
    refine ⟨hkept, fun name hname => hname.elim id ?_⟩
    rintro rfl b hb
    exact absurd hb (hnone b)

theorem detached_copyOutputs (qs : List Parameter) {x : Arguments × Store}
    (hkept : base.Keeps x.2.buffers) :
    base.Keeps (qs.foldl (fun x q => copyOutput q x) x).2.buffers ∧
      ∀ name, Detached base x.1 name ∨ name ∈ qs.map (·.name) →
        Detached base (qs.foldl (fun x q => copyOutput q x) x).1 name := by
  induction qs generalizing x with
  | nil => exact ⟨hkept, fun name h => h.elim id (by simp)⟩
  | cons q qs ih =>
    obtain ⟨hkept', hdetached⟩ := detached_copyOutput (q := q) hkept
    obtain ⟨hkept'', hdetached'⟩ := ih hkept'
    refine ⟨hkept'', fun name h => hdetached' name ?_⟩
    rw [List.map_cons, List.mem_cons, ← or_assoc] at h
    exact h.imp_left (hdetached name)

theorem shielded_copyOutputs {k : Kernel κ} (h : args.Complete k.parameters) :
    Shielded k.toSignature s.buffers (copyOutputs k args s).1 (copyOutputs k args s).2 := by
  have hcomplete := complete_copyOutputs k s h
  rw [copyOutputs_eq] at hcomplete ⊢
  have hkept : s.buffers.Keeps (args, s).2.buffers := .refl _
  obtain ⟨hkept, hdetached⟩ := detached_copyOutputs (k.ofKind .output) hkept
  refine ⟨hcomplete, fun q hq hkind => hdetached q.name (.inr ?_), hkept⟩
  exact List.mem_map_of_mem (List.mem_filter.2 ⟨hq, by simpa using hkind⟩)

theorem frame_copyOutputs (k : Kernel κ) (args : Arguments) (s : Store) :
    (copyOutputs k args s).2.timers = s.timers ∧
      (copyOutputs k args s).2.neighbours = s.neighbours ∧
      (copyOutputs k args s).2.messages = s.messages ∧
      ∀ name a, (∀ b, a ≠ .buffer b) →
        ((copyOutputs k args s).1.get? name = some a ↔ args.get? name = some a) := by
  refine copyOutputs_induction (motive := fun x => x.2.timers = s.timers ∧
    x.2.neighbours = s.neighbours ∧ x.2.messages = s.messages ∧ ∀ name a, (∀ b, a ≠ .buffer b) →
      (x.1.get? name = some a ↔ args.get? name = some a)) ⟨rfl, rfl, rfl, fun _ _ _ => .rfl⟩ ?_
  rintro q - x ⟨htimers, hneighbours, hmessages, hget⟩
  rcases copyOutput_cases q x with ⟨b, hb, hcopy⟩ | ⟨-, hcopy⟩
  · rw [hcopy]
    refine ⟨htimers, hneighbours, hmessages, fun name a ha => ?_⟩
    rw [← hget name a ha, Table.get?_insert]
    by_cases hname : q.name = name
    · subst hname
      simp [hb, Store.copyBuffer, Store.newBuffer, (ha _).symm]
    · simp [hname]
  · rw [hcopy]
    exact ⟨htimers, hneighbours, hmessages, hget⟩

theorem Shielded.call {k : Kernel κ} (hk : WritesOutputs k)
    (h : Shielded k.toSignature base args s) (kernel : κ) :
    base.Keeps (k.call (k.positional args) kernel s).2.2.buffers := by
  intro b data hb
  refine hk _ _ _ b data (h.kept b data hb) fun x hx hkind hxb => ?_
  have harg := Signature.get?_of_mem_zip h.complete hx
  rw [hxb] at harg
  have hnone := h.outputs x.1 (List.of_mem_zip hx).1 hkind b harg
  rw [hb] at hnone
  simp at hnone

theorem Shielded.trial {p : Plan κ} (hk : WritesOutputs p.kernel) (hmode : p.mode = .preemptive)
    {b : Binding} {r r' : Run κ} (h : Shielded p.kernel.toSignature base r.args r.store)
    (ht : Trial p b r r') : Shielded p.kernel.toSignature base r'.args r'.store := by
  have hargs (timer : Ref Timer) :
      Shielded p.kernel.toSignature base (p.callArguments b r.args timer) r.store :=
    (h.insertInts b).insert p.kernel.profiler (by simp)
  have hstay (args : Arguments) : p.moveOn args = args := by
    cases hloop : p.loop <;> simp [Plan.moveOn, hloop, hmode, TimeLoop.slide]
  have hcall {timer : Ref Timer} {cleared store : Store} {kernel : κ} {ok : Bool}
      (fresh : freshTimer p.kernel.profiler (r.args.insertInts b) r.store = (timer, cleared))
      (call : p.kernel.call (p.kernel.positional (p.callArguments b r.args timer)) r.kernel cleared =
        (ok, kernel, store)) :
      Shielded p.kernel.toSignature base (p.callArguments b r.args timer) store := by
    have hbuffers : cleared.buffers = r.store.buffers := by
      rw [← freshTimer_buffers p.kernel.profiler (r.args.insertInts b) r.store, fresh]
    have hcleared : Shielded p.kernel.toSignature base (p.callArguments b r.args timer) cleared :=
      ⟨(hargs timer).complete, (hargs timer).outputs, hbuffers ▸ h.kept⟩
    refine ⟨(hargs timer).complete, (hargs timer).outputs, ?_⟩
    have hkept := hcleared.call hk r.kernel
    rwa [call] at hkept
  cases ht with
  | discarded => exact h.insertInts b
  | failed admitted fresh call => exact hcall fresh call
  | succeeded admitted fresh call => exact (hstay _).symm ▸ hcall fresh call

structure Isolated (k : Signature) (caller : Arguments) (base : Cells (List Binary64))
    (x : Outcome κ) : Prop where
  kept : base.Keeps x.store.buffers
  buffers : ∀ args summary, x.answer = .ok (args, summary) →
    ∀ name b, args.get? name = some (.buffer b) → caller.get? name = some (.buffer b)
  others : ∀ args summary, x.answer = .ok (args, summary) →
    ∀ name, name ∉ k.tunables → name ≠ k.profiler → args.get? name = caller.get? name

theorem isolated_abandon {caller : Arguments} {r : Run κ} (h : base.Keeps r.store.buffers) :
    Isolated k caller base (abandon caller r) where
  kept := h
  buffers args summary ha name b hb := by
    obtain ⟨rfl, -⟩ := Prod.mk.inj (Except.ok.inj ha)
    exact hb
  others args summary ha name _ _ := by
    obtain ⟨rfl, -⟩ := Prod.mk.inj (Except.ok.inj ha)
    rfl

theorem isolated_conclude {p : Plan κ} {r : Run κ} (hmode : p.mode = .preemptive)
    (h : base.Keeps r.store.buffers)
    (hnames : ∀ x ∈ r.results, ∀ y ∈ x.binding, y.1 ∈ p.kernel.tunables) :
    Isolated p.kernel.toSignature p.caller base (conclude p r) := by
  cases hbest : r.results.best? with
  | none =>
    rw [conclude_none hbest]
    exact isolated_abandon h
  | some best =>
    have hadopted : p.adopted best r.args = p.caller.insertInts best.binding := by
      cases hloop : p.loop <;> simp [Plan.adopted, hloop, hmode, TimeLoop.resume]
    rw [conclude_some hbest, hadopted]
    refine ⟨by simpa using h, ?_, ?_⟩
    · intro args summary ha name b hb
      obtain ⟨rfl, -⟩ := Prod.mk.inj (Except.ok.inj ha)
      rw [Table.get?_insert] at hb
      split at hb
      · simp at hb
      · rw [Arguments.get?_insertInts_eq] at hb
        cases hv : Arguments.lastValue best.binding name with
        | none => simpa [hv] using hb
        | some v => simp [hv] at hb
    · intro args summary ha name htunable hprofiler
      obtain ⟨rfl, -⟩ := Prod.mk.inj (Except.ok.inj ha)
      rw [Table.get?_insert_of_ne _ _ hprofiler.symm]
      refine Arguments.get?_insertInts _ fun x hx hname => htunable ?_
      exact hname ▸ hnames best (Results.best?_mem hbest) x hx

theorem isolated_explore {p : Plan κ} {r : Run κ} (hk : WritesOutputs p.kernel)
    (hmode : p.mode = .preemptive) (level : Level) (hresults : r.results = [])
    (h : Shielded p.kernel.toSignature base r.args r.store) :
    Isolated p.kernel.toSignature p.caller base (explore p level r) := by
  rw [explore_eq]
  refine isolated_conclude hmode ?_ fun x hx => mem_tunables_of_mem_candidates
    (binding_mem_of_mem_results hresults x hx)
  exact (tryAll_induction (motive := fun r => Shielded p.kernel.toSignature base r.args r.store) h
    fun _ _ _ _ h ht => h.trial hk hmode ht).kept

theorem Shielded.firstWindow? {t : TimeLoop} {n steps : Int} {args' : Arguments}
    (h : Shielded k base args s) (hw : t.firstWindow? args n = some (steps, args')) :
    Shielded k base args' s where
  complete := complete_firstWindow? h.complete hw
  outputs q hq hkind b hb := h.outputs q hq hkind b ((get?_firstWindow? hw (by simp)).1 hb)
  kept := h.kept

theorem isolated_withWindow {k : Kernel κ} (hk : WritesOutputs k) (o : Options) (level : Level)
    (caller : Arguments) {r : Run κ} (hresults : r.results = [])
    (h : Shielded k.toSignature base r.args r.store) :
    Isolated k.toSignature caller base (withWindow k o level .preemptive caller r) := by
  rcases withWindow_cases k o level .preemptive caller r with
    hw | ⟨-, hw⟩ | ⟨l, steps, args, -, hfirst, hw⟩
  · rw [hw]
    exact isolated_abandon h.kept
  · rw [hw]
    exact isolated_explore (p := planFor k o .preemptive caller none 1) hk rfl level hresults h
  · rw [hw]
    exact isolated_explore (p := planFor k o .preemptive caller (some (.ofLoop l)) steps) hk rfl
      level hresults (h.firstWindow? hfirst)

/-- In `preemptive` mode a kernel that writes only to its outputs changes no buffer of the caller,
whatever way the session ends, and the session returns no buffer but the caller's own. -/
theorem preemptive_keeps_buffers {k : Kernel κ} (hk : WritesOutputs k) (o : Options)
    (results : Results) (level : String) (caller : Arguments) (kernel : κ) (store : Store) :
    store.buffers.Keeps
      (tune k o results level "preemptive" caller kernel store).store.buffers ∧
    ∀ args summary,
      (tune k o results level "preemptive" caller kernel store).answer = .ok (args, summary) →
      (∀ name b, args.get? name = some (.buffer b) → caller.get? name = some (.buffer b)) ∧
      ∀ name, name ∉ k.tunables → name ≠ k.profiler → args.get? name = caller.get? name := by
  rcases tune_idle_or_explores k o results level "preemptive" caller kernel store with
    ⟨-, hstore, ha⟩ | ⟨level', mode', args, haccept, hbind, ht⟩
  · refine ⟨by rw [hstore]; exact .refl _, fun args summary h => ?_⟩
    obtain ⟨rfl, -⟩ := ha args summary h
    exact ⟨fun _ _ hb => hb, fun _ _ _ => rfl⟩
  · obtain rfl : Mode.preemptive = mode' := Option.some.inj (ofName?_of_accept haccept).2
    have hcopies : Shielded k.toSignature store.buffers (copyOutputs k args store).1
        (copyOutputs k args store).2 := shielded_copyOutputs (complete_bindParameters hbind)
    have hoff := SavedRanks.aside_switchOff k.parameters caller (copyOutputs k args store).2
    have hshielded : Shielded k.toSignature store.buffers
        (isolated k caller ⟨kernel, store, args, []⟩).args
        (isolated k caller ⟨kernel, store, args, []⟩).store :=
      ⟨hcopies.complete, hcopies.outputs, hoff.buffers ▸ hcopies.kept⟩
    have hout := isolated_withWindow hk o level' caller
      (r := isolated k caller ⟨kernel, store, args, []⟩) rfl hshielded
    obtain ⟨saved, hp⟩ := preemptive_eq k o level' caller ⟨kernel, store, args, []⟩
    rw [ht]
    dsimp only
    rw [hp]
    refine ⟨?_, fun args summary ha =>
      ⟨hout.buffers args summary ha, hout.others args summary ha⟩⟩
    dsimp only
    rw [(SavedRanks.aside_restore saved _).buffers]
    exact hout.kept

def erasing : Kernel Unit where
  parameters := [⟨"u", .output⟩, ⟨"v", .input⟩, ⟨"nthreads", .threads⟩, ⟨"timers", .timer⟩]
  dimensions := []
  body := []
  profiler := "timers"
  call args _ s :=
    match args with
    | .buffer b :: _ => (true, (), s.writeBuffer b fun _ => [])
    | _ => (false, (), s)

def erasingArguments : Arguments :=
  ⟨[("u", .buffer ⟨0⟩), ("v", .buffer ⟨0⟩), ("nthreads", .int 2), ("timers", .timer ⟨0⟩)]⟩

theorem writesOutputs_erasing : WritesOutputs erasing := by
  intro args kernel s b data hb hapart
  unfold erasing at *
  dsimp only at *
  split
  · rename_i b' rest
    have hne : b' ≠ b := by
      rintro rfl
      exact hapart (⟨"u", .output⟩, .buffer b') (by simp) rfl rfl
    rw [Store.writeBuffer, Cells.get?_update_of_ne _ _ hne]
    exact hb
  · exact hb

theorem preemptive_keeps_buffers_erasing :
    WritesOutputs erasing ∧
      (tune erasing {} [] "basic" "preemptive" erasingArguments ()
        { buffers := ⟨[[.ofInt 1, .ofInt 2]]⟩ }).store.buffers.get? ⟨0⟩ =
          some [.ofInt 1, .ofInt 2] :=
  ⟨writesOutputs_erasing, (preemptive_keeps_buffers writesOutputs_erasing {} [] "basic"
    erasingArguments () { buffers := ⟨[[.ofInt 1, .ofInt 2]]⟩ }).1 ⟨0⟩ _ rfl⟩

end Stencil.Tuning
