import Stencil.Proofs.Tuning.Runtime
import Stencil.Proofs.Tuning.Selection
import Stencil.Proofs.Tuning.Shapes

namespace Stencil

namespace Candidates

def Positive (b : Binding) : Prop := ∀ x ∈ b, 1 ≤ x.2

theorem Positive.append {b c : Binding} (hb : Positive b) (hc : Positive c) : Positive (b ++ c) :=
  fun x hx => (List.mem_append.1 hx).elim (hb x) (hc x)

theorem one_le_double {n : Int} (h : 1 ≤ n) : 1 ≤ double n := by
  simp only [double, saturate, maxInt64, minInt64]
  omega

theorem positive_cube (whole : Binding) {n : Int} (h : 1 ≤ n) : Positive (cube whole n) := by
  intro x hx
  obtain ⟨y, -, rfl⟩ := List.mem_map.1 hx
  exact h

theorem positive_doubleAt {b : Binding} (h : Positive b) (at_ : List Nat) :
    Positive (doubleAt at_ b) := by
  intro x hx
  obtain ⟨i, hi⟩ := List.mem_iff_getElem?.1 hx
  rw [getElem?_doubleAt, Option.map_eq_some_iff] at hi
  obtain ⟨y, hy, rfl⟩ := hi
  have hpos := h y (List.mem_of_getElem? hy)
  dsimp only
  split
  · exact one_le_double hpos
  · exact hpos

theorem kept_positive : Kept Positive where
  doubleAll b hb x hx := by
    obtain ⟨y, hy, rfl⟩ := List.mem_map.1 hx
    exact one_le_double (hb y hy)
  doubleAt at_ b hb := positive_doubleAt hb at_
  exchange b c hb hc := by
    refine Positive.append (fun x hx => hb x ((List.dropLast_sublist b).subset hx)) fun x hx => ?_
    exact hc x (List.mem_of_getLast? (Option.mem_toList.1 hx))

variable {blocks : List KernelDimension} {ps : List Parameter} {args : Arguments} {level : Level}
  {o : Options}

def Populated (blocks : List KernelDimension) (args : Arguments) : Prop :=
  ∀ k ∈ steps blocks, ∀ n, extent? args k.2 = some n → 1 ≤ n

/-- Where fractions of the cores are tried, a quarter of them is at least one. -/
def Staffed (ps : List Parameter) (level : Level) (o : Options) : Prop :=
  ps ≠ [] → level = .aggressive → o.manyCore = true → 4 ≤ coreCount o

theorem positive_domain_iff : Positive (domain blocks args) ↔ Populated blocks args := by
  rw [domain_eq]
  constructor
  · intro h k hk n hn
    simpa [hn] using h _ (List.mem_map_of_mem hk)
  · intro h x hx
    obtain ⟨k, hk, rfl⟩ := List.mem_map.1 hx
    cases he : extent? args k.2 with
    | none => simp [maxInt64]
    | some n => exact h k hk n he

theorem positive_blockShapes_iff (hsizes : ∀ n ∈ o.blockSizes, 1 ≤ n) :
    (∀ b ∈ blockShapes blocks args level o, Positive b) ↔ Populated blocks args := by
  rw [← positive_domain_iff]
  constructor
  · intro h
    by_cases hw : domain blocks args = []
    · simp [hw, Positive]
    · exact h _ (whole_mem_blockShapes hw level o)
  · intro h
    exact kept_positive.blockShapes (fun n hn => positive_cube _ (hsizes n hn)) h

theorem one_le_tdiv_iff {m n : Int} (hm : 1 ≤ m) (hn : 1 ≤ n) : 1 ≤ m.tdiv n ↔ n ≤ m := by
  rw [Int.tdiv_eq_ediv_of_nonneg (by omega), Int.le_ediv_iff_mul_le (by omega), Int.one_mul]

theorem positive_threadCounts_iff (hcaller : ∀ p ∈ ps, ∀ n, args.int? p.name = some n → 1 ≤ n)
    (hcores : 1 ≤ coreCount o) :
    (∀ b ∈ threadCounts ps args level o, Positive b) ↔ Staffed ps level o := by
  simp only [mem_threadCounts_iff, Staffed]
  generalize coreCount o = m at hcores ⊢
  constructor
  · intro h hps hlevel hcore
    obtain ⟨p, hp⟩ := List.exists_mem_of_ne_nil ps hps
    have hquarter : Positive [(p.name, m.tdiv 4)] :=
      h _ ⟨p, hp, m.tdiv 4, rfl, .inr ⟨hlevel, hcore, by simp⟩⟩
    exact (one_le_tdiv_iff hcores (by decide)).1 (hquarter _ List.mem_cons_self)
  · rintro h b ⟨p, hp, n, rfl, hn | ⟨hlevel, hcore, hn⟩⟩ x hx
    · rw [List.mem_singleton.1 hx]
      exact hcaller p hp n hn
    · have hfour := h (List.ne_nil_of_mem hp) hlevel hcore
      rw [List.mem_singleton.1 hx]
      simp only [List.mem_cons, List.not_mem_nil, or_false] at hn
      rcases hn with rfl | rfl | rfl
      · exact hcores
      · exact (one_le_tdiv_iff hcores (by decide)).2 (by omega)
      · exact (one_le_tdiv_iff hcores (by decide)).2 hfour

end Candidates

namespace Tuning

open Arguments (Apart lastValue)
open Candidates (Positive Populated Staffed)

variable {κ : Type} {p : Plan κ} {r : Run (κ × List Call)}

/-- Neither a block size nor a thread count of a call is below one. -/
def Call.Positive (k : Signature) (c : Call) : Prop :=
  ∀ name ∈ k.tunables, ∀ n, (k.named c.args).int? name = some n → 1 ≤ n

structure Reshapes (k : Signature) (b : Binding) : Prop where
  positive : Candidates.Positive b
  steps : ∀ s ∈ Candidates.steps k.blocks, s.1 ∈ Candidates.names b

structure Safe (p : Plan κ) (r : Run (κ × List Call)) : Prop where
  complete : r.args.Complete p.kernel.parameters
  threads : ∀ q ∈ p.kernel.ofKind .threads, ∀ n, r.args.int? q.name = some n → 1 ≤ n
  calls : ∀ c ∈ r.log, c.Positive p.kernel.toSignature

theorem mem_tunables_iff {k : Signature} {name : String} : name ∈ k.tunables ↔
    (∃ s ∈ Candidates.steps k.blocks, s.1 = name) ∨ ∃ q ∈ k.ofKind .threads, q.name = name := by
  have hsteps : k.blocks.filterMap (fun b => b.block?.map (·.2.1)) =
      (Candidates.steps k.blocks).map (·.1) := by
    simp [Candidates.steps, List.map_filterMap, Function.comp_def]
  rw [Signature.tunables, hsteps, List.mem_append, List.mem_map, List.mem_map]

theorem Safe.one_le {b : Binding} (h : Safe p r) (hb : Reshapes p.kernel.toSignature b)
    {name : String} (hname : name ∈ p.kernel.tunables) {n : Int}
    (hn : (r.args.insertInts b).int? name = some n) : 1 ≤ n := by
  have hget := Arguments.get?_of_int? hn
  rw [Arguments.get?_insertInts_eq] at hget
  cases hlast : lastValue b name with
  | some v =>
    rw [hlast] at hget
    obtain rfl : v = n := by simpa using hget
    exact hb.positive _ (Arguments.mem_of_lastValue hlast)
  | none =>
    rcases mem_tunables_iff.1 hname with ⟨s, hs, rfl⟩ | ⟨q, hq, rfl⟩
    · exact absurd (hb.steps s hs) (Arguments.lastValue_eq_none.1 hlast)
    · rw [hlast] at hget
      refine h.threads q hq n ?_
      rw [Arguments.int?, show r.args.get? q.name = some (.int n) by simpa using hget]
      rfl

theorem Safe.attempt {b : Binding} (h : Safe p r) (hb : Reshapes p.kernel.toSignature b)
    (hapart : ∀ q ∈ p.kernel.ofKind .threads, ∀ t ∈ p.loop, Apart t.dim q.name) :
    Safe p (attempt p.recorded b r) := by
  have hcall (timer : Ref Timer) {name : String} (hname : name ∈ p.kernel.tunables) {n : Int}
      (hn : (p.callArguments b r.args timer).int? name = some n) : 1 ≤ n := by
    rw [Plan.callArguments] at hn
    by_cases hprofiler : p.kernel.profiler = name
    · simp [hprofiler, Arguments.int?, Table.get?_insert_self, Argument.int?] at hn
    · rw [Arguments.int?_insert_of_ne _ _ hprofiler] at hn
      exact h.one_le hb hname hn
  have hthread (q : Parameter) (hq : q ∈ p.kernel.ofKind .threads) :
      q.name ∈ p.kernel.tunables := mem_tunables_iff.2 (.inr ⟨q, hq, rfl⟩)
  have hcomplete (timer : Ref Timer) :
      (p.callArguments b r.args timer).Complete p.kernel.parameters :=
    complete_callArguments h.complete b timer
  have hcalls (timer : Ref Timer) (ok : Bool) : ∀ c ∈
      r.log ++ [⟨p.kernel.positional (p.callArguments b r.args timer), ok⟩],
        c.Positive p.kernel.toSignature := by
    intro c hc
    rcases List.mem_append.1 hc with hc | hc
    · exact h.calls c hc
    · rw [List.mem_singleton.1 hc]
      intro name hname n hn
      rw [Arguments.int?, Signature.get?_named_positional (hcomplete timer)] at hn
      split at hn
      · exact hcall timer hname hn
      · simp at hn
  have hstep := attempt_step p b r
  generalize Tuning.attempt p.recorded b r = r' at hstep ⊢
  cases hstep with
  | discarded =>
    exact ⟨h.complete.insertInts b, fun q hq n hn => h.one_le hb (hthread q hq) hn, h.calls⟩
  | failed timer kernel store =>
    exact ⟨hcomplete timer, fun q hq n hn => hcall timer (hthread q hq) hn, hcalls timer false⟩
  | succeeded timer kernel store elapsed =>
    refine ⟨?_, fun q hq n hn => hcall timer (hthread q hq) ?_, hcalls timer true⟩
    · unfold Plan.moveOn
      split
      · exact TimeLoop.complete_slide (hcomplete timer) _ _
      · exact hcomplete timer
    · rw [← hn, Arguments.int?, Arguments.int?]
      dsimp only
      unfold Plan.moveOn
      split
      · rename_i t ht
        rw [get?_slide (hapart q hq t ht)]
      · rfl

theorem Safe.tryAll {bs : List Binding} (h : Safe p r)
    (hbs : ∀ b ∈ bs, Reshapes p.kernel.toSignature b)
    (hapart : ∀ q ∈ p.kernel.ofKind .threads, ∀ t ∈ p.loop, Apart t.dim q.name) :
    Safe p (tryAll p.recorded bs r) := by
  induction bs generalizing r with
  | nil => exact h
  | cons b bs ih =>
    rw [Tuning.tryAll]
    split
    · exact ih (h.attempt (hbs b List.mem_cons_self) hapart)
        fun c hc => hbs c (List.mem_cons_of_mem b hc)
    · exact h

theorem Safe.explore (h : Safe p r) (level : Level)
    (hbs : ∀ b ∈ candidates p.kernel.toSignature p.options level p.caller,
      Reshapes p.kernel.toSignature b)
    (hapart : ∀ q ∈ p.kernel.ofKind .threads, ∀ t ∈ p.loop, Apart t.dim q.name) :
    ∀ c ∈ (explore p.recorded level r).kernel.2, c.Positive p.kernel.toSignature := by
  have hall := (h.tryAll hbs hapart).calls
  rw [explore_eq, conclude]
  split <;> exact hall

theorem reshapes_candidates {k : Signature} {o : Options} {level : Level} {caller : Arguments}
    (hshapes : ∀ b ∈ Candidates.blockShapes k.blocks caller level o, Positive b)
    (hcounts : ∀ b ∈ Candidates.threadCounts (k.ofKind .threads) caller level o, Positive b) :
    ∀ b ∈ candidates k o level caller, Reshapes k b := by
  intro b hb
  obtain ⟨shape, count, rfl, hshape, hcount⟩ := mem_candidates hb
  constructor
  · refine Positive.append ?_ ?_
    · rcases hshape with hshape | ⟨-, rfl⟩
      · exact hshapes shape hshape
      · exact fun x hx => absurd hx List.not_mem_nil
    · rcases hcount with hcount | ⟨-, rfl⟩
      · exact hcounts count hcount
      · exact fun x hx => absurd hx List.not_mem_nil
  · intro s hs
    rcases hshape with hshape | ⟨hnone, -⟩
    · have hnames := (Candidates.within_of_mem_blockShapes hshape).names
      have hmem : s.1 ∈ Candidates.names shape := hnames ▸ List.mem_map_of_mem hs
      rw [Candidates.names, List.map_append]
      exact List.mem_append_left _ hmem
    · have hw : Candidates.domain k.blocks caller ≠ [] := by
        rw [Candidates.domain_eq, ne_eq, List.map_eq_nil_iff]
        exact List.ne_nil_of_mem hs
      exact absurd (hnone ▸ Candidates.whole_mem_blockShapes hw level o) List.not_mem_nil

theorem positive_withWindow {k : Kernel κ} (o : Options) (level : Level) (mode : Mode)
    {caller : Arguments} (hbs : ∀ b ∈ candidates k.toSignature o level caller,
      Reshapes k.toSignature b)
    (hapart : ∀ q ∈ k.ofKind .threads, ∀ l ∈ timeLoops k.nests, Apart l.dim q.name)
    (hcomplete : r.args.Complete k.parameters) (hlog : r.log = [])
    (hthreads : ∀ q ∈ k.ofKind .threads, ∀ n, r.args.int? q.name = some n → 1 ≤ n) :
    ∀ c ∈ (withWindow (recorded k) o level mode caller r).kernel.2,
      c.Positive k.toSignature := by
  have hnone : ∀ c ∈ r.log, c.Positive k.toSignature := by
    rw [hlog]
    exact fun c hc => absurd hc List.not_mem_nil
  rcases withWindow_cases (recorded k) o level mode caller r with
    hw | ⟨hloops, hw⟩ | ⟨l, steps, args, hloops, hfirst, hw⟩
  · rw [hw]
    exact hnone
  · rw [hw]
    exact Safe.explore (p := planFor k o mode caller none 1) ⟨hcomplete, hthreads, hnone⟩ level hbs
      (by simp [planFor])
  · rw [hw]
    have hl : ∀ q ∈ k.ofKind .threads, Apart l.dim q.name := by
      have hloops' : timeLoops k.nests = [l] := hloops
      exact fun q hq => hapart q hq l (by simp [hloops'])
    refine Safe.explore (p := planFor k o mode caller (some (.ofLoop l)) steps)
      (r := { r with args := args }) ⟨complete_firstWindow? hcomplete hfirst, ?_, hnone⟩ level hbs ?_
    · intro q hq n hn
      rw [Arguments.int?, get?_firstWindow?_of_apart hfirst (hl q hq)] at hn
      exact hthreads q hq n hn
    · rintro q hq t ht
      obtain rfl := Option.some.inj ht
      exact hl q hq

theorem positive_calls {k : Kernel κ} {o : Options} {level mode : String} {caller : Arguments}
    {l : Level} {m : Mode} (haccept : o.accept level mode = .ok (l, m))
    (hbs : ∀ b ∈ candidates k.toSignature o l caller, Reshapes k.toSignature b)
    (hapart : ∀ q ∈ k.ofKind .threads, ∀ t ∈ timeLoops k.nests, Apart t.dim q.name)
    (hcaller : ∀ q ∈ k.ofKind .threads, ∀ n, caller.int? q.name = some n → 1 ≤ n)
    (results : Results) (kernel : κ) (store : Store) :
    ∀ c ∈ calls k o results level mode caller kernel store, c.Positive k.toSignature := by
  unfold calls
  rcases tune_idle_or_explores (recorded k) o results level mode caller (kernel, []) store with
    ⟨hkernel, -⟩ | ⟨l', m', args, haccept', hbind, ht⟩
  · rw [hkernel]
    exact fun c hc => absurd hc List.not_mem_nil
  · obtain ⟨rfl, rfl⟩ := Prod.mk.inj (Except.ok.inj (haccept.symm.trans haccept'))
    have hcomplete := complete_bindParameters hbind
    have hthreads : ∀ q ∈ k.ofKind .threads, ∀ n, args.int? q.name = some n → 1 ≤ n := by
      intro q hq n hn
      rw [Arguments.int?, get?_bindParameters hbind] at hn
      split at hn
      · exact hcaller q hq n hn
      · simp at hn
    rw [ht]
    cases m with
    | runtime => exact positive_withWindow o l .runtime hbs hapart hcomplete rfl hthreads
    | preemptive =>
      obtain ⟨saved, hout⟩ := preemptive_eq (recorded k) o l caller ⟨(kernel, []), store, args, []⟩
      dsimp only
      rw [hout]
      refine positive_withWindow (r := isolated (recorded k) caller ⟨(kernel, []), store, args, []⟩)
        o l .preemptive hbs hapart (complete_copyOutputs (recorded k) store hcomplete) rfl ?_
      intro q hq n hn
      exact hthreads q hq n ((int?_copyOutputs (recorded k) args store q.name).symm.trans hn)

/-- Candidates are positive exactly if no blocked dimension is known to be empty and there are
cores enough where fractions of them are tried. Then no call of a session gets a block size or a
thread count below one. -/
theorem positive_iff_populated_and_staffed {k : Kernel κ} {o : Options} {caller : Arguments}
    (hsizes : ∀ n ∈ o.blockSizes, 1 ≤ n) (hcores : 1 ≤ Candidates.coreCount o) :
    (∀ (blocks : List KernelDimension) (ps : List Parameter) (l : Level),
      (∀ p ∈ ps, ∀ n, caller.int? p.name = some n → 1 ≤ n) →
      ((∀ b ∈ Candidates.blockShapes blocks caller l o ++ Candidates.threadCounts ps caller l o,
        Positive b) ↔ Populated blocks caller ∧ Staffed ps l o)) ∧
    ∀ (level mode : String) (l : Level) (m : Mode), o.accept level mode = .ok (l, m) →
      (∀ q ∈ k.ofKind .threads, ∀ n, caller.int? q.name = some n → 1 ≤ n) →
      (∀ q ∈ k.ofKind .threads, ∀ t ∈ timeLoops k.nests, Apart t.dim q.name) →
      Populated k.blocks caller → Staffed (k.ofKind .threads) l o →
      ∀ (results : Results) (kernel : κ) (store : Store),
        ∀ c ∈ calls k o results level mode caller kernel store, c.Positive k.toSignature := by
  constructor
  · intro blocks ps l hcaller
    rw [List.forall_mem_append, Candidates.positive_blockShapes_iff hsizes,
      Candidates.positive_threadCounts_iff hcaller hcores]
  · intro level mode l m haccept hcaller hapart hpopulated hstaffed
    exact positive_calls haccept (reshapes_candidates
      ((Candidates.positive_blockShapes_iff hsizes).2 hpopulated)
      ((Candidates.positive_threadCounts_iff hcaller hcores).2 hstaffed)) hapart hcaller

/-- The calls of a wide search on a many-core processor, for a kernel whose caller asks for two
threads. -/
def idleCalls (cores : Nat) : List Call :=
  calls (idle "timers") { manyCore := true, cores := cores } [] "aggressive" "preemptive"
    (idleArguments ⟨0, 9⟩) () {}

theorem idleArguments_threads (range : Window) : ∀ q ∈ (idle "timers").ofKind .threads, ∀ n,
    (idleArguments range).int? q.name = some n → 1 ≤ n := by
  intro q hq n hn
  obtain rfl : q = ⟨"nthreads", .threads⟩ := List.mem_singleton.1 hq
  obtain rfl : 2 = n := Option.some.inj hn
  decide

theorem positive_iff_populated_and_staffed_idle :
    (∀ n ∈ ({ manyCore := true } : Options).blockSizes, 1 ≤ n) ∧
      1 ≤ Candidates.coreCount { manyCore := true } ∧ (idleCalls 8).length = 3 ∧
      ∀ c ∈ idleCalls 8, c.Positive (idle "timers").toSignature := by
  have hsizes : ∀ n ∈ ({ manyCore := true } : Options).blockSizes, 1 ≤ n := by decide
  have hcores : 1 ≤ Candidates.coreCount { manyCore := true } := by decide
  obtain ⟨-, hcalls⟩ := @positive_iff_populated_and_staffed _ (idle "timers") _
    (idleArguments ⟨0, 9⟩) hsizes hcores
  refine ⟨hsizes, hcores, by decide +kernel, hcalls "aggressive" "preemptive" .aggressive .preemptive
    (by decide) (idleArguments_threads _) (by decide) ?_ (by unfold Staffed; decide) [] () {}⟩
  exact fun s hs => absurd hs List.not_mem_nil

/-- With two cores the kernel is called with no thread at all, and over an empty dimension blocks
of no size are tried. -/
theorem calls_without_threads :
    (∀ n ∈ ({ manyCore := true, cores := 2 } : Options).blockSizes, 1 ≤ n) ∧
      Candidates.coreCount { manyCore := true, cores := 2 } = 2 ∧
      (idleArguments ⟨0, 9⟩).int? "nthreads" = some 2 ∧
      (idleCalls 2).map (fun c => ((idle "timers").named c.args).int? "nthreads") =
        [some 2, some 1, some 0] ∧
      [("x0_blk0_size", 0)] ∈ Candidates.blockShapes
        [.block (.space "x0_blk0") "x0_blk0_size" (.space "x")]
        ⟨[("x_m", .int 0), ("x_M", .int (-1))]⟩ .basic {} := by
  refine ⟨by decide, by decide, by decide, by decide +kernel, ?_⟩
  exact Candidates.whole_mem_blockShapes (by decide) .basic {}

end Tuning

end Stencil
