import Stencil.Proofs.Execution.Point
import Stencil.Proofs.Expr.Evaluation

namespace Stencil.Exec

open Stencil.Expr Stencil.Flow

variable {α : Type} [Arithmetic α] {pos : Position} {g g' : Grid α} {sc sc' : Table String α}
  {a : Assignment α} {as bs : List (Assignment α)} {P : Leaves α} {ρ : Expr α → α}

def Runs (pos : Position) (as : List (Assignment α)) (sc : Table String α) (g : Grid α)
    (sc' : Table String α) (g' : Grid α) : Prop :=
  (as.foldlM (assign pos) sc).run g = .ok sc' g'

theorem runs_nil : Runs pos [] sc g sc' g' ↔ sc' = sc ∧ g' = g := pure_eq_ok

theorem runs_cons : Runs pos (a :: as) sc g sc' g' ↔
    ∃ sc₁ g₁, (assign pos sc a).run g = .ok sc₁ g₁ ∧ Runs pos as sc₁ g₁ sc' g' := by
  rw [Runs, List.foldlM_cons]
  exact bind_eq_ok

theorem runs_append : Runs pos (as ++ bs) sc g sc' g' ↔
    ∃ sc₁ g₁, Runs pos as sc g sc₁ g₁ ∧ Runs pos bs sc₁ g₁ sc' g' := by
  rw [Runs, List.foldlM_append]
  exact bind_eq_ok

theorem atPoint_eq_ok {c : Cluster α} {u : Unit} :
    (atPoint c pos).run g = .ok u g' ↔ ∃ sc, Runs pos c.assignments .empty g sc g' := by
  have hrun : atPoint c pos = c.assignments.foldlM (assign pos) .empty >>= fun _ => pure () := rfl
  rw [hrun, bind_eq_ok]
  simp only [pure_eq_ok, true_and, Runs]
  exact exists_congr fun sc => exists_eq_right'

theorem Runs.get? (h : Runs pos as sc g sc' g') {s : String} (hs : ∀ a ∈ as, a.lhs ≠ sym s) :
    sc'.get? s = sc.get? s := by
  induction as generalizing sc g with
  | nil => rw [(runs_nil.1 h).1]
  | cons a as ih =>
    obtain ⟨sc₁, g₁, hstep, hrest⟩ := runs_cons.1 h
    rw [ih hrest fun b hb => hs b (List.mem_cons_of_mem a hb)]
    obtain ⟨v, -, ⟨t, ht, rfl, -⟩ | ⟨x, p, -, -, rfl, -⟩⟩ := assign_eq_ok.1 hstep
    · have hne : t ≠ s := fun hts => hs a List.mem_cons_self (hts ▸ ht)
      rw [Table.get?_insert, if_neg (by simpa using hne)]
    · rfl

theorem value_plain {env : Env α} (h : a.increment = false) : value env a = a.rhs.eval env := by
  rw [value, h]
  rfl

theorem value_increment {env : Env α} (h : a.increment = true) {v : α} :
    value env a = .ok v ↔ ∃ old w, a.lhs.eval env = .ok old ∧ a.addition.eval env = .ok w ∧
      v = Arithmetic.add old w := by
  rw [value, h, if_pos rfl]
  cases a.lhs.eval env with
  | error e => simp [bind, Except.bind]
  | ok old =>
    cases a.addition.eval env with
    | error e => simp [bind, Except.bind]
    | ok w => simp [bind, Except.bind, pure, Except.pure, eq_comm]

theorem perform_eq_ok {x : Access} {inc : Bool} {w : α} :
    g.perform pos (x, inc, w) = .ok g' ↔ ∃ p, x.place pos = .ok p ∧
      ((inc = false ∧ g' = g.set x.field.name p w) ∨
        inc = true ∧ ∃ old, g.get? x.field.name p = some old ∧
          g' = g.set x.field.name p (Arithmetic.add old w)) := by
  unfold Grid.perform
  cases x.place pos with
  | error e => simp [bind, Except.bind]
  | ok p =>
    cases inc with
    | false => simp [bind, Except.bind, pure, Except.pure, eq_comm]
    | true =>
      cases hold : g.get? x.field.name p with
      | none => simp [bind, Except.bind, hold, throw, throwThe, MonadExceptOf.throw]
      | some old => simp [bind, Except.bind, pure, Except.pure, hold, eq_comm]

theorem perform_eq_set {x : Access} {inc : Bool} {w : α} (h : g.perform pos (x, inc, w) = .ok g') :
    ∃ p v, x.place pos = .ok p ∧ g' = g.set x.field.name p v := by
  obtain ⟨p, hp, ⟨-, rfl⟩ | ⟨-, old, -, rfl⟩⟩ := perform_eq_ok.1 h <;> exact ⟨p, _, hp, rfl⟩

theorem replay_cons {w : Access × Bool × α} {W : List (Access × Bool × α)} :
    g.replay pos (w :: W) = .ok g' ↔
      ∃ g₁, g.perform pos w = .ok g₁ ∧ g₁.replay pos W = .ok g' := by
  rw [Grid.replay, List.foldlM_cons]
  cases Grid.perform pos g w <;> simp [bind, Except.bind, Grid.replay]

theorem assign_scalar {s : String} {w : α} (hl : a.lhs = sym s) (hinc : a.increment = false)
    (hw : a.rhs.eval (env g pos sc) = .ok w) :
    (assign pos sc a).run g = .ok sc' g' ↔ sc' = sc.insert s w ∧ g' = g := by
  rw [assign_eq_ok]
  simp [value_plain hinc, hw, hl]

theorem assign_access {x : Access} {w : α} (hl : a.lhs = access x)
    (hadd : a.increment = true → a.addition = a.rhs)
    (hw : a.rhs.eval (env g pos sc) = .ok w) :
    (assign pos sc a).run g = .ok sc' g' ↔ sc' = sc ∧ g.perform pos (x, a.increment, w) = .ok g' := by
  rw [assign_eq_ok, perform_eq_ok]
  cases hinc : a.increment with
  | false =>
    simp only [value_plain hinc, hw, hl]
    constructor
    · rintro ⟨v, hv, ⟨s, hs, -⟩ | ⟨y, p, hy, hp, rfl, rfl⟩⟩
      · simp at hs
      · cases hy
        cases hv
        exact ⟨rfl, p, hp, .inl ⟨trivial, rfl⟩⟩
    · rintro ⟨rfl, p, hp, ⟨-, rfl⟩ | ⟨h, -⟩⟩
      · exact ⟨w, rfl, .inr ⟨x, p, rfl, hp, rfl, rfl⟩⟩
      · simp at h
  | true =>
    simp only [value_increment hinc, hadd hinc, hw, hl, eval_access_eq_ok]
    constructor
    · rintro ⟨v, ⟨old, _, ⟨p, hp, hold⟩, ⟨⟩, rfl⟩, ⟨s, hs, -⟩ | ⟨y, q, hy, hq, rfl, rfl⟩⟩
      · simp at hs
      · cases hy
        obtain rfl : p = q := by simpa [hp] using hq
        exact ⟨rfl, p, hp, .inr ⟨trivial, old, hold, rfl⟩⟩
    · rintro ⟨rfl, p, hp, ⟨h, -⟩ | ⟨-, old, hold, rfl⟩⟩
      · simp at h
      · exact ⟨_, ⟨old, w, ⟨p, hp, hold⟩, rfl, rfl⟩, .inr ⟨x, p, rfl, hp, rfl, rfl⟩⟩

def Sees (ρ : Expr α → α) (P : Leaves α) (env : Env α) : Prop :=
  ∀ i ∈ P, i.isInput = true ∧ i.eval env = .ok (ρ i)

theorem Sees.scalar (h : Sees ρ P (env g pos sc)) (s : String) :
    Sees ρ (insert (sym s) P) (env g pos (sc.insert s (ρ (sym s)))) := by
  have hself : (sym s).eval (env g pos (sc.insert s (ρ (sym s)))) = .ok (ρ (sym s)) := by
    rw [eval_sym_eq_ok, symbol_insert, if_pos rfl]
  rintro i (rfl | hi)
  · exact ⟨rfl, hself⟩
  · by_cases his : i = sym s
    · exact ⟨(h i hi).1, his ▸ hself⟩
    · exact ⟨(h i hi).1, (eval_insert (h i hi).1 his).trans (h i hi).2⟩

theorem Sees.store (h : Sees ρ P (env g pos sc)) {x : Access} {p : List Int}
    (hp : x.place pos = .ok p) (v : α) :
    Sees ρ {i | i ∈ P ∧ ∀ y, i = access y → ¬ Clash pos x y}
      (env (g.set x.field.name p v) pos sc) := fun i hi =>
  ⟨(h i hi.1).1, (eval_set hp (h i hi.1).1 hi.2).2 (h i hi.1).2⟩

def Bound (P : Leaves α) (env : Env α) : Prop :=
  ∀ i ∈ P, i.isInput = true ∧ ∃ v, i.eval env = .ok v

variable [AlgebraicField α] [Exact α]

theorem Sees.eval (h : Sees ρ P (env g pos sc)) {e : Expr α} (hu : Unary e)
    (he : ∀ i ∈ e.inputs, i ∈ P) : e.eval (env g pos sc) = .ok (denote ρ e) :=
  eval_eq_denote hu fun i hi => (h i (he i hi)).2

omit [Exact α] in
theorem effects_scalar {s : String} (hl : a.lhs = sym s) : effects ρ (a :: as) = effects ρ as := by
  rw [effects, List.filterMap_cons, hl]
  rfl

omit [Exact α] in
theorem effects_access {x : Access} (hl : a.lhs = access x) :
    effects ρ (a :: as) = (x, a.increment, denote ρ a.rhs) :: effects ρ as := by
  rw [effects, List.filterMap_cons, hl]
  rfl

theorem Runs.effects (hu : ∀ a ∈ as, Unary a.rhs) (hpure : ∀ a ∈ as, PureIncrement a)
    (hplain : ∀ a ∈ as, a.lhs.isSymbol = true → a.increment = false)
    (honce : as.Pairwise fun a b => a.lhs.isSymbol = true → a.lhs ≠ b.lhs)
    (hready : Ready (Clash pos) P as) (hsees : Sees ρ P (env g pos sc))
    (hrun : Runs pos as sc g sc' g')
    (hfinal : ∀ a ∈ as, ∀ s v, a.lhs = sym s → sc'.get? s = some v → ρ (sym s) = v) :
    (∀ a ∈ as, Settled ρ a) ∧ g.replay pos (effects ρ as) = .ok g' := by
  induction as generalizing sc g P with
  | nil => exact ⟨by simp, by rw [(runs_nil.1 hrun).2]; rfl⟩
  | cons a as ih =>
    obtain ⟨sc₁, g₁, hstep, hrest⟩ := runs_cons.1 hrun
    rw [List.pairwise_cons] at honce
    obtain ⟨hua, hu⟩ := List.forall_mem_cons.1 hu
    obtain ⟨hpurea, hpure⟩ := List.forall_mem_cons.1 hpure
    obtain ⟨hplaina, hplain⟩ := List.forall_mem_cons.1 hplain
    obtain ⟨hfinala, hfinal⟩ := List.forall_mem_cons.1 hfinal
    have hw := hsees.eval hua hready.1
    have hready' := hready.2
    unfold after at hready'
    obtain ⟨-, -, ⟨s, hl, -⟩ | ⟨x, -, hl, -⟩⟩ := assign_eq_ok.1 hstep
    · have hsym : a.lhs.isSymbol = true := by rw [hl]; rfl
      have hinc := hplaina hsym
      obtain ⟨rfl, rfl⟩ := (assign_scalar hl hinc hw).1 hstep
      have hlast : sc'.get? s = some (denote ρ a.rhs) := by
        rw [hrest.get? fun b hb => hl ▸ (honce.1 b hb hsym).symm, Table.get?_insert,
          if_pos (beq_self_eq_true s)]
      have hs := hfinala s _ hl hlast
      rw [hl] at hready'
      obtain ⟨hsettled, hreplay⟩ := ih hu hpure hplain honce.2 hready' (hs ▸ hsees.scalar s) hrest hfinal
      rw [effects_scalar hl]
      refine ⟨List.forall_mem_cons.2 ⟨⟨by rw [hl]; rfl, fun t ht => ⟨hinc, ?_⟩⟩, hsettled⟩, hreplay⟩
      rw [← ht, hl, hs]
    · obtain ⟨rfl, hperform⟩ :=
        (assign_access hl (hpurea.addition hl) hw).1 hstep
      obtain ⟨p, v, hp, rfl⟩ := perform_eq_set hperform
      rw [hl] at hready'
      obtain ⟨hsettled, hreplay⟩ := ih hu hpure hplain honce.2 hready' (hsees.store hp v) hrest hfinal
      rw [effects_access hl]
      refine ⟨List.forall_mem_cons.2 ⟨⟨by rw [hl]; rfl, fun t ht => ?_⟩, hsettled⟩, ?_⟩
      · simp [hl] at ht
      · exact replay_cons.2 ⟨_, hperform, hreplay⟩

theorem runs_of_effects (hu : ∀ a ∈ as, Unary a.rhs) (hpure : ∀ a ∈ as, PureIncrement a)
    (hsettled : ∀ a ∈ as, Settled ρ a) (hready : Ready (Clash pos) P as)
    (hsees : Sees ρ P (env g pos sc)) (h : g.replay pos (effects ρ as) = .ok g') :
    ∃ sc', Runs pos as sc g sc' g' := by
  induction as generalizing sc g P with
  | nil =>
    have hg : g = g' := by simpa [Flow.effects, Grid.replay, pure, Except.pure] using h
    exact ⟨sc, runs_nil.2 ⟨rfl, hg.symm⟩⟩
  | cons a as ih =>
    obtain ⟨hua, hu⟩ := List.forall_mem_cons.1 hu
    obtain ⟨hpurea, hpure⟩ := List.forall_mem_cons.1 hpure
    obtain ⟨hsettleda, hsettled⟩ := List.forall_mem_cons.1 hsettled
    have hw := hsees.eval hua hready.1
    have hready' := hready.2
    unfold after at hready'
    have htarget := hsettleda.target
    cases hl : a.lhs with
    | sym s =>
      rw [effects_scalar hl] at h
      obtain ⟨hinc, hs⟩ := hsettleda.scalar s hl
      rw [hl] at hready'
      obtain ⟨sc', hrest⟩ := ih hu hpure hsettled hready' (hsees.scalar s) h
      exact ⟨sc', runs_cons.2 ⟨_, _, (assign_scalar hl hinc hw).2 ⟨hs ▸ rfl, rfl⟩, hrest⟩⟩
    | access x =>
      rw [effects_access hl] at h
      obtain ⟨g₁, hperform, h⟩ := replay_cons.1 h
      have hstep := (assign_access hl (hpurea.addition hl) hw).2 ⟨rfl, hperform⟩
      obtain ⟨p, v, hp, rfl⟩ := perform_eq_set hperform
      rw [hl] at hready'
      obtain ⟨sc', hrest⟩ := ih hu hpure hsettled hready' (hsees.store hp v) h
      exact ⟨sc', runs_cons.2 ⟨_, _, hstep, hrest⟩⟩
    | _ => simp [hl, isInput, isSymbol, isAccess] at htarget

theorem Runs.get?_target (hu : ∀ a ∈ as, Unary a.rhs) (hpure : ∀ a ∈ as, PureIncrement a)
    (hsettled : ∀ a ∈ as, Settled ρ a) (hready : Ready (Clash pos) P as)
    (hsees : Sees ρ P (env g pos sc)) (hrun : Runs pos as sc g sc' g') {s : String}
    (hs : sc.get? s = some (ρ (sym s)) ∨ ∃ a ∈ as, a.lhs = sym s) :
    sc'.get? s = some (ρ (sym s)) := by
  induction as generalizing sc g P with
  | nil =>
    obtain ⟨rfl, -⟩ := runs_nil.1 hrun
    exact hs.resolve_right (by simp)
  | cons a as ih =>
    obtain ⟨sc₁, g₁, hstep, hrest⟩ := runs_cons.1 hrun
    obtain ⟨hua, hu⟩ := List.forall_mem_cons.1 hu
    obtain ⟨hpurea, hpure⟩ := List.forall_mem_cons.1 hpure
    obtain ⟨hsettleda, hsettled⟩ := List.forall_mem_cons.1 hsettled
    have hw := hsees.eval hua hready.1
    have hready' := hready.2
    unfold after at hready'
    have hlater : a.lhs ≠ sym s →
        sc.get? s = some (ρ (sym s)) ∨ ∃ b ∈ as, b.lhs = sym s := fun hne =>
      hs.imp_right fun ⟨b, hb, hl⟩ =>
        ⟨b, (List.mem_cons.1 hb).resolve_left fun heq => hne (heq ▸ hl), hl⟩
    obtain ⟨-, -, ⟨t, hl, -⟩ | ⟨x, -, hl, -⟩⟩ := assign_eq_ok.1 hstep
    · obtain ⟨hinc, ht⟩ := hsettleda.scalar t hl
      obtain ⟨rfl, rfl⟩ := (assign_scalar hl hinc hw).1 hstep
      rw [hl] at hready'
      refine ih hu hpure hsettled hready' (ht ▸ hsees.scalar t) hrest ?_
      rw [Table.get?_insert]
      by_cases hts : t = s
      · exact .inl (by rw [if_pos (beq_iff_eq.2 hts), ← ht, hts])
      · rw [if_neg (by simpa using hts)]
        exact hlater fun heq => hts (sym.inj (hl.symm.trans heq))
    · obtain ⟨rfl, hperform⟩ := (assign_access hl (hpurea.addition hl) hw).1 hstep
      obtain ⟨p, v, hp, rfl⟩ := perform_eq_set hperform
      rw [hl] at hready'
      exact ih hu hpure hsettled hready' (hsees.store hp v) hrest (hlater (by simp [hl]))

omit [AlgebraicField α] [Exact α] in
theorem Bound.step (h : Bound P (env g pos sc)) (hstep : (assign pos sc a).run g = .ok sc' g') :
    Bound (after never P a) (env g' pos sc') := by
  unfold after
  obtain ⟨v, -, ⟨s, hl, rfl, rfl⟩ | ⟨x, p, hl, -, rfl, rfl⟩⟩ := assign_eq_ok.1 hstep
  · rw [hl]
    have hself : (sym s).eval (env g' pos (sc.insert s v)) = .ok v := by
      rw [eval_sym_eq_ok, symbol_insert, if_pos rfl]
    rintro i (rfl | hi)
    · exact ⟨rfl, v, hself⟩
    · by_cases his : i = sym s
      · exact ⟨(h i hi).1, v, his ▸ hself⟩
      · exact ⟨(h i hi).1, (eval_insert (h i hi).1 his).symm ▸ (h i hi).2⟩
  · rw [hl]
    rintro i ⟨hi, -⟩
    obtain ⟨hin, w, hw⟩ := h i hi
    cases i with
    | sym s => exact ⟨hin, w, hw⟩
    | access y =>
      obtain ⟨q, hq, hget⟩ := eval_access_eq_ok.1 hw
      obtain ⟨u, hu⟩ := Grid.exists_get?_set x.field.name p v hget
      exact ⟨hin, u, eval_access_eq_ok.2 ⟨q, hq, hu⟩⟩
    | _ => simp [isInput, isSymbol, isAccess] at hin

omit [AlgebraicField α] [Exact α] in
theorem Bound.runs (h : Bound P (env g pos sc)) (hrun : Runs pos as sc g sc' g') :
    Bound (afterAll never P as) (env g' pos sc') := by
  induction as generalizing sc g P with
  | nil =>
    obtain ⟨rfl, rfl⟩ := runs_nil.1 hrun
    exact h
  | cons a as ih =>
    obtain ⟨sc₁, g₁, hstep, hrest⟩ := runs_cons.1 hrun
    exact ih (h.step hstep) hrest

theorem Bound.eval (h : Bound P (env g pos sc)) {e : Expr α} (hu : Unary e)
    (he : ∀ i ∈ e.inputs, i ∈ P) : ∃ v, e.eval (env g pos sc) = .ok v := by
  choose! value hvalue using fun i hi => (h i hi).2
  exact ⟨_, eval_eq_denote hu fun i hi => hvalue i (he i hi)⟩

theorem runs_scalars (hu : ∀ a ∈ as, Unary a.rhs) (hs : ∀ a ∈ as, a.lhs.isSymbol = true)
    (hinc : ∀ a ∈ as, a.increment = false) (hready : Ready never P as)
    (hbound : Bound P (env g pos sc)) : ∃ sc', Runs pos as sc g sc' g := by
  induction as generalizing sc P with
  | nil => exact ⟨sc, runs_nil.2 ⟨rfl, rfl⟩⟩
  | cons a as ih =>
    obtain ⟨hua, hu⟩ := List.forall_mem_cons.1 hu
    obtain ⟨hsa, hs⟩ := List.forall_mem_cons.1 hs
    obtain ⟨hinca, hinc⟩ := List.forall_mem_cons.1 hinc
    obtain ⟨v, hv⟩ := hbound.eval hua hready.1
    cases hl : a.lhs with
    | sym s =>
      have hstep := (assign_scalar hl hinca hv).2 ⟨rfl, rfl⟩
      obtain ⟨sc', hrest⟩ := ih hu hs hinc hready.2 (hbound.step hstep)
      exact ⟨sc', runs_cons.2 ⟨_, _, hstep, hrest⟩⟩
    | _ => simp [hl, isSymbol] at hsa

omit [Exact α] in
theorem settled_plain (h : Settled ρ a) (hs : a.lhs.isSymbol = true) : a.increment = false := by
  cases hl : a.lhs with
  | sym s => exact (h.scalar s hl).1
  | _ => simp [hl, isSymbol] at hs

theorem runs_of_split {live dead : List (Assignment α)} (hu : ∀ a ∈ live ++ dead, Unary a.rhs)
    (hpure : ∀ a ∈ live ++ dead, PureIncrement a) (hsplit : Split (Clash pos) P live dead)
    (hsettled : ∀ a ∈ live ++ dead, Settled ρ a) (hsees : Sees ρ P (env g pos sc))
    (h : g.replay pos (effects ρ (live ++ dead)) = .ok g') :
    ∃ sc', Runs pos (live ++ dead) sc g sc' g' ∧ ∀ s, (∃ a ∈ live, a.lhs = sym s) →
      (∀ a ∈ dead, a.lhs ≠ sym s) → sc'.get? s = some (ρ (sym s)) := by
  have hbound : Bound P (env g pos sc) := fun i hi => ⟨(hsees i hi).1, _, (hsees i hi).2⟩
  obtain ⟨hulive, hudead⟩ := List.forall_mem_append.1 hu
  obtain ⟨hpurelive, -⟩ := List.forall_mem_append.1 hpure
  obtain ⟨hsettledlive, hsettleddead⟩ := List.forall_mem_append.1 hsettled
  rw [effects_append, effects_scalars hsplit.scalars, List.append_nil] at h
  obtain ⟨sc₁, hlive⟩ := runs_of_effects hulive hpurelive hsettledlive hsplit.ready hsees h
  obtain ⟨sc', hdead⟩ := runs_scalars hudead hsplit.scalars
    (fun a ha => settled_plain (hsettleddead a ha) (hsplit.scalars a ha)) hsplit.rest (hbound.runs hlive)
  refine ⟨sc', runs_append.2 ⟨sc₁, g', hlive, hdead⟩, fun s hs hnot => ?_⟩
  rw [hdead.get? hnot]
  exact hlive.get?_target hulive hpurelive hsettledlive hsplit.ready hsees (.inr hs)

theorem runs_of_models {β : Expr α → α} {W : List (Access × Bool × α)}
    (hu : ∀ a ∈ as, Unary a.rhs) (hpure : ∀ a ∈ as, PureIncrement a)
    (hmodels : Models (Clash pos) P β W as) (hsees : Sees β P (env g pos sc))
    (h : g.replay pos W = .ok g') : ∃ sc', Runs pos as sc g sc' g' := by
  obtain ⟨ρ, live, dead, rfl, hsplit, hρ, hsettled, rfl⟩ := hmodels.exists_split
  have hseesρ : Sees ρ P (env g pos sc) := fun i hi =>
    ⟨(hsees i hi).1, (hsees i hi).2.trans (congrArg _ (hρ i hi).symm)⟩
  obtain ⟨sc', hruns, -⟩ := runs_of_split hu hpure hsplit hsettled hseesρ h
  exact ⟨sc', hruns⟩

/-- Assignments that define each scalar once, by a plain assignment, before they read it. -/
structure StraightLine (as : List (Assignment α)) : Prop where
  unary : ∀ a ∈ as, Unary a.rhs
  plain : ∀ a ∈ as, a.lhs.isSymbol = true → a.increment = false
  once : as.Pairwise fun a b => a.lhs.isSymbol = true → a.lhs ≠ b.lhs
  own : ∀ a ∈ as, a.lhs.isSymbol = true → a.lhs ∉ a.rhs.inputs
  later : as.Pairwise fun a b => b.lhs.isSymbol = true → b.lhs ∉ a.rhs.inputs

/-- No assignment reads an element that one before it wrote at the same point. -/
def HazardFree (pos : Position) (as : List (Assignment α)) : Prop :=
  as.Pairwise fun a b =>
    ∀ x y, a.lhs = access x → access y ∈ b.rhs.inputs → ¬ Clash pos x y

omit [AlgebraicField α] [Arithmetic α] [Exact α] in
theorem StraightLine.tail (h : StraightLine (a :: as)) : StraightLine as where
  unary := fun b hb => h.unary b (List.mem_cons_of_mem a hb)
  plain := fun b hb => h.plain b (List.mem_cons_of_mem a hb)
  once := h.once.of_cons
  own := fun b hb => h.own b (List.mem_cons_of_mem a hb)
  later := h.later.of_cons

def found (pos : Position) (g : Grid α) (sc : Table String α) (as : List (Assignment α)) :
    Leaves α :=
  {i | (∃ a ∈ as, i ∈ a.rhs.inputs) ∧ (∀ a ∈ as, a.lhs = i → i.isSymbol = false) ∧
    ∃ v, i.eval (env g pos sc) = .ok v}

theorem eval_rhs_of_assign (hpure : PureIncrement a)
    (hplain : a.lhs.isSymbol = true → a.increment = false)
    (h : (assign pos sc a).run g = .ok sc' g') : ∃ w, a.rhs.eval (env g pos sc) = .ok w := by
  obtain ⟨v, hv, htarget⟩ := assign_eq_ok.1 h
  cases hinc : a.increment with
  | false => exact ⟨v, value_plain hinc ▸ hv⟩
  | true =>
    rcases htarget with ⟨s, hl, -⟩ | ⟨x, -, hl, -⟩
    · have := hplain (by rw [hl]; rfl)
      simp [hinc] at this
    · obtain ⟨-, w, -, hw, -⟩ := (value_increment hinc).1 hv
      exact ⟨w, hpure.addition hl hinc ▸ hw⟩

theorem ready_of_runs (h : StraightLine as) (hpure : ∀ a ∈ as, PureIncrement a)
    (hhazard : HazardFree pos as) (hrun : Runs pos as sc g sc' g') :
    Ready (Clash pos) (found pos g sc as) as := by
  induction as generalizing sc g with
  | nil => trivial
  | cons a as ih =>
    obtain ⟨sc₁, g₁, hstep, hrest⟩ := runs_cons.1 hrun
    obtain ⟨hpurea, hpures⟩ := List.forall_mem_cons.1 hpure
    have hmem : a ∈ a :: as := List.mem_cons_self
    obtain ⟨w, hw⟩ := eval_rhs_of_assign hpurea (h.plain a hmem) hstep
    refine ⟨fun i hi => ⟨⟨a, hmem, hi⟩, ?_, eval_inputs (h.unary a hmem) hw i hi⟩, ?_⟩
    · rintro b hb rfl
      by_contra hsym
      rw [Bool.not_eq_false] at hsym
      rcases List.mem_cons.1 hb with rfl | hb
      · exact h.own b hmem hsym hi
      · exact List.rel_of_pairwise_cons h.later hb hsym hi
    · refine (ih h.tail hpures hhazard.of_cons hrest).mono ?_
      rintro i ⟨⟨b, hb, hi⟩, htarget, v, hv⟩
      have hin := (mem_inputs.1 hi).2
      have hread : ∃ b ∈ a :: as, i ∈ b.rhs.inputs := ⟨b, List.mem_cons_of_mem a hb, hi⟩
      unfold after
      obtain ⟨u, -, ⟨s, hl, rfl, rfl⟩ | ⟨x, p, hl, hp, rfl, rfl⟩⟩ := assign_eq_ok.1 hstep
      · rw [hl]
        by_cases his : i = sym s
        · exact .inl his
        · refine .inr ⟨hread, List.forall_mem_cons.2 ⟨fun hai => ?_, htarget⟩, v, ?_⟩
          · exact absurd (hai.symm.trans hl) his
          · rw [← eval_insert hin his]
            exact hv
      · have hclash : ∀ y, i = access y → ¬ Clash pos x y := by
          rintro y rfl
          exact List.rel_of_pairwise_cons hhazard hb x y hl hi
        rw [hl]
        refine ⟨⟨hread, List.forall_mem_cons.2 ⟨?_, htarget⟩, v, ?_⟩, hclash⟩
        · rintro rfl
          rw [hl]
          rfl
        · exact (eval_set hp hin hclash).1 hv

theorem settled_of_runs (h : StraightLine as) (hpure : ∀ a ∈ as, PureIncrement a)
    (hhazard : HazardFree pos as) (hrun : Runs pos as .empty g sc' g') :
    ∃ P ρ, (∀ i ∈ P, ∃ a ∈ as, i ∈ a.rhs.inputs) ∧ Sees ρ P (env g pos .empty) ∧
      Ready (Clash pos) P as ∧ (∀ a ∈ as, Settled ρ a) ∧ g.replay pos (effects ρ as) = .ok g' := by
  let β : Expr α → α := fun i => (i.eval (env g pos .empty)).toOption.getD 0
  let ρ : Expr α → α := fun i => (i.symbol?.bind sc'.get?).getD (β i)
  let P := found pos g .empty as
  have hready := ready_of_runs h hpure hhazard hrun
  have hsees : Sees ρ P (env g pos .empty) := by
    rintro i ⟨⟨a, -, hi⟩, htarget, v, hv⟩
    have hρ : ρ i = β i := by
      cases i with
      | sym s =>
        have hlocal : sc'.get? s = Table.empty.get? s :=
          hrun.get? fun a ha hl => by simpa [isSymbol] using htarget a ha hl
        simp only [ρ, symbol?, Option.bind_some, hlocal]
        rfl
      | _ => rfl
    refine ⟨(mem_inputs.1 hi).2, ?_⟩
    rw [hρ]
    simp only [β, hv, Except.toOption, Option.getD_some]
  obtain ⟨hsettled, hreplay⟩ := hrun.effects h.unary hpure h.plain h.once hready hsees
    fun a _ s v _ hv => by simp [ρ, symbol?, hv]
  exact ⟨P, ρ, fun i hi => hi.1, hsees, hready, hsettled, hreplay⟩

theorem models_of_runs (h : StraightLine as) (hpure : ∀ a ∈ as, PureIncrement a)
    (hhazard : HazardFree pos as) (hrun : Runs pos as .empty g sc' g') :
    ∃ P β W, (∀ i ∈ P, ∃ a ∈ as, i ∈ a.rhs.inputs) ∧ Sees β P (env g pos .empty) ∧
      Models (Clash pos) P β W as ∧ g.replay pos W = .ok g' := by
  obtain ⟨P, ρ, hP, hsees, hready, hsettled, hreplay⟩ := settled_of_runs h hpure hhazard hrun
  refine ⟨P, ρ, effects ρ as, hP, hsees, ⟨ρ, as, [], ?_⟩, hreplay⟩
  exact ⟨(List.append_nil as).symm, ⟨hready, trivial, by simp⟩, fun _ _ => rfl, hsettled, rfl⟩

end Stencil.Exec
