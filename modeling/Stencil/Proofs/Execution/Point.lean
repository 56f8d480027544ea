import Std.Data.TreeMap.Lemmas
import Stencil.Execution
import Stencil.Proofs.Pass.Refines

namespace Stencil

open Stencil.Expr Stencil.Flow

theorem Env.resolve_congr {α β : Type} {env : Env α} {env' : Env β}
    (h : env.position = env'.position) (is : List Index) : env.resolve is = env'.resolve is := by
  have hindex : env.resolveIndex = env'.resolveIndex := by
    funext i
    cases i with
    | const c => rfl
    | affine d o => rw [resolveIndex, resolveIndex, h]
  rw [resolve, resolve, hindex]

def Access.place (pos : Position) (x : Access) : Except EvalError (List Int) :=
  ({ symbol := fun _ => none, position := fun d => pos.get? d.name, element := fun _ _ => none } :
    Env Unit).resolve x.indices

def Clash (pos : Position) (x y : Access) : Prop :=
  x.field.name = y.field.name ∧ ∃ p, x.place pos = .ok p ∧ y.place pos = .ok p

namespace Grid

variable {α : Type}

theorem get?_set (g : Grid α) (n m : String) (p q : List Int) (v : α) :
    (g.set n p v).get? m q = if n = m ∧ p = q then some v else g.get? m q := by
  simp only [get?, set, Table.update, Table.get?_insert]
  by_cases hn : n = m
  · subst hn
    cases g.fields.get? n <;> simp [Std.TreeMap.getElem?_insert]
  · simp [hn]

theorem exists_get?_set {g : Grid α} {m : String} {q : List Int} (n : String) (p : List Int)
    (v : α) {w : α} (h : g.get? m q = some w) : ∃ w, (g.set n p v).get? m q = some w := by
  rw [get?_set]
  split
  · exact ⟨v, rfl⟩
  · exact ⟨w, h⟩

variable [Arithmetic α]

def perform (pos : Position) (g : Grid α) (w : Access × Bool × α) : Except EvalError (Grid α) := do
  let p ← w.1.place pos
  if w.2.1 then
    match g.get? w.1.field.name p with
    | some old => return g.set w.1.field.name p (Arithmetic.add old w.2.2)
    | none => throw (.unboundAccess w.1.field.name p)
  else return g.set w.1.field.name p w.2.2

def replay (pos : Position) (W : List (Access × Bool × α)) (g : Grid α) :
    Except EvalError (Grid α) :=
  W.foldlM (perform pos) g

end Grid

namespace Exec

def final? {α : Type} [Arithmetic α] (cs : List (Cluster α)) (g : Grid α) : Option (Grid α) :=
  match (execute cs).run g with
  | .ok _ g' => some g'
  | .error _ _ => none

section Monad

variable {α β γ : Type} {g g' : Grid α} {b : β} {c : γ}

theorem bind_eq_ok {x : Exec α β} {f : β → Exec α γ} : (x >>= f).run g = .ok c g' ↔
    ∃ b h, x.run g = .ok b h ∧ (f b).run h = .ok c g' := by
  simp only [EStateM.run, bind, EStateM.bind]
  cases x g <;> simp

theorem pure_eq_ok {d : β} : (pure b : Exec α β).run g = .ok d g' ↔ d = b ∧ g' = g := by
  simp [EStateM.run, pure, EStateM.pure, eq_comm]

theorem throw_ne_ok {e : EvalError} : ¬ (throw e : Exec α β).run g = .ok b g' := by
  have hrun : (throw e : Exec α β).run g = .error e g := rfl
  simp [hrun]

theorem modify_eq_ok {f : Grid α → Grid α} {u : PUnit} :
    (modify f : Exec α PUnit).run g = .ok u g' ↔ g' = f g := by
  have hrun : (modify f : Exec α PUnit).run g = .ok ⟨⟩ (f g) := rfl
  simp [hrun, eq_comm]

theorem ofExcept_eq_ok {r : Except EvalError β} :
    (ofExcept r : Exec α β).run g = .ok b g' ↔ r = .ok b ∧ g' = g := by
  cases r with
  | error e => simp [ofExcept, throw_ne_ok]
  | ok b => simp [ofExcept, eq_comm]

theorem forM_eq_ok {X : Type} {xs : List X} {f f' : X → Exec α Unit} {u : PUnit}
    (hf : ∀ x ∈ xs, ∀ u h h', (f x).run h = .ok u h' → (f' x).run h = .ok u h')
    (h : (forM xs f).run g = .ok u g') : (forM xs f').run g = .ok u g' := by
  induction xs generalizing g with
  | nil => exact h
  | cons x xs ih =>
    obtain ⟨hfx, hf⟩ := List.forall_mem_cons.1 hf
    rw [List.forM_cons, bind_eq_ok] at h ⊢
    obtain ⟨v, k, hx, hxs⟩ := h
    exact ⟨v, k, hfx v g k hx, ih hf hxs⟩

end Monad

variable {α : Type} [Arithmetic α] {pos : Position} {g g' : Grid α} {sc sc' : Table String α}
  {a : Assignment α} {as bs : List (Assignment α)} {i : Expr α}

theorem final?_eq_some {cs : List (Cluster α)} :
    final? cs g = some g' ↔ (execute cs).run g = .ok () g' := by
  unfold final?
  cases (execute cs).run g <;> simp

theorem resolve_env (x : Access) : (env g pos sc).resolve x.indices = x.place pos :=
  Env.resolve_congr rfl _

theorem eval_access_eq_ok {x : Access} {v : α} :
    (access x).eval (env g pos sc) = .ok v ↔
      ∃ p, x.place pos = .ok p ∧ g.get? x.field.name p = some v := by
  rw [eval, resolve_env]
  cases x.place pos with
  | error e => simp [bind, Except.bind]
  | ok p =>
    have helement : (env g pos sc).element x.field p = g.get? x.field.name p := rfl
    simp only [bind, Except.bind, helement, Except.ok.injEq, exists_eq_left']
    cases g.get? x.field.name p <;> simp

theorem eval_sym_eq_ok {s : String} {v : α} :
    (sym s).eval (env g pos sc) = .ok v ↔ (env g pos sc).symbol s = some v := by
  rw [eval]
  cases (env g pos sc).symbol s <;> simp

theorem symbol_insert (s t : String) (v : α) :
    (env g pos (sc.insert s v)).symbol t =
      if s = t then some v else (env g pos sc).symbol t := by
  simp only [env, Table.get?_insert, beq_iff_eq]
  split <;> simp

theorem eval_insert {s : String} {v : α} (hi : i.isInput = true) (hs : i ≠ sym s) :
    i.eval (env g pos (sc.insert s v)) = i.eval (env g pos sc) := by
  cases i with
  | sym t =>
    have hst : s ≠ t := fun h => hs (h ▸ rfl)
    rw [eval, eval, symbol_insert, if_neg hst]
  | access x => rfl
  | _ => simp [isInput, isSymbol, isAccess] at hi

theorem eval_set {x : Access} {p : List Int} {v w : α} (hp : x.place pos = .ok p)
    (hi : i.isInput = true) (hc : ∀ y, i = access y → ¬ Clash pos x y) :
    i.eval (env (g.set x.field.name p v) pos sc) = .ok w ↔ i.eval (env g pos sc) = .ok w := by
  cases i with
  | sym t => rfl
  | access y =>
    rw [eval_access_eq_ok, eval_access_eq_ok]
    refine exists_congr fun q => and_congr_right fun hq => ?_
    rw [Grid.get?_set, if_neg]
    rintro ⟨hn, rfl⟩
    exact hc y rfl ⟨hn, p, hp, hq⟩
  | _ => simp [isInput, isSymbol, isAccess] at hi

theorem assign_eq_ok :
    (assign pos sc a).run g = .ok sc' g' ↔ ∃ v, value (env g pos sc) a = .ok v ∧
      ((∃ s, a.lhs = sym s ∧ sc' = sc.insert s v ∧ g' = g) ∨
        ∃ x p, a.lhs = access x ∧ x.place pos = .ok p ∧ sc' = sc ∧
          g' = g.set x.field.name p v) := by
  have hget : (get : Exec α (Grid α)).run g = .ok g g := rfl
  unfold assign
  simp only [bind_eq_ok, hget, EStateM.Result.ok.injEq, ofExcept_eq_ok]
  constructor
  · rintro ⟨_, _, ⟨rfl, rfl⟩, v, _, ⟨hv, rfl⟩, h⟩
    refine ⟨v, hv, ?_⟩
    cases hl : a.lhs with
    | sym s =>
      rw [hl, pure_eq_ok] at h
      exact .inl ⟨s, rfl, h⟩
    | access x =>
      simp only [hl, bind_eq_ok, ofExcept_eq_ok, resolve_env] at h
      obtain ⟨p, _, ⟨hp, rfl⟩, _, _, hm, h⟩ := h
      rw [modify_eq_ok] at hm
      rw [pure_eq_ok] at h
      exact .inr ⟨x, p, rfl, hp, h.1, h.2.trans hm⟩
    | _ =>
      rw [hl] at h
      exact absurd h throw_ne_ok
  · rintro ⟨v, hv, h⟩
    refine ⟨g, g, ⟨rfl, rfl⟩, v, g, ⟨hv, rfl⟩, ?_⟩
    rcases h with ⟨s, hl, rfl, rfl⟩ | ⟨x, p, hl, hp, rfl, rfl⟩
    · rw [hl]
      rfl
    · simp only [hl, bind_eq_ok, ofExcept_eq_ok, resolve_env]
      exact ⟨p, g, ⟨hp, rfl⟩, (), _, rfl, rfl⟩

end Exec

end Stencil
