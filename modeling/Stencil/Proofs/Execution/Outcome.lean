import Stencil.Proofs.Execution.Point
import Stencil.Proofs.Execution.Walk
import Stencil.Proofs.Expr.Evaluation

/-!
Outcomes of executions that may fail. What was written before an error stays, and so belongs to
the outcome; which error it was does not.
-/

namespace Stencil.Exec

open Stencil.Expr

variable {α β γ : Type}

def outcome (x : Exec α β) (g : Grid α) : Bool × Grid α :=
  match x.run g with
  | .ok _ g' => (true, g')
  | .error _ g' => (false, g')

theorem outcome_of_ok {x : Exec α β} {g g' : Grid α} {b : β} (h : x.run g = .ok b g') :
    outcome x g = (true, g') := by
  rw [outcome, h]

theorem outcome_of_error {x : Exec α β} {g g' : Grid α} {e : EvalError}
    (h : x.run g = .error e g') : outcome x g = (false, g') := by
  rw [outcome, h]

theorem run_bind_of_ok {x : Exec α β} {f : β → Exec α γ} {g g' : Grid α} {b : β}
    (h : x.run g = .ok b g') : (x >>= f).run g = (f b).run g' := by
  simp only [EStateM.run, bind, EStateM.bind] at h ⊢
  rw [h]

theorem run_bind_of_error {x : Exec α β} {f : β → Exec α γ} {g g' : Grid α} {e : EvalError}
    (h : x.run g = .error e g') : (x >>= f).run g = .error e g' := by
  simp only [EStateM.run, bind, EStateM.bind] at h ⊢
  rw [h]

theorem bind_eq_error {x : Exec α β} {f : β → Exec α γ} {g g' : Grid α} {e : EvalError} :
    (x >>= f).run g = .error e g' ↔
      x.run g = .error e g' ∨ ∃ b h, x.run g = .ok b h ∧ (f b).run h = .error e g' := by
  cases h : x.run g with
  | ok b g₁ => simp [run_bind_of_ok h]
  | error e₁ g₁ => simp [run_bind_of_error h]

theorem grid_of_ofExcept_error {r : Except EvalError β} {g g' : Grid α} {e : EvalError}
    (h : (ofExcept r).run g = .error e g') : g' = g := by
  cases r <;> cases h
  rfl

theorem outcome_bind {x x' : Exec α Unit} {y y' : Exec α Unit}
    (hx : ∀ g, outcome x' g = outcome x g) (hy : ∀ g, outcome y' g = outcome y g) (g : Grid α) :
    outcome (x' >>= fun _ => y') g = outcome (x >>= fun _ => y) g := by
  have hstep := hx g
  cases h : x.run g with
  | ok u g₁ =>
    cases h' : x'.run g with
    | ok u' g₂ =>
      rw [outcome_of_ok h, outcome_of_ok h', Prod.mk.injEq] at hstep
      obtain ⟨-, rfl⟩ := hstep
      have hrest := hy g₂
      unfold outcome at hrest ⊢
      rwa [run_bind_of_ok h, run_bind_of_ok h']
    | error e' g₂ =>
      rw [outcome_of_ok h, outcome_of_error h'] at hstep
      cases hstep
  | error e g₁ =>
    cases h' : x'.run g with
    | ok u' g₂ =>
      rw [outcome_of_error h, outcome_of_ok h'] at hstep
      cases hstep
    | error e' g₂ =>
      rw [outcome_of_error h, outcome_of_error h', Prod.mk.injEq] at hstep
      obtain ⟨-, rfl⟩ := hstep
      rw [outcome_of_error (run_bind_of_error h), outcome_of_error (run_bind_of_error h')]

theorem outcome_forM {X : Type} {xs : List X} {f f' : X → Exec α Unit}
    (h : ∀ x ∈ xs, ∀ g, outcome (f' x) g = outcome (f x) g) (g : Grid α) :
    outcome (forM xs f') g = outcome (forM xs f) g := by
  induction xs generalizing g with
  | nil => rfl
  | cons x xs ih =>
    rw [List.forM_cons, List.forM_cons]
    exact outcome_bind (h x List.mem_cons_self) (ih fun y hy => h y (List.mem_cons_of_mem x hy)) g

variable [Arithmetic α]

theorem outcome_withAssignments {c : Cluster α} {as : List (Assignment α)}
    (h : ∀ pos g, outcome (atPoint (c.withAssignments as) pos) g = outcome (atPoint c pos) g)
    (g : Grid α) : outcome (execute [c.withAssignments as]) g = outcome (execute [c]) g := by
  have hexecute : ∀ as, (execute [c.withAssignments as]).run g =
      (Nest.walk g.bounds.get? atPoint [c.withAssignments as]).run g := fun _ => rfl
  have hself : c.withAssignments c.assignments = c := rfl
  have hwalk : outcome (Nest.walk g.bounds.get? atPoint [c.withAssignments as]) g =
      outcome (Nest.walk g.bounds.get? atPoint [c.withAssignments c.assignments]) g := by
    rw [Nest.walk_withAssignments, Nest.walk_withAssignments]
    exact outcome_bind (outcome_forM fun pos _ => h pos) (fun _ => rfl) g
  exact hwalk

variable {T : Set String} {pos : Position} {g : Grid α} {sc sc' : Table String α}
  {a a' : Assignment α}

omit [Arithmetic α] in
def AgreeOff (T : Set String) (sc sc' : Table String α) : Prop :=
  ∀ s, s ∉ T → sc'.get? s = sc.get? s

inductive Alike (T : Set String) : EStateM.Result EvalError (Grid α) (Table String α) →
    EStateM.Result EvalError (Grid α) (Table String α) → Prop
  | ok {sc sc' : Table String α} (g : Grid α) : AgreeOff T sc sc' → Alike T (.ok sc g) (.ok sc' g)
  | error (e e' : EvalError) (g : Grid α) : Alike T (.error e g) (.error e' g)

omit [Arithmetic α] in
theorem AgreeOff.insert (h : AgreeOff T sc sc') (s : String) (v : α) :
    AgreeOff T (sc.insert s v) (sc'.insert s v) := by
  intro t ht
  rw [Table.get?_insert, Table.get?_insert, h t ht]

omit [Arithmetic α] in
theorem AgreeOff.insert_right (h : AgreeOff T sc sc') {s : String} (hs : s ∈ T) (v : α) :
    AgreeOff T sc (sc'.insert s v) := by
  intro t ht
  have hst : s ≠ t := fun hst => ht (hst ▸ hs)
  rw [Table.get?_insert, if_neg (by simpa using hst), h t ht]

theorem AgreeOff.eval (h : AgreeOff T sc sc') {e : Expr α} (he : ∀ s ∈ T, sym s ∉ e.inputs) :
    e.eval (env g pos sc') = e.eval (env g pos sc) := by
  apply eval_congr
  intro i hi
  cases i with
  | sym s =>
    have hs : s ∉ T := fun hs => he s hs hi
    have hsymbol : (env g pos sc').symbol s = (env g pos sc).symbol s := by
      simp only [env, h s hs]
    rw [Expr.eval, Expr.eval, hsymbol]
  | access x => rfl
  | _ => simp [mem_inputs, isInput, isSymbol, isAccess] at hi

theorem grid_of_assign_error {e : EvalError} {g' : Grid α}
    (h : (assign pos sc a).run g = .error e g') : g' = g := by
  have hget : (get : Exec α (Grid α)).run g = .ok g g := rfl
  unfold assign at h
  rw [run_bind_of_ok hget, bind_eq_error] at h
  rcases h with h | ⟨v, g₁, hv, h⟩
  · exact grid_of_ofExcept_error h
  · obtain ⟨-, rfl⟩ := ofExcept_eq_ok.1 hv
    cases hl : a.lhs with
    | sym s =>
      simp only [hl] at h
      cases h
    | access x =>
      simp only [hl] at h
      rcases bind_eq_error.1 h with h | ⟨p, g₂, hp, h⟩
      · exact grid_of_ofExcept_error h
      · cases h
    | _ =>
      simp only [hl] at h
      cases h
      rfl

theorem exists_assign_error (h : ∀ v, value (env g pos sc) a ≠ .ok v) :
    ∃ e, (assign pos sc a).run g = .error e g := by
  cases hrun : (assign pos sc a).run g with
  | ok sc₁ g₁ =>
    obtain ⟨v, hv, -⟩ := assign_eq_ok.1 hrun
    exact absurd hv (h v)
  | error e g₁ =>
    obtain rfl := grid_of_assign_error hrun
    exact ⟨e, rfl⟩

theorem AgreeOff.assign {sc₁ : Table String α} {g₁ : Grid α} (h : AgreeOff T sc sc')
    (hl : a'.lhs = a.lhs)
    (hv : a.lhs.isInput = true → ∀ v, value (env g pos sc) a = .ok v →
      value (env g pos sc') a' = .ok v)
    (hrun : (Exec.assign pos sc a).run g = .ok sc₁ g₁) :
    ∃ sc₂, (Exec.assign pos sc' a').run g = .ok sc₂ g₁ ∧ AgreeOff T sc₁ sc₂ := by
  obtain ⟨v, hvalue, ⟨s, hs, rfl, rfl⟩ | ⟨x, p, hx, hp, rfl, rfl⟩⟩ := assign_eq_ok.1 hrun
  · have hvalue' := hv (by rw [hs]; rfl) v hvalue
    refine ⟨sc'.insert s v, ?_, h.insert s v⟩
    exact assign_eq_ok.2 ⟨v, hvalue', .inl ⟨s, hl.trans hs, rfl, rfl⟩⟩
  · have hvalue' := hv (by rw [hx]; rfl) v hvalue
    refine ⟨sc', ?_, h⟩
    exact assign_eq_ok.2 ⟨v, hvalue', .inr ⟨x, p, hl.trans hx, hp, rfl, rfl⟩⟩

omit [Arithmetic α] in
theorem AgreeOff.symm (h : AgreeOff T sc sc') : AgreeOff T sc' sc := fun s hs => (h s hs).symm

theorem alike_assign (h : AgreeOff T sc sc') (hl : a'.lhs = a.lhs)
    (hv : a.lhs.isInput = true → ∀ v, value (env g pos sc) a = .ok v ↔
      value (env g pos sc') a' = .ok v) :
    Alike T ((assign pos sc a).run g) ((assign pos sc' a').run g) := by
  cases hrun : (assign pos sc a).run g with
  | ok sc₁ g₁ =>
    obtain ⟨sc₂, hrun', hagree⟩ := h.assign hl (fun hin v => (hv hin v).1) hrun
    rw [hrun']
    exact .ok g₁ hagree
  | error e g₁ =>
    obtain rfl := grid_of_assign_error hrun
    cases hrun' : (assign pos sc' a').run g₁ with
    | ok sc₂ g₂ =>
      -- If the second one succeeds, so does the first, as what is asked for is symmetric.
      obtain ⟨sc₃, hback, -⟩ := h.symm.assign hl.symm (fun hin v => (hv (hl ▸ hin) v).2) hrun'
      rw [hback] at hrun
      cases hrun
    | error e' g₂ =>
      obtain rfl := grid_of_assign_error hrun'
      exact .error e e' g₂

def Replaces (T : Set String) (a : Assignment α) (bs : List (Assignment α)) : Prop :=
  ∀ pos sc sc' g, AgreeOff T sc sc' →
    Alike T ((assign pos sc a).run g) ((bs.foldlM (assign pos) sc').run g)

theorem alike_foldlM {as : List (Assignment α)} {bss : List (List (Assignment α))}
    (h : List.Forall₂ (Replaces T) as bss) (hagree : AgreeOff T sc sc') :
    Alike T ((as.foldlM (assign pos) sc).run g) ((bss.flatten.foldlM (assign pos) sc').run g) := by
  -- Induction on the pieces. Between two of them the scalars agree off `T` again.
  induction h generalizing sc sc' g with
  | nil => exact .ok g hagree
  | @cons a bs as bss hab _ ih =>
    have hstep := hab pos sc sc' g hagree
    rw [List.foldlM_cons, List.flatten_cons, List.foldlM_append]
    generalize hrun : (assign pos sc a).run g = r at hstep
    generalize hrun' : (bs.foldlM (assign pos) sc').run g = r' at hstep
    cases hstep with
    | ok g₁ hagree' =>
      rw [run_bind_of_ok hrun, run_bind_of_ok hrun']
      exact ih hagree'
    | error e e' g₁ =>
      rw [run_bind_of_error hrun, run_bind_of_error hrun']
      exact .error e e' g₁

theorem outcome_of_replaces {c : Cluster α} {bss : List (List (Assignment α))}
    (h : List.Forall₂ (Replaces T) c.assignments bss) (g : Grid α) :
    outcome (execute [c.withAssignments bss.flatten]) g = outcome (execute [c]) g := by
  apply outcome_withAssignments
  intro pos g
  have hrun : ∀ c : Cluster α, outcome (atPoint c pos) g =
      outcome (c.assignments.foldlM (assign pos) .empty) g := by
    intro c
    have hpoint : atPoint c pos = c.assignments.foldlM (assign pos) .empty >>= fun _ => pure () :=
      rfl
    rw [hpoint]
    cases hfold : (c.assignments.foldlM (assign pos) .empty).run g with
    | ok sc g₁ => rw [outcome_of_ok hfold, outcome, run_bind_of_ok hfold]; rfl
    | error e g₁ => rw [outcome_of_error hfold, outcome, run_bind_of_error hfold]
  have halike : Alike T ((c.assignments.foldlM (assign pos) .empty).run g)
      ((bss.flatten.foldlM (assign pos) .empty).run g) := alike_foldlM h fun _ _ => rfl
  rw [hrun, hrun, outcome, outcome, Cluster.withAssignments]
  generalize (c.assignments.foldlM (assign pos) .empty).run g = r at halike
  generalize (bss.flatten.foldlM (assign pos) .empty).run g = r' at halike
  cases halike with
  | ok => rfl
  | error => rfl

end Stencil.Exec
