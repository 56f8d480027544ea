import Stencil.Execution

namespace Stencil.Nest

variable {α β γ V : Type}

def Visiting (x : (σ : Type) → (V → EStateM EvalError σ Unit) → EStateM EvalError σ β) : Prop :=
  ∃ (vs : List V) (r : Except EvalError β), ∀ σ visit,
    x σ visit = (forM vs visit >>= fun _ => MonadExcept.ofExcept r)

theorem visiting_ofExcept (r : Except EvalError β) :
    Visiting fun (σ : Type) (_ : V → EStateM EvalError σ Unit) => MonadExcept.ofExcept r :=
  ⟨[], r, fun _ _ => by simp⟩

theorem visiting_visit (v : V) : Visiting fun (_ : Type) visit => visit v :=
  ⟨[v], .ok (), fun _ visit => by simp [MonadExcept.ofExcept]⟩

theorem Visiting.bind {x : (σ : Type) → (V → EStateM EvalError σ Unit) → EStateM EvalError σ β}
    {f : β → (σ : Type) → (V → EStateM EvalError σ Unit) → EStateM EvalError σ γ}
    (hx : Visiting x) (hf : ∀ b, Visiting (f b)) :
    Visiting fun σ visit => x σ visit >>= fun b => f b σ visit := by
  obtain ⟨vs, r, hx⟩ := hx
  cases r with
  | error e =>
    refine ⟨vs, .error e, fun σ visit => ?_⟩
    dsimp only
    rw [hx, bind_assoc]
    rfl
  | ok b =>
    obtain ⟨ws, r, hf⟩ := hf b
    refine ⟨vs ++ ws, r, fun σ visit => ?_⟩
    dsimp only
    rw [hx, bind_assoc, List.forM_append, bind_assoc]
    simp only [MonadExcept.ofExcept, pure_bind, hf]

theorem visiting_foldlM {X : Type} {xs : List X}
    {f : β → X → (σ : Type) → (V → EStateM EvalError σ Unit) → EStateM EvalError σ β}
    (hf : ∀ b x, Visiting (f b x)) (b : β) :
    Visiting fun σ visit => xs.foldlM (fun b x => f b x σ visit) b := by
  induction xs generalizing b with
  | nil => exact visiting_ofExcept (.ok b)
  | cons x xs ih =>
    simp only [List.foldlM_cons]
    exact (hf b x).bind ih

theorem visiting_forM {X : Type} {xs : List X}
    {f : X → (σ : Type) → (V → EStateM EvalError σ Unit) → EStateM EvalError σ Unit}
    (hf : ∀ x, Visiting (f x)) : Visiting fun σ visit => forM xs fun x => f x σ visit := by
  induction xs with
  | nil => exact visiting_ofExcept (.ok ())
  | cons x xs ih =>
    simp only [List.forM_cons]
    exact (hf x).bind fun _ => ih

theorem visiting_walkFrom (bounds : Dimension → Option (Int × Int)) (n depth : Nat)
    (cs : List (Cluster α)) (pos : Position) :
    Visiting fun σ (visit : Cluster α × Position → EStateM EvalError σ Unit) =>
      walkFrom bounds (fun c pos => visit (c, pos)) n depth cs pos := by
  induction n generalizing depth cs pos with
  | zero => exact visiting_ofExcept (.ok pos)
  | succ n ih =>
    simp only [walkFrom, List.forM_eq_forM]
    refine visiting_foldlM (fun pos group => ?_) pos
    cases group with
    | nil => exact visiting_ofExcept (.ok pos)
    | cons c group =>
      dsimp only
      split
      · exact (visiting_forM fun c => visiting_visit (c, pos)).bind fun _ =>
          visiting_ofExcept (.ok pos)
      · rename_i i _
        split
        · exact visiting_ofExcept (.error _)
        · exact (visiting_foldlM (fun pos v => ih _ _ _) pos).bind fun pos =>
            visiting_ofExcept (.ok (pos.erase i.dim.name))

/-- The clusters that a walk visits, with the points at which it does, as far as it comes. -/
def visits (bounds : Dimension → Option (Int × Int)) (cs : List (Cluster α)) :
    List (Cluster α × Position) :=
  let log : EStateM EvalError (List (Cluster α × Position)) Unit :=
    walk bounds (fun c pos => modify (· ++ [(c, pos)])) cs
  match log.run [] with
  | .ok _ vs => vs
  | .error _ vs => vs

def outcome (bounds : Dimension → Option (Int × Int)) (cs : List (Cluster α)) :
    Except EvalError Unit :=
  let quiet : EStateM EvalError Unit Unit := walk bounds (fun _ _ => pure ()) cs
  match quiet.run () with
  | .ok _ _ => .ok ()
  | .error e _ => .error e

theorem forM_log (vs ws : List V) :
    forM vs (fun v => (modify (· ++ [v]) : EStateM EvalError (List V) Unit)) ws =
      .ok () (ws ++ vs) := by
  induction vs generalizing ws with
  | nil => simp [pure, EStateM.pure]
  | cons v vs ih =>
    rw [List.forM_cons]
    refine (ih (ws ++ [v])).trans ?_
    rw [List.append_assoc, List.singleton_append]

theorem forM_quiet (vs : List V) :
    forM vs (fun _ => (pure () : EStateM EvalError Unit Unit)) = pure () := by
  induction vs with
  | nil => rfl
  | cons v vs ih => rw [List.forM_cons, ih, pure_bind]

theorem walk_eq {σ : Type} (bounds : Dimension → Option (Int × Int))
    (visit : Cluster α → Position → EStateM EvalError σ Unit) (cs : List (Cluster α)) :
    walk bounds visit cs = (forM (visits bounds cs) (fun v => visit v.1 v.2) >>= fun _ =>
      MonadExcept.ofExcept (outcome bounds cs)) := by
  obtain ⟨vs, r, h⟩ := (visiting_walkFrom bounds (levels cs) 0 cs .empty).bind fun _ =>
    visiting_ofExcept (.ok ())
  have hwalk : ∀ {σ : Type} (visit : Cluster α → Position → EStateM EvalError σ Unit),
      walk bounds visit cs = (forM vs (fun v => visit v.1 v.2) >>= fun _ =>
        MonadExcept.ofExcept r) := fun visit => h _ fun v => visit v.1 v.2
  have hvisits : visits bounds cs = vs := by
    rw [visits, hwalk]
    simp only [EStateM.run, bind, EStateM.bind, forM_log, List.nil_append]
    cases r <;> rfl
  have houtcome : outcome bounds cs = r := by
    rw [outcome, hwalk, forM_quiet, pure_bind]
    cases r <;> rfl
  rw [hvisits, houtcome, hwalk]

def points (bounds : Dimension → Option (Int × Int)) (c : Cluster α) : List Position :=
  (visits bounds [c]).map (·.2)

theorem walkFrom_withAssignments {m : Type → Type} [Monad m] [MonadExcept EvalError m]
    (bounds : Dimension → Option (Int × Int)) (visit : Cluster α → Position → m Unit)
    (n depth : Nat) (c : Cluster α) (as : List (Assignment α)) (pos : Position) :
    walkFrom bounds visit n depth [c.withAssignments as] pos =
      walkFrom bounds (fun _ => visit (c.withAssignments as)) n depth [c] pos := by
  have hgroups : ∀ depth (c : Cluster α), groups depth [c] = [[c]] := fun _ _ => rfl
  induction n generalizing depth pos with
  | zero => rfl
  | succ n ih =>
    simp only [walkFrom, hgroups, List.foldlM_cons, List.foldlM_nil]
    rw [show level? depth (c.withAssignments as) = level? depth c from rfl]
    cases level? depth c with
    | none => rfl
    | some i =>
      simp only [ih]
      rfl

theorem walk_withAssignments {σ : Type} (bounds : Dimension → Option (Int × Int))
    (visit : Cluster α → Position → EStateM EvalError σ Unit) (c : Cluster α)
    (as : List (Assignment α)) :
    walk bounds visit [c.withAssignments as] =
      (forM (points bounds c) (visit (c.withAssignments as)) >>= fun _ =>
        MonadExcept.ofExcept (outcome bounds [c])) := by
  have hlevels : levels [c.withAssignments as] = levels [c] := rfl
  rw [walk, hlevels, walkFrom_withAssignments, points, List.forM_map]
  exact walk_eq bounds (fun _ => visit (c.withAssignments as)) [c]

end Stencil.Nest
