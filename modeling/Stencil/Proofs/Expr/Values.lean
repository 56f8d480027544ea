import Stencil.Proofs.Expr.Collection
import Stencil.Proofs.Expr.Evaluation
import Stencil.Proofs.Expr.Regrouping

namespace Stencil

namespace Arithmetic

variable {α : Type} [Arithmetic α]

abbrev withIntrinsics (g : Intrinsic → α → α) : Arithmetic α := { ‹Arithmetic α› with apply := g }

theorem exact_withIntrinsics [AlgebraicField α] [h : Exact α] (g : Intrinsic → α → α) :
    @Exact α _ (withIntrinsics g) :=
  @Exact.mk α _ (withIntrinsics g) h.ofInt_eq h.add_eq h.mul_eq h.inv_eq h.pow_eq h.eq_iff
    h.same_iff h.transCmp h.cmp_eq_iff h.integer_eq h.sign_mul_abs

end Arithmetic

namespace Expr

variable {α : Type} [Arithmetic α] {env : Env α} {e e' : Expr α} {es : List (Expr α)}

def evalWith (g : Intrinsic → α → α) (env : Env α) : Expr α → Except EvalError α :=
  @eval α (Arithmetic.withIntrinsics g) env

def Evaluates (env : Env α) (e : Expr α) : Prop := ∃ v, eval env e = .ok v

theorem evaluates_num (v : α) : Evaluates env (num v) := ⟨v, rfl⟩

theorem exists_bind_pure {β γ : Type} {r : Except EvalError β} {g : β → γ} :
    (∃ v, (do return g (← r)) = Except.ok v) ↔ ∃ u, r = .ok u := by
  simp only [bind_pure_eq_ok]
  exact ⟨fun ⟨_, u, hu, _⟩ => ⟨u, hu⟩, fun ⟨u, hu⟩ => ⟨g u, u, hu, rfl⟩⟩

theorem exists_evalAll_iff : (∃ vs, evalAll env es = .ok vs) ↔ ∀ e ∈ es, Evaluates env e := by
  refine ⟨fun ⟨_, h⟩ => evalAll_mem h, fun h => ?_⟩
  induction es with
  | nil => exact ⟨[], rfl⟩
  | cons e es ih =>
    obtain ⟨v, hv⟩ := h e List.mem_cons_self
    obtain ⟨vs, hvs⟩ := ih fun a ha => h a (List.mem_cons_of_mem e ha)
    exact ⟨v :: vs, by rw [evalAll, hv, hvs]; rfl⟩

theorem evaluates_node_iff (o : Operator) :
    Evaluates env (o.node es) ↔ ∀ e ∈ es, Evaluates env e := by
  rw [← exists_evalAll_iff]
  cases o <;> simp only [Evaluates, Operator.node, eval, exists_bind_pure]

theorem evaluates_pow_iff {b x : Expr α} :
    Evaluates env (pow b x) ↔ Evaluates env b ∧ Evaluates env x := by
  constructor
  · rintro ⟨v, hv⟩
    obtain ⟨hb, ⟨n, hn⟩ | hx⟩ := eval_of_pow hv
    · obtain ⟨w, rfl, -⟩ := eq_num_of_integer? (integer?_of_repeated? hn)
      exact ⟨hb, evaluates_num w⟩
    · exact ⟨hb, hx⟩
  · rintro ⟨⟨u, hu⟩, w, hw⟩
    rw [Evaluates, eval, hu, hw]
    cases x.repeated? with
    | some n => exact ⟨_, rfl⟩
    | none => exact ⟨_, rfl⟩

theorem evaluates_call_cons_iff {f : Intrinsic} :
    Evaluates env (call f (e :: es)) ↔ Evaluates env e := by
  simp only [Evaluates, eval, exists_bind_pure]

theorem closed_evaluates (env : Env α) : Closed (Evaluates env) :=
  closed_of_node evaluates_num fun o _ => evaluates_node_iff o

theorem evaluates_power {b x : Expr α} (hb : Evaluates env b) (hx : Evaluates env x) :
    Evaluates env (power b x) := by
  unfold power
  split
  · split
    · exact hb
    · split
      · exact evaluates_num _
      · split
        · exact evaluates_num _
        · exact evaluates_pow_iff.2 ⟨hb, hx⟩
  · exact evaluates_pow_iff.2 ⟨hb, hx⟩

theorem regroupable_evaluates (env : Env α) : Regroupable (Evaluates env) where
  num := evaluates_num
  terms := (evaluates_node_iff .plus).1
  factors := (evaluates_node_iff .times).1
  sum := (closed_evaluates env).sum
  product := (closed_evaluates env).product
  rebuild {e f} he h := by
    have hall : (∀ a ∈ e.args, Evaluates env a) → ∀ a ∈ e.args.map f, Evaluates env a := by
      intro hargs a ha
      obtain ⟨b, hb, rfl⟩ := List.mem_map.1 ha
      exact h b hb (hargs b hb)
    cases e with
    | num | sym | access => exact he
    | add es => exact (closed_evaluates env).sum (hall ((evaluates_node_iff .plus).1 he))
    | mul es => exact (closed_evaluates env).product (hall ((evaluates_node_iff .times).1 he))
    | pow b x =>
      obtain ⟨hb, hx⟩ := evaluates_pow_iff.1 he
      exact evaluates_power (h b (by simp [args]) hb) (h x (by simp [args]) hx)
    | call g es =>
      cases es with
      | nil => exact he
      | cons a es =>
        exact evaluates_call_cons_iff.2 (h a List.mem_cons_self (evaluates_call_cons_iff.1 he))

variable [AlgebraicField α] [Exact α] {v : α}

theorem eval_eq_ok_of_denote (h : Evaluates env e)
    (hd : ∀ ρ, (∀ i w, eval env i = .ok w → ρ i = w) → denote ρ e = v) : eval env e = .ok v := by
  let ρ : Expr α → α := fun i => (eval env i).toOption.getD 0
  have hρ : ∀ i w, eval env i = .ok w → ρ i = w := fun i w hw => by
    simp [ρ, hw, Except.toOption]
  obtain ⟨w, hw⟩ := h
  rw [hw, eq_denote_of_eval hρ hw, hd ρ hρ]

theorem eval_of_denote (hd : ∀ ρ, denote ρ e' = denote ρ e) (h : eval env e = .ok v)
    (h' : Evaluates env e') : eval env e' = .ok v :=
  eval_eq_ok_of_denote h' fun ρ hρ => (hd ρ).trans (eq_denote_of_eval hρ h).symm

theorem eval_rebuild (hleaf : e.isLeaf = false) (hlen : es.length = e.args.length)
    (h : eval env (rebuildRaw e es) = .ok v) : eval env (rebuild e es) = .ok v := by
  refine eval_of_denote (fun ρ => ?_) h ?_
  · rw [faithful_rebuild.denote ρ hleaf hlen, faithful_rebuildRaw.denote ρ hleaf hlen]
  · have hall : Evaluates env (rebuildRaw e es) := ⟨v, h⟩
    cases e with
    | num | sym | access => simp [isLeaf] at hleaf
    | add as => exact (closed_evaluates env).sum ((evaluates_node_iff .plus).1 hall)
    | mul as => exact (closed_evaluates env).product ((evaluates_node_iff .times).1 hall)
    | pow b x =>
      obtain ⟨b', x', rfl⟩ := List.length_eq_two.1 hlen
      obtain ⟨hb, hx⟩ := evaluates_pow_iff.1 hall
      exact evaluates_power hb hx
    | call f as => exact hall

theorem eval_pow {b x : Expr α} {u w : α} (hb : eval env b = .ok u) (hx : eval env x = .ok w) :
    eval env (pow b x) = .ok (Arithmetic.pow u w) := by
  rw [eval, hb]
  cases hrep : x.repeated? with
  | none =>
    rw [hx]
    rfl
  | some n =>
    obtain ⟨c, rfl, hc⟩ := eq_num_of_integer? (integer?_of_repeated? hrep)
    obtain rfl := Except.ok.inj hx
    rw [Exact.integer_eq c n hc, Exact.pow_eq, ← Arithmetic.powInt_eq]
    rfl

theorem eval_pow_eq_ok {b x : Expr α} : eval env (pow b x) = .ok v ↔
    ∃ u w, eval env b = .ok u ∧ eval env x = .ok w ∧ Arithmetic.pow u w = v := by
  constructor
  · intro h
    obtain ⟨⟨u, hu⟩, w, hw⟩ := evaluates_pow_iff.1 ⟨v, h⟩
    exact ⟨u, w, hu, hw, Except.ok.inj ((eval_pow hu hw).symm.trans h)⟩
  · rintro ⟨u, w, hu, hw, rfl⟩
    exact eval_pow hu hw

theorem eval_rebuildRaw_of_evalWith {g : Intrinsic → α → α} {f : Expr α → Expr α}
    (hcall : ∀ i as, e = call i as → g i = Arithmetic.apply i)
    (hargs : ∀ a ∈ e.args, ∀ w, evalWith g env a = .ok w → eval env (f a) = .ok w)
    (h : evalWith g env e = .ok v) : eval env (rebuildRaw e (e.args.map f)) = .ok v := by
  have hall : ∀ {as : List (Expr α)} {vs : List α},
      @evalAll α (Arithmetic.withIntrinsics g) env as = .ok vs →
      (∀ a ∈ as, ∀ w, evalWith g env a = .ok w → eval env (f a) = .ok w) →
      evalAll env (as.map f) = .ok vs := by
    intro as vs hvs has
    induction as generalizing vs with
    | nil => exact hvs
    | cons a as ih =>
      obtain ⟨w, ws, hw, hws, rfl⟩ := @evalAll_cons α (Arithmetic.withIntrinsics g) env a as vs hvs
      rw [List.map_cons, evalAll, has a List.mem_cons_self w hw,
        ih hws fun b hb => has b (List.mem_cons_of_mem a hb)]
      rfl
  cases e with
  | num | sym | access => exact h
  | add es | mul es =>
    obtain ⟨vs, hvs, rfl⟩ := bind_pure_eq_ok.1 h
    rw [args, rebuildRaw, eval, hall hvs hargs]
    rfl
  | pow b x =>
    obtain ⟨u, w, hu, hw, rfl⟩ := (@eval_pow_eq_ok α (Arithmetic.withIntrinsics g) env _
      (Arithmetic.exact_withIntrinsics g) v b x).1 h
    exact eval_pow (hargs b (by simp [args]) u hu) (hargs x (by simp [args]) w hw)
  | call i es =>
    have hi : g i = Arithmetic.apply i := hcall i es rfl
    cases es with
    | nil =>
      rw [← h, evalWith, args, List.map_nil, rebuildRaw, eval, ← hi]
      rfl
    | cons a es =>
      obtain ⟨u, hu, rfl⟩ := bind_pure_eq_ok.1 h
      show eval env (call i (f a :: es.map f)) = _
      rw [eval, hargs a List.mem_cons_self u hu, ← hi]
      rfl

theorem eval_rebuildRaw_of_forall {f : Expr α → Expr α}
    (hargs : ∀ a ∈ e.args, ∀ w, eval env a = .ok w → eval env (f a) = .ok w)
    (h : eval env e = .ok v) : eval env (rebuildRaw e (e.args.map f)) = .ok v :=
  eval_rebuildRaw_of_evalWith (fun _ _ _ => rfl) hargs h

end Expr

end Stencil
