import Stencil.Proofs.Expr.Denotation

namespace Stencil.Expr

variable {α : Type} [Arithmetic α] {env : Env α}

theorem bind_pure_eq_ok {β γ : Type} {r : Except EvalError β} {g : β → γ} {v : γ} :
    (do return g (← r)) = Except.ok v ↔ ∃ u, r = .ok u ∧ g u = v := by
  cases r with
  | error err => simp [bind, Except.bind]
  | ok u => simp [bind, Except.bind, pure, Except.pure]

theorem evalAll_cons {e : Expr α} {es : List (Expr α)} {vs : List α}
    (h : evalAll env (e :: es) = .ok vs) :
    ∃ v ws, eval env e = .ok v ∧ evalAll env es = .ok ws ∧ vs = v :: ws := by
  rw [evalAll] at h
  cases he : eval env e with
  | error err => simp [he, bind, Except.bind] at h
  | ok v =>
    cases hes : evalAll env es with
    | error err => simp [he, hes, bind, Except.bind] at h
    | ok ws =>
      simp only [he, hes, bind, Except.bind, pure, Except.pure, Except.ok.injEq] at h
      exact ⟨v, ws, rfl, rfl, h.symm⟩

theorem evalAll_mem {es : List (Expr α)} {vs : List α} (h : evalAll env es = .ok vs) :
    ∀ e ∈ es, ∃ v, eval env e = .ok v := by
  induction es generalizing vs with
  | nil => simp
  | cons e es ih =>
    obtain ⟨v, ws, he, hes, -⟩ := evalAll_cons h
    intro a ha
    rcases List.mem_cons.1 ha with rfl | ha
    · exact ⟨v, he⟩
    · exact ih hes a ha

theorem evalAll_eq_map {es : List (Expr α)} {f : Expr α → α}
    (h : ∀ e ∈ es, eval env e = .ok (f e)) : evalAll env es = .ok (es.map f) := by
  induction es with
  | nil => rfl
  | cons e es ih =>
    rw [evalAll, h e List.mem_cons_self, ih fun a ha => h a (List.mem_cons_of_mem e ha)]
    rfl

theorem evalAll_map {env' : Env α} {es : List (Expr α)} {f : Expr α → Expr α}
    (h : ∀ e ∈ es, eval env' (f e) = eval env e) : evalAll env' (es.map f) = evalAll env es := by
  induction es with
  | nil => rfl
  | cons e es ih =>
    rw [List.map_cons, evalAll, evalAll, h e List.mem_cons_self,
      ih fun a ha => h a (List.mem_cons_of_mem e ha)]

theorem eval_rebuildRaw {env' : Env α} {e : Expr α} {f : Expr α → Expr α}
    (hleaf : e.isLeaf = true → eval env' e = eval env e)
    (hargs : ∀ a ∈ e.args, eval env' (f a) = eval env a)
    (hexponent : ∀ a ∈ e.args, (f a).integer? = a.integer?) :
    eval env' (rebuildRaw e (e.args.map f)) = eval env e := by
  cases e with
  | num | sym | access => exact hleaf rfl
  | add es =>
    have hall : evalAll env' (es.map f) = evalAll env es := evalAll_map hargs
    rw [args, rebuildRaw, eval, eval, hall]
  | mul es =>
    have hall : evalAll env' (es.map f) = evalAll env es := evalAll_map hargs
    rw [args, rebuildRaw, eval, eval, hall]
  | pow b x =>
    have hrepeated : (f x).repeated? = x.repeated? := by
      rw [repeated?, repeated?, hexponent x (by simp [args])]
    show eval env' (pow (f b) (f x)) = eval env (pow b x)
    rw [eval, eval, hrepeated, hargs b (by simp [args]), hargs x (by simp [args])]
  | call g es =>
    cases es with
    | nil => rfl
    | cons e es =>
      show eval env' (call g (f e :: es.map f)) = eval env (call g (e :: es))
      rw [eval, eval, hargs e List.mem_cons_self]

theorem eval_congr {env' : Env α} {e : Expr α}
    (h : ∀ i ∈ e.inputs, eval env' i = eval env i) : eval env' e = eval env e := by
  induction e using inductArgs with
  | node e ih =>
    have hself : rebuildRaw e (e.args.map id) = e := by
      cases e <;> simp [rebuildRaw, args]
    rw [← hself]
    refine (eval_rebuildRaw ?_ ?_ fun _ _ => rfl).trans (congrArg _ hself.symm)
    · intro hl
      cases e with
      | num v => rfl
      | sym | access => exact h _ (by rw [inputs_of_isInput rfl]; exact List.mem_singleton_self _)
      | _ => simp [isLeaf] at hl
    · exact fun a ha => ih a ha fun i hi => h i (mem_inputs_args ⟨a, ha, hi⟩)

theorem eval_of_pow {b x : Expr α} {v : α} (h : eval env (pow b x) = .ok v) :
    (∃ u, eval env b = .ok u) ∧ ((∃ n, x.repeated? = some n) ∨ ∃ w, eval env x = .ok w) := by
  rw [eval] at h
  cases hb : eval env b with
  | error err => simp [hb, bind, Except.bind] at h
  | ok u =>
    refine ⟨⟨u, rfl⟩, ?_⟩
    cases hx : x.repeated? with
    | some n => exact .inl ⟨n, rfl⟩
    | none =>
      cases hev : eval env x with
      | error err => simp [hb, hx, hev, bind, Except.bind] at h
      | ok w => exact .inr ⟨w, rfl⟩

theorem eval_of_call {f : Intrinsic} {e : Expr α} {v : α} (h : eval env (call f [e]) = .ok v) :
    ∃ u, eval env e = .ok u := by
  rw [eval] at h
  exact (bind_pure_eq_ok.1 h).imp fun _ => And.left

theorem integer?_of_repeated? {x : Expr α} {n : Int} (h : x.repeated? = some n) :
    x.integer? = some n := by
  rw [repeated?, Option.filter_eq_some_iff] at h
  exact h.1

theorem eq_num_of_integer? {x : Expr α} {n : Int} (h : x.integer? = some n) :
    ∃ v, x = num v ∧ Arithmetic.integer? v = some n := by
  cases x with
  | num v => exact ⟨v, rfl, h⟩
  | _ => simp [integer?, number?] at h

theorem eval_inputs {e : Expr α} {v : α} (hu : Unary e) (h : eval env e = .ok v) :
    ∀ i ∈ e.inputs, ∃ w, eval env i = .ok w := by
  have hall : ∀ {es : List (Expr α)} {vs : List α}, evalAll env es = .ok vs →
      (∀ a ∈ es, ∀ v, eval env a = .ok v → ∀ i ∈ a.inputs, ∃ w, eval env i = .ok w) →
      ∀ i, (∃ a ∈ es, i ∈ a.inputs) → ∃ w, eval env i = .ok w := by
    rintro es vs hes ih i ⟨a, ha, hi⟩
    obtain ⟨u, hu⟩ := evalAll_mem hes a ha
    exact ih a ha u hu i hi
  induction e using induct generalizing v with
  | num u => simp [inputs_num]
  | sym s | access x =>
    intro i hi
    rw [inputs_of_isInput rfl, List.mem_singleton] at hi
    exact ⟨v, hi ▸ h⟩
  | add args ih | mul args ih =>
    intro i hi
    rw [eval] at h
    obtain ⟨vs, hes, -⟩ := bind_pure_eq_ok.1 h
    exact hall hes (fun a ha v hv => ih a ha (hu.args a ha) hv) i ((mem_inputs_iff rfl).1 hi)
  | pow b x hb hx =>
    intro i hi
    obtain ⟨⟨u, heb⟩, hrep⟩ := eval_of_pow h
    obtain ⟨a, ha, hia⟩ := (mem_inputs_iff rfl).1 hi
    simp only [args, List.mem_cons, List.not_mem_nil, or_false] at ha
    rcases ha with rfl | rfl
    · exact hb (hu.args a (by simp [args])) heb i hia
    · rcases hrep with ⟨n, hn⟩ | ⟨w, hw⟩
      · obtain ⟨u, rfl, -⟩ := eq_num_of_integer? (integer?_of_repeated? hn)
        simp [inputs_num] at hia
      · exact hx (hu.args a (by simp [args])) hw i hia
  | call f es ih =>
    intro i hi
    obtain ⟨e, rfl⟩ := hu.call
    obtain ⟨a, ha, hia⟩ := (mem_inputs_iff rfl).1 hi
    obtain rfl := List.mem_singleton.1 ha
    obtain ⟨u, he⟩ := eval_of_call h
    exact ih a ha (hu.args a ha) he i hia

theorem eval_eq_denote [AlgebraicField α] [Exact α] {ρ : Expr α → α} {e : Expr α} (hu : Unary e)
    (h : ∀ i ∈ e.inputs, eval env i = .ok (ρ i)) : eval env e = .ok (denote ρ e) := by
  induction e using induct with
  | num v => rfl
  | sym s => exact h _ (by simp [inputs_of_isInput, isInput, isSymbol])
  | access x => exact h _ (by simp [inputs_of_isInput, isInput, isAccess])
  | add args ih =>
    rw [eval, evalAll_eq_map fun a ha => ih a ha (hu.args a ha) fun i hi =>
      h i (mem_inputs_args ⟨a, ha, hi⟩), denote_add, ← Arithmetic.sum_eq]
    rfl
  | mul args ih =>
    rw [eval, evalAll_eq_map fun a ha => ih a ha (hu.args a ha) fun i hi =>
      h i (mem_inputs_args ⟨a, ha, hi⟩), denote_mul, ← Arithmetic.product_eq]
    rfl
  | pow b x hb hx =>
    have hbv := hb (hu.args b (by simp [args])) fun i hi =>
      h i (mem_inputs_args ⟨b, by simp [args], hi⟩)
    have hxv := hx (hu.args x (by simp [args])) fun i hi =>
      h i (mem_inputs_args ⟨x, by simp [args], hi⟩)
    rw [eval, hbv, denote_pow]
    cases hrep : x.repeated? with
    | none =>
      rw [hxv]
      rfl
    | some n =>
      obtain ⟨v, rfl, hv⟩ := eq_num_of_integer? (integer?_of_repeated? hrep)
      rw [denote_num, Exact.integer_eq v n hv, Exact.pow_eq, ← Arithmetic.powInt_eq]
      rfl
  | call f es ih =>
    obtain ⟨e, rfl⟩ := hu.call
    rw [eval, ih e (by simp) (hu.args e (by simp [args])) fun i hi =>
      h i (mem_inputs_args ⟨e, by simp [args], hi⟩), denote_call]
    rfl

theorem eq_denote_of_eval [AlgebraicField α] [Exact α] {ρ : Expr α → α} {e : Expr α} {v : α}
    (hρ : ∀ i w, eval env i = .ok w → ρ i = w) (h : eval env e = .ok v) : v = denote ρ e := by
  have hall : ∀ {es : List (Expr α)} {vs : List α}, evalAll env es = .ok vs →
      (∀ a ∈ es, ∀ {v}, eval env a = .ok v → v = denote ρ a) → vs = es.map (denote ρ) := by
    intro es vs hes ih
    refine Except.ok.inj (hes.symm.trans (evalAll_eq_map fun a ha => ?_))
    obtain ⟨w, hw⟩ := evalAll_mem hes a ha
    rw [hw, ih a ha hw]
  induction e using induct generalizing v with
  | num u => exact (Except.ok.inj h).symm
  | sym s => exact (hρ _ v h).symm
  | access x => exact (hρ _ v h).symm
  | add args ih =>
    rw [eval] at h
    obtain ⟨vs, hes, rfl⟩ := bind_pure_eq_ok.1 h
    rw [denote_add, ← hall hes ih, Arithmetic.sum_eq]
  | mul args ih =>
    rw [eval] at h
    obtain ⟨vs, hes, rfl⟩ := bind_pure_eq_ok.1 h
    rw [denote_mul, ← hall hes ih, Arithmetic.product_eq]
  | pow b x hb hx =>
    obtain ⟨⟨u, hu⟩, hrep⟩ := eval_of_pow h
    rw [eval, hu] at h
    rw [denote_pow, ← hb hu]
    cases hn : x.repeated? with
    | some n =>
      obtain ⟨w, rfl, hw⟩ := eq_num_of_integer? (integer?_of_repeated? hn)
      rw [hn] at h
      rw [denote_num, Exact.integer_eq w n hw, Exact.pow_eq, ← Arithmetic.powInt_eq]
      exact (Except.ok.inj h).symm
    | none =>
      obtain ⟨w, hw⟩ := hrep.resolve_left (by simp [hn])
      rw [hn, hw] at h
      rw [← hx hw]
      exact (Except.ok.inj h).symm
  | call f es ih =>
    cases es with
    | nil => exact (Except.ok.inj h).symm
    | cons e es =>
      rw [eval] at h
      obtain ⟨u, he, rfl⟩ := bind_pure_eq_ok.1 h
      have hnode : denote ρ (call f (e :: es)) = Arithmetic.apply f (denote ρ e) :=
        denote_of_not_isInput rfl
      rw [hnode, ih e List.mem_cons_self he]

end Stencil.Expr
