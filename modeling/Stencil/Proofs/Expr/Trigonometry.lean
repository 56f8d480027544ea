import Stencil.Expr.Rewriting
import Stencil.Proofs.Expr.Values
import Stencil.Proofs.Rational

namespace Stencil

def Intrinsic.isTrigonometric : Intrinsic → Bool
  | sin | cos => true
  | sqrt | exp | log => false

namespace Expr

section Calls

variable {α : Type} {e : Expr α}

def TrigonometryFree (e : Expr α) : Prop :=
  ∀ f es, call f es ∈ e.subterms → f.isTrigonometric = false

def UnaryTrigonometry (e : Expr α) : Prop :=
  ∀ f es, call f es ∈ e.subterms → f.isTrigonometric = true → es.length = 1

theorem UnaryTrigonometry.args (h : UnaryTrigonometry e) : ∀ a ∈ e.args, UnaryTrigonometry a :=
  fun a ha f es hc => h f es (mem_subterms.2 (.inr ⟨a, ha, hc⟩))

def IsPlain (e : Expr α) : Prop := ∀ f es, e = call f es → f.isTrigonometric = false

@[elab_as_elim]
theorem UnaryTrigonometry.induct {P : Expr α → Prop} (h : UnaryTrigonometry e)
    (sine : ∀ x, UnaryTrigonometry x → P x → P (call .sin [x]))
    (cosine : ∀ x, UnaryTrigonometry x → P x → P (call .cos [x]))
    (plain : ∀ e, IsPlain e → (∀ a ∈ e.args, UnaryTrigonometry a) → (∀ a ∈ e.args, P a) → P e) :
    P e := by
  induction e using inductArgs with
  | node e ih =>
    have hargs := fun a ha => ih a ha (h.args a ha)
    by_cases hplain : IsPlain e
    · exact plain e hplain h.args hargs
    · simp only [IsPlain, not_forall] at hplain
      obtain ⟨f, es, rfl, hf⟩ := hplain
      rw [Bool.not_eq_false] at hf
      obtain ⟨x, rfl⟩ := List.length_eq_one_iff.1 (h f es (mem_subterms_self _) hf)
      have hself := List.mem_singleton_self x
      cases f with
      | sin => exact sine x (h.args x hself) (hargs x hself)
      | cos => exact cosine x (h.args x hself) (hargs x hself)
      | sqrt | exp | log => simp [Intrinsic.isTrigonometric] at hf

theorem trigonometryFree_iff (h : IsPlain e) :
    TrigonometryFree e ↔ ∀ a ∈ e.args, TrigonometryFree a := by
  constructor
  · exact fun he a ha f es hc => he f es (mem_subterms.2 (.inr ⟨a, ha, hc⟩))
  · intro he f es hc
    rcases mem_subterms.1 hc with heq | ⟨a, ha, hc⟩
    · exact h f es heq.symm
    · exact he a ha f es hc

theorem isPlain_node (o : Operator) (es : List (Expr α)) : IsPlain (o.node es) := by
  cases o <;> simp [IsPlain, Operator.node]

theorem trigonometryFree_num (v : α) : TrigonometryFree (num v) :=
  (trigonometryFree_iff (by simp [IsPlain])).2 (by simp [args])

end Calls

section Approximation

variable {α : Type} [Arithmetic α] {e x : Expr α}

/-- `5π² - 4x(π - x)` -/
def divisor (x : Expr α) : Expr α := difference (num fivePiSquared) (times (int 4) (arc x))

theorem rationalSin_eq (x : Expr α) :
    rationalSin x = quotient (times (int 16) (arc x)) (divisor x) := rfl

theorem Closed.divisor {P : Expr α → Prop} (hP : Closed P) (hx : P x) : P (divisor x) :=
  hP.difference (hP.num _) (hP.times (hP.num _) (hP.times hx (hP.difference (hP.num _) hx)))

theorem Closed.rationalSin {P : Expr α → Prop} (hP : Closed P) (hx : P x)
    (hpower : P (power x.divisor (int (-1)))) : P (rationalSin x) :=
  hP.times (hP.times (hP.num _) (hP.times hx (hP.difference (hP.num _) hx))) hpower

theorem closed_trigonometryFree : Closed (TrigonometryFree : Expr α → Prop) :=
  closed_of_node trigonometryFree_num fun o es => by
    rw [trigonometryFree_iff (isPlain_node o es)]
    cases o <;> rfl

theorem trigonometryFree_power {b : Expr α} (hb : TrigonometryFree b) (hx : TrigonometryFree x) :
    TrigonometryFree (power b x) := by
  intro f es hc
  rcases mem_subterms_power hc with hn | hp | hc | hc
  · simp [isNumber] at hn
  · simp at hp
  · exact hb f es hc
  · exact hx f es hc

theorem trigonometryFree_rationalSin (hx : TrigonometryFree x) :
    TrigonometryFree (rationalSin x) :=
  closed_trigonometryFree.rationalSin hx
    (trigonometryFree_power (closed_trigonometryFree.divisor hx) (trigonometryFree_num _))

theorem trigonometryFree_rebuild {es : List (Expr α)} (he : IsPlain e)
    (hlen : es.length = e.args.length) (h : ∀ a ∈ es, TrigonometryFree a) :
    TrigonometryFree (rebuild e es) := by
  cases e with
  | num | sym | access => exact (trigonometryFree_iff he).2 (by simp [args])
  | add as => exact closed_trigonometryFree.sum h
  | mul as => exact closed_trigonometryFree.product h
  | pow b x =>
    obtain ⟨b', x', rfl⟩ := List.length_eq_two.1 hlen
    exact trigonometryFree_power (h b' (by simp)) (h x' (by simp))
  | call f as =>
    refine (trigonometryFree_iff fun g bs heq => ?_).2 h
    obtain ⟨rfl, -⟩ := call.inj heq
    exact he f as rfl

theorem approximateTrigonometry_eq (e : Expr α) : e.approximateTrigonometry =
    if e.args.isEmpty then e
    else
      match rebuild e (e.args.map approximateTrigonometry) with
      | call .sin [x] => rationalSin x
      | call .cos [x] => rationalCos x
      | e => e := by
  have hargs : (e.args.map approximateTrigonometry).isEmpty = e.args.isEmpty := List.isEmpty_map
  rw [← hargs]
  exact fold_eq _ e

theorem approximateTrigonometry_sin (x : Expr α) :
    (call .sin [x]).approximateTrigonometry = rationalSin x.approximateTrigonometry := by
  rw [approximateTrigonometry_eq]
  rfl

theorem approximateTrigonometry_cos (x : Expr α) :
    (call .cos [x]).approximateTrigonometry = rationalCos x.approximateTrigonometry := by
  rw [approximateTrigonometry_eq]
  rfl

theorem approximateTrigonometry_of_free (he : IsPlain e)
    (hargs : ∀ a ∈ e.args, TrigonometryFree a.approximateTrigonometry) :
    e.approximateTrigonometry =
      if e.args.isEmpty then e else rebuild e (e.args.map approximateTrigonometry) := by
  have hfree : TrigonometryFree (rebuild e (e.args.map approximateTrigonometry)) :=
    trigonometryFree_rebuild he (List.length_map _) (List.forall_mem_map.2 hargs)
  rw [approximateTrigonometry_eq]
  split
  · rfl
  · split
    · rename_i x heq
      exact absurd (hfree .sin [x] (heq ▸ mem_subterms_self _)) (by simp [Intrinsic.isTrigonometric])
    · rename_i x heq
      exact absurd (hfree .cos [x] (heq ▸ mem_subterms_self _)) (by simp [Intrinsic.isTrigonometric])
    · rfl

theorem trigonometryFree_approximateTrigonometry (h : UnaryTrigonometry e) :
    TrigonometryFree e.approximateTrigonometry := by
  refine h.induct ?sine ?cosine ?plain
  case sine =>
    intro x _ ih
    rw [approximateTrigonometry_sin]
    exact trigonometryFree_rationalSin ih
  case cosine =>
    intro x _ ih
    rw [approximateTrigonometry_cos]
    exact trigonometryFree_rationalSin (closed_trigonometryFree.plus ih (trigonometryFree_num _))
  case plain =>
    intro e he _ ih
    rw [approximateTrigonometry_of_free he ih]
    split
    · rename_i hargs
      exact (trigonometryFree_iff he).2 (by simp [List.isEmpty_iff.1 hargs])
    · exact trigonometryFree_rebuild he (List.length_map _) (List.forall_mem_map.2 ih)

end Approximation

section Division

variable {α : Type} [Zero α] [LT α] {value : Expr α → Except EvalError α} {e b x : Expr α}
  {f : Intrinsic} {es : List (Expr α)}

/-- No division by zero: wherever evaluation comes to a power with a negative exponent, the base is
not zero. It does not come to the operands of a call but the first. -/
inductive Nonsingular (value : Expr α → Except EvalError α) : Expr α → Prop
  | num (v : α) : Nonsingular value (num v)
  | sym (s : String) : Nonsingular value (sym s)
  | access (a : Access) : Nonsingular value (access a)
  | add {es : List (Expr α)} : (∀ a ∈ es, Nonsingular value a) → Nonsingular value (add es)
  | mul {es : List (Expr α)} : (∀ a ∈ es, Nonsingular value a) → Nonsingular value (mul es)
  | pow {b x : Expr α} : Nonsingular value b → Nonsingular value x →
      (∀ u w, value b = .ok u → value x = .ok w → w < 0 → u ≠ 0) → Nonsingular value (pow b x)
  | constant (f : Intrinsic) : Nonsingular value (call f [])
  | call {f : Intrinsic} {e : Expr α} {es : List (Expr α)} :
      Nonsingular value e → Nonsingular value (call f (e :: es))

theorem nonsingular_node_iff (o : Operator) :
    Nonsingular value (o.node es) ↔ ∀ a ∈ es, Nonsingular value a := by
  cases o with
  | plus => exact ⟨fun h => by cases h; assumption, .add⟩
  | times => exact ⟨fun h => by cases h; assumption, .mul⟩

theorem nonsingular_of_isEmpty (h : e.args.isEmpty = true) : Nonsingular value e := by
  rw [List.isEmpty_iff] at h
  cases e with
  | num v => exact .num v
  | sym s => exact .sym s
  | access a => exact .access a
  | add es => exact .add fun a ha => absurd (show a ∈ [] from h ▸ ha) List.not_mem_nil
  | mul es => exact .mul fun a ha => absurd (show a ∈ [] from h ▸ ha) List.not_mem_nil
  | pow b x => simp [args] at h
  | call f es =>
    obtain rfl : es = [] := h
    exact .constant f

variable [Arithmetic α]

theorem closed_nonsingular (value : Expr α → Except EvalError α) : Closed (Nonsingular value) :=
  closed_of_node .num fun o _ => nonsingular_node_iff o

theorem nonsingular_power (hb : Nonsingular value b) (hx : Nonsingular value x)
    (h : ∀ u w, value b = .ok u → value x = .ok w → w < 0 → u ≠ 0) :
    Nonsingular value (power b x) := by
  unfold power
  split
  · split
    · exact hb
    · split
      · exact .num _
      · split
        · exact .num _
        · exact .pow hb hx h
  · exact .pow hb hx h

end Division

end Expr

namespace Arithmetic

variable {α : Type} [AlgebraicField α] [Arithmetic α]

/-- `16x(π - x) / (5π² - 4x(π - x))` -/
def rationalSine (x : α) : α := 16 * x * (pi - x) / (5 * pi ^ 2 - 4 * x * (pi - x))

def rationalIntrinsic : Intrinsic → α → α
  | .sin, x => rationalSine x
  | .cos, x => rationalSine (x + pi / 2)
  | f, x => apply f x

theorem rationalIntrinsic_of_not_trigonometric {f : Intrinsic} (h : f.isTrigonometric = false) :
    (rationalIntrinsic f : α → α) = apply f := by
  cases f with
  | sin | cos => simp [Intrinsic.isTrigonometric] at h
  | sqrt | exp | log => rfl

end Arithmetic

namespace Expr

section Values

open Arithmetic

variable {α : Type} [AlgebraicField α] [Arithmetic α] [Exact α] {env : Env α} {e x : Expr α}
  {u v : α}

theorem denote_int (ρ : Expr α → α) (n : Int) : denote ρ (int n) = n := Exact.ofInt_eq n

theorem denote_plus (ρ : Expr α → α) (a b : Expr α) :
    denote ρ (plus a b) = denote ρ a + denote ρ b := by
  rw [plus, denote_sum, List.map_cons, List.map_singleton, List.sum_cons, List.sum_singleton]

theorem denote_times (ρ : Expr α → α) (a b : Expr α) :
    denote ρ (times a b) = denote ρ a * denote ρ b := by
  rw [times, denote_product, List.map_cons, List.map_singleton, List.prod_cons,
    List.prod_singleton]

theorem denote_difference (ρ : Expr α → α) (a b : Expr α) :
    denote ρ (difference a b) = denote ρ a - denote ρ b := by
  show denote ρ (plus a (times (int (-1)) b)) = _
  rw [denote_plus, denote_times, denote_int, Int.cast_neg, Int.cast_one, neg_one_mul,
    sub_eq_add_neg]

theorem denote_quotient (ρ : Expr α → α) (a b : Expr α) :
    denote ρ (quotient a b) = denote ρ a / denote ρ b := by
  show denote ρ (times a (power b (int (-1)))) = _
  rw [denote_times, denote_power, denote_int, Exact.pow_eq, zpow_neg_one, div_eq_mul_inv]

theorem denote_arc (ρ : Expr α → α) (x : Expr α) :
    denote ρ (arc x) = denote ρ x * (pi - denote ρ x) := by
  rw [arc, denote_times, denote_difference, denote_num]

theorem denote_divisor (ρ : Expr α → α) (x : Expr α) :
    denote ρ x.divisor = 5 * pi ^ 2 - 4 * denote ρ x * (pi - denote ρ x) := by
  rw [divisor, denote_difference, denote_num, denote_times, denote_int, denote_arc, fivePiSquared,
    Exact.mul_eq, Exact.mul_eq, Exact.ofInt_eq]
  push_cast
  ring

theorem denote_rationalSin (ρ : Expr α → α) (x : Expr α) :
    denote ρ (rationalSin x) = rationalSine (denote ρ x) := by
  rw [rationalSin_eq, denote_quotient, denote_divisor, denote_times, denote_int, denote_arc,
    rationalSine, mul_assoc 16]
  push_cast
  rfl

theorem denote_quarterTurn (ρ : Expr α → α) (x : Expr α) :
    denote ρ (plus x (num quarterTurn)) = denote ρ x + pi / 2 := by
  rw [denote_plus, denote_num, quarterTurn, Exact.mul_eq, Exact.inv_eq, Exact.ofInt_eq,
    div_eq_mul_inv]
  push_cast
  rfl

theorem eval_divisor (h : eval env x = .ok u) :
    eval env x.divisor = .ok (5 * pi ^ 2 - 4 * u * (pi - u)) :=
  eval_eq_ok_of_denote ((closed_evaluates env).divisor ⟨u, h⟩) fun ρ hρ => by
    rw [denote_divisor, ← eq_denote_of_eval hρ h]

theorem eval_rationalSin (h : eval env x = .ok u) :
    eval env (rationalSin x) = .ok (rationalSine u) := by
  have hdivisor : Evaluates env x.divisor := ⟨_, eval_divisor h⟩
  refine eval_eq_ok_of_denote ((closed_evaluates env).rationalSin ⟨u, h⟩
    (evaluates_power hdivisor (evaluates_num _))) fun ρ hρ => ?_
  rw [denote_rationalSin, ← eq_denote_of_eval hρ h]

theorem eval_quarterTurn (h : eval env x = .ok u) :
    eval env (plus x (num quarterTurn)) = .ok (u + pi / 2) :=
  eval_eq_ok_of_denote ((closed_evaluates env).plus ⟨u, h⟩ (evaluates_num _)) fun ρ hρ => by
    rw [denote_quarterTurn, ← eq_denote_of_eval hρ h]

theorem eval_approximateTrigonometry (he : UnaryTrigonometry e)
    (h : evalWith rationalIntrinsic env e = .ok v) :
    eval env e.approximateTrigonometry = .ok v := by
  refine he.induct (P := fun e => ∀ v, evalWith rationalIntrinsic env e = .ok v →
    eval env e.approximateTrigonometry = .ok v) ?sine ?cosine ?plain v h
  case sine =>
    intro x _ ih v h
    obtain ⟨u, hu, rfl⟩ := bind_pure_eq_ok.1 h
    rw [approximateTrigonometry_sin]
    exact eval_rationalSin (ih u hu)
  case cosine =>
    intro x _ ih v h
    obtain ⟨u, hu, rfl⟩ := bind_pure_eq_ok.1 h
    rw [approximateTrigonometry_cos]
    exact eval_rationalSin (eval_quarterTurn (ih u hu))
  case plain =>
    intro e he hargs ih v h
    have hraw := eval_rebuildRaw_of_evalWith (fun f es heq =>
      rationalIntrinsic_of_not_trigonometric (he f es heq)) ih h
    rw [approximateTrigonometry_of_free he fun a ha =>
      trigonometryFree_approximateTrigonometry (hargs a ha)]
    split
    · rename_i hnil
      rw [List.isEmpty_iff.1 hnil] at hraw
      cases e <;> simp_all [rebuildRaw, args]
    · rename_i hne
      exact eval_rebuild (isLeaf_of_args hne) (List.length_map _) hraw

omit [Exact α] in
theorem nonsingular_rebuild [LT α] {g : Intrinsic → α → α} {f : Expr α → Expr α}
    (hvalues : ∀ a ∈ e.args, ∀ w, evalWith g env a = .ok w → eval env (f a) = .ok w)
    (hargs : ∀ a ∈ e.args, ∀ w, evalWith g env a = .ok w → Nonsingular (evalWith g env) a →
      Nonsingular (eval env) (f a))
    (h : evalWith g env e = .ok v) (hn : Nonsingular (evalWith g env) e) :
    Nonsingular (eval env) (rebuild e (e.args.map f)) := by
  have hclosed := closed_nonsingular (eval env)
  have hnode : ∀ {es : List (Expr α)} (o : Operator), evalWith g env (o.node es) = .ok v →
      ∀ a ∈ es, ∃ w, evalWith g env a = .ok w := fun o h =>
    (@evaluates_node_iff α (withIntrinsics g) env _ o).1 ⟨v, h⟩
  cases hn with
  | num v => exact .num v
  | sym s => exact .sym s
  | access a => exact .access a
  | constant i => exact .constant i
  | add hn =>
    refine hclosed.sum (List.forall_mem_map.2 fun a ha => ?_)
    obtain ⟨w, hw⟩ := hnode .plus h a ha
    exact hargs a ha w hw (hn a ha)
  | mul hn =>
    refine hclosed.product (List.forall_mem_map.2 fun a ha => ?_)
    obtain ⟨w, hw⟩ := hnode .times h a ha
    exact hargs a ha w hw (hn a ha)
  | @pow b x hb hx hzero =>
    obtain ⟨⟨u, hu⟩, w, hw⟩ := (@evaluates_pow_iff α (withIntrinsics g) env b x).1 ⟨v, h⟩
    have hbase : b ∈ (pow b x).args := by simp [args]
    have hexponent : x ∈ (pow b x).args := by simp [args]
    refine nonsingular_power (hargs b hbase u hu hb) (hargs x hexponent w hw hx) ?_
    intro u' w' hu' hw' hneg
    obtain rfl := Except.ok.inj (hu'.symm.trans (hvalues b hbase u hu))
    obtain rfl := Except.ok.inj (hw'.symm.trans (hvalues x hexponent w hw))
    exact hzero _ _ hu hw hneg
  | call hn =>
    obtain ⟨u, hu, -⟩ := bind_pure_eq_ok.1 h
    exact .call (hargs _ List.mem_cons_self u hu hn)

variable [LinearOrder α] [IsStrictOrderedRing α]

omit [Exact α] in
theorem divisor_pos (hpi : 0 < (pi : α)) (u : α) : 0 < 5 * pi ^ 2 - 4 * u * (pi - u) := by
  have hsquares : 5 * pi ^ 2 - 4 * u * (pi - u) = (2 * u - pi) ^ 2 + 4 * pi ^ 2 := by ring
  rw [hsquares]
  positivity

theorem nonsingular_rationalSin (hpi : 0 < (pi : α)) (h : eval env x = .ok u)
    (hx : Nonsingular (eval env) x) : Nonsingular (eval env) (rationalSin x) := by
  have hclosed := closed_nonsingular (eval env)
  refine hclosed.rationalSin hx (nonsingular_power (hclosed.divisor hx) (.num _) ?_)
  intro d w hd _ _
  obtain rfl := Except.ok.inj (hd.symm.trans (eval_divisor h))
  exact (divisor_pos hpi u).ne'

theorem nonsingular_approximateTrigonometry (hpi : 0 < (pi : α)) (he : UnaryTrigonometry e)
    (h : evalWith rationalIntrinsic env e = .ok v)
    (hn : Nonsingular (evalWith rationalIntrinsic env) e) :
    Nonsingular (eval env) e.approximateTrigonometry := by
  refine he.induct (P := fun e => ∀ v, evalWith rationalIntrinsic env e = .ok v →
    Nonsingular (evalWith rationalIntrinsic env) e →
      Nonsingular (eval env) e.approximateTrigonometry) ?sine ?cosine ?plain v h hn
  case sine =>
    intro x hx ih v h hn
    obtain ⟨u, hu, -⟩ := bind_pure_eq_ok.1 h
    rw [approximateTrigonometry_sin]
    cases hn with
    | call hn =>
      exact nonsingular_rationalSin hpi (eval_approximateTrigonometry hx hu) (ih u hu hn)
  case cosine =>
    intro x hx ih v h hn
    obtain ⟨u, hu, -⟩ := bind_pure_eq_ok.1 h
    have hturn := eval_quarterTurn (eval_approximateTrigonometry hx hu)
    rw [approximateTrigonometry_cos]
    cases hn with
    | call hn =>
      exact nonsingular_rationalSin hpi hturn
        ((closed_nonsingular (eval env)).plus (ih u hu hn) (.num _))
  case plain =>
    intro e he hargs ih v h hn
    rw [approximateTrigonometry_of_free he fun a ha =>
      trigonometryFree_approximateTrigonometry (hargs a ha)]
    split
    · rename_i hnil
      exact nonsingular_of_isEmpty hnil
    · exact nonsingular_rebuild (fun a ha w hw => eval_approximateTrigonometry (hargs a ha) hw)
        ih h hn

/-- What comes in the place of sine and cosine is a rational function of the operand, whose divisor
is positive whatever the operand is. -/
theorem approximateTrigonometry_rational (hpi : 0 < (pi : α)) (he : UnaryTrigonometry e) :
    TrigonometryFree e.approximateTrigonometry ∧
      (∀ env v, evalWith rationalIntrinsic env e = .ok v →
        eval env e.approximateTrigonometry = .ok v ∧
          (Nonsingular (evalWith rationalIntrinsic env) e →
            Nonsingular (eval env) e.approximateTrigonometry)) ∧
      ∀ (env : Env α) x u, eval env x = .ok u →
        ∃ d, eval env x.divisor = .ok d ∧ d = 5 * pi ^ 2 - 4 * u * (pi - u) ∧ 0 < d :=
  ⟨trigonometryFree_approximateTrigonometry he,
    fun _ _ h => ⟨eval_approximateTrigonometry he h,
      nonsingular_approximateTrigonometry hpi he h⟩,
    fun _ _ u h => ⟨_, eval_divisor h, rfl, divisor_pos hpi u⟩⟩

/-- `sin(π/2 * cos(x)) * y^-1 + exp(x)` -/
def nestedCalls : Expr ℚ :=
  add [mul [call .sin [mul [num (355 / 226), call .cos [sym "x"]]], pow (sym "y") (num (-1))],
    call .exp [sym "x"]]

def nestedCallsEnv : Env ℚ where
  symbol s := if s = "x" then some 0 else if s = "y" then some 2 else none
  position _ := none
  element _ _ := none

theorem approximateTrigonometry_rational_nested :
    0 < (pi : ℚ) ∧ UnaryTrigonometry nestedCalls ∧
      TrigonometryFree nestedCalls.approximateTrigonometry ∧
      nestedCalls.approximateTrigonometry.eval nestedCallsEnv = .ok (1 / 2) ∧
      Nonsingular (eval nestedCallsEnv) nestedCalls.approximateTrigonometry := by
  have hpi : 0 < (pi : ℚ) := by
    show (0 : ℚ) < 355 / 113
    norm_num
  have hunary : UnaryTrigonometry nestedCalls := by
    intro f es hc _
    simp only [nestedCalls, subterms_eq, args, List.flatMap_cons, List.flatMap_nil,
      List.append_nil, List.cons_append, List.nil_append, List.mem_cons, List.not_mem_nil, or_false,
      reduceCtorEq, false_or, call.injEq] at hc
    rcases hc with ⟨-, rfl⟩ | ⟨-, rfl⟩ | ⟨-, rfl⟩
    · rfl
    · rfl
    · rfl
  have hvalue : evalWith rationalIntrinsic nestedCallsEnv nestedCalls = .ok (1 / 2) := by
    cbv
  have hdivides : Nonsingular (evalWith rationalIntrinsic nestedCallsEnv) nestedCalls := by
    refine .add (List.forall_mem_cons.2 ⟨.mul (List.forall_mem_cons.2 ⟨.call (.mul ?_), ?_⟩), ?_⟩)
    · exact List.forall_mem_cons.2 ⟨.num _, List.forall_mem_singleton.2 (.call (.sym _))⟩
    · refine List.forall_mem_singleton.2 (.pow (.sym _) (.num _) fun u w hu _ _ => ?_)
      obtain rfl : (2 : ℚ) = u := Except.ok.inj hu
      norm_num
    · exact List.forall_mem_singleton.2 (.call (.sym _))
  obtain ⟨hfree, hall, -⟩ := approximateTrigonometry_rational hpi hunary
  exact ⟨hpi, hunary, hfree, (hall _ _ hvalue).1, (hall _ _ hvalue).2 hdivides⟩

end Values

end Expr

end Stencil
