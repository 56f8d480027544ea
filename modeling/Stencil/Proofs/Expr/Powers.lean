import Stencil.Expr.Rewriting
import Stencil.Proofs.Expr.Evaluation
import Stencil.Proofs.Expr.Hereditary

namespace Stencil.Expr

variable {α : Type}

@[elab_as_elim]
theorem inductPowers {P : Expr α → Prop} (pow : ∀ b x, P b → P x → P (pow b x))
    (other : ∀ e, (∀ b x, e ≠ .pow b x) → (∀ a ∈ e.args, P a) → P e) (e : Expr α) : P e := by
  induction e using inductArgs with
  | node e ih =>
    by_cases hpow : ∃ b x, e = .pow b x
    · obtain ⟨b, x, rfl⟩ := hpow
      exact pow b x (ih b (by simp [args])) (ih x (by simp [args]))
    · exact other e (fun b x hbx => hpow ⟨b, x, hbx⟩) ih

theorem within_rebuildRaw {S : Set (Expr α)} {e : Expr α} {es : List (Expr α)} (he : Within S e)
    (hlen : es.length = e.args.length) (h : ∀ a ∈ es, Within S a) : Within S (rebuildRaw e es) := by
  cases e with
  | num | sym | access => exact he
  | add | mul => exact within_of_args rfl (by simp [rebuildRaw]) h
  | pow b x =>
    obtain ⟨b', x', rfl⟩ := List.length_eq_two.1 hlen
    exact within_of_args rfl (by simp [rebuildRaw]) h
  | call f args =>
    refine within_of_args rfl (fun g es' hc => ?_) h
    obtain ⟨-, rfl⟩ : f = g ∧ es = es' := by simpa [rebuildRaw] using hc
    rw [hlen]
    exact he.unary f args (mem_subterms_self _)

variable [Arithmetic α]

theorem expandPowers_eq (e : Expr α) :
    e.expandPowers = match e, e.args.map expandPowers with
      | pow _ x, [b', x'] => expandPower x b' x'
      | e, args => rebuildRaw e args :=
  fold_eq _ e

theorem expandPowers_pow (b x : Expr α) :
    (pow b x).expandPowers = expandPower x b.expandPowers x.expandPowers := expandPowers_eq (pow b x)

theorem expandPowers_of_not_pow {e : Expr α} (h : ∀ b x, e ≠ pow b x) :
    e.expandPowers = rebuildRaw e (e.args.map expandPowers) := by
  rw [expandPowers_eq]
  split
  · exact absurd rfl (h _ _)
  · rfl

theorem within_expandPower {S : Set (Expr α)} {b x x' : Expr α} (hb : Within S b)
    (hx : Within S x') : Within S (expandPower x b x') := by
  have hpow : ∀ {c y : Expr α}, Within S c → Within S y → Within S (pow c y) := fun hc hy =>
    within_of_args rfl (by simp) (by simp [args, hc, hy])
  have hrep : ∀ n, Within S (mul (List.replicate n b)) := fun n =>
    within_of_args rfl (by simp) fun e he => List.eq_of_mem_replicate he ▸ hb
  unfold expandPower
  split
  · split
    · exact hrep _
    · split
      · exact hpow (hrep _) (within_num S _)
      · exact hpow hb hx
  · exact hpow hb hx

theorem within_expandPowers {S : Set (Expr α)} {e : Expr α} (he : Within S e) :
    Within S e.expandPowers := by
  induction e using inductPowers with
  | pow b x hb hx =>
    rw [expandPowers_pow]
    exact within_expandPower (hb (he.args b (by simp [args]))) (hx (he.args x (by simp [args])))
  | other e hne ih =>
    rw [expandPowers_of_not_pow hne]
    refine within_rebuildRaw he (List.length_map _) fun a ha => ?_
    obtain ⟨b, hb, rfl⟩ := List.mem_map.1 ha
    exact ih b hb (he.args b hb)

theorem mem_inputs_expandPower {i b x x' : Expr α} (h : i ∈ (expandPower x b x').inputs) :
    i ∈ b.inputs ∨ i ∈ x'.inputs := by
  have hpow : ∀ {c y : Expr α}, i ∈ (pow c y).inputs → i ∈ c.inputs ∨ i ∈ y.inputs := fun h => by
    simpa [args] using (mem_inputs_iff rfl).1 h
  have hrep : ∀ {n}, i ∈ (mul (List.replicate n b)).inputs → i ∈ b.inputs := fun h => by
    obtain ⟨a, ha, hi⟩ := (mem_inputs_iff rfl).1 h
    exact List.eq_of_mem_replicate ha ▸ hi
  unfold expandPower at h
  split at h
  · split at h
    · exact .inl (hrep h)
    · split at h
      · rcases hpow h with h | h
        · exact .inl (hrep h)
        · simp [int, inputs_num] at h
      · exact hpow h
  · exact hpow h

theorem mem_inputs_expandPowers {i e : Expr α} (h : i ∈ e.expandPowers.inputs) : i ∈ e.inputs := by
  induction e using inductPowers with
  | pow b x hb hx =>
    rw [expandPowers_pow] at h
    rcases mem_inputs_expandPower h with h | h
    · exact mem_inputs_args ⟨b, by simp [args], hb h⟩
    · exact mem_inputs_args ⟨x, by simp [args], hx h⟩
  | other e hne ih =>
    by_cases hleaf : e.isLeaf = true
    · cases e <;> first | exact h | simp [isLeaf] at hleaf
    · rw [expandPowers_of_not_pow hne] at h
      obtain ⟨a, ha, hi⟩ := mem_inputs_rebuildRaw (Bool.eq_false_iff.2 hleaf) (List.length_map _) h
      obtain ⟨b, hb, rfl⟩ := List.mem_map.1 ha
      exact mem_inputs_args ⟨b, hb, ih b hb hi⟩

theorem expandPowers_of_isLeaf {e : Expr α} (h : e.isLeaf = true) : e.expandPowers = e := by
  cases e <;> first | rfl | simp [isLeaf] at h

theorem isLeaf_expandPowers (e : Expr α) : e.expandPowers.isLeaf = e.isLeaf := by
  by_cases hpow : ∃ b x, e = pow b x
  · obtain ⟨b, x, rfl⟩ := hpow
    rw [expandPowers_pow]
    unfold expandPower
    split
    · split
      · rfl
      · split <;> rfl
    · rfl
  · rw [expandPowers_of_not_pow fun b x hbx => hpow ⟨b, x, hbx⟩]
    cases hl : e.isLeaf with
    | true => cases e <;> first | rfl | simp [isLeaf] at hl
    | false => exact isLeaf_rebuildRaw hl (List.length_map _)

theorem expandPowers_eq_leaf {e l : Expr α} (hl : l.isLeaf = true) :
    e.expandPowers = l ↔ e = l := by
  constructor
  · intro h
    rw [← h, isLeaf_expandPowers] at hl
    rw [← h, expandPowers_of_isLeaf hl]
  · rintro rfl
    exact expandPowers_of_isLeaf hl

theorem integer?_expandPowers (e : Expr α) : e.expandPowers.integer? = e.integer? := by
  cases hl : e.isLeaf with
  | true => rw [expandPowers_of_isLeaf hl]
  | false =>
    have hnone : ∀ e : Expr α, e.isLeaf = false → e.integer? = none := by
      intro e he
      cases e <;> first | rfl | simp [isLeaf] at he
    rw [hnone e hl, hnone _ ((isLeaf_expandPowers e).trans hl)]

theorem expandPowers_eq_add {e : Expr α} {es : List (Expr α)} (h : e.expandPowers = add es) :
    ∃ args, e = add args ∧ es = args.map expandPowers := by
  by_cases hpow : ∃ b x, e = pow b x
  · obtain ⟨b, x, rfl⟩ := hpow
    rw [expandPowers_pow] at h
    unfold expandPower at h
    split at h
    · split at h
      · simp at h
      · split at h <;> simp at h
    · simp at h
  · rw [expandPowers_of_not_pow fun b x hbx => hpow ⟨b, x, hbx⟩] at h
    cases e with
    | add args => exact ⟨args, rfl, (add.inj h).symm⟩
    | pow b x => exact absurd ⟨b, x, rfl⟩ hpow
    | _ => simp [rebuildRaw] at h

variable [AlgebraicField α] [Exact α]

section Evaluation

variable {env : Env α}

theorem eval_pow_num (b : Expr α) (v : α) :
    eval env (pow b (num v)) = (eval env b).map (Arithmetic.pow · v) := by
  rw [eval]
  cases eval env b with
  | error err => rfl
  | ok u =>
    cases hrep : (num v : Expr α).repeated? with
    | none => rfl
    | some n =>
      obtain ⟨w, hw, hn⟩ := eq_num_of_integer? (integer?_of_repeated? hrep)
      obtain rfl := num.inj hw
      rw [Exact.integer_eq v n hn]
      exact congrArg Except.ok ((Arithmetic.powInt_eq u n).trans (Exact.pow_eq u n).symm)

theorem eval_mul_replicate (b : Expr α) {k : Nat} (hk : 0 < k) :
    eval env (mul (List.replicate k b)) = (eval env b).map (· ^ k) := by
  obtain ⟨k, rfl⟩ := Nat.exists_eq_add_of_lt hk
  cases hb : eval env b with
  | error err => simp [eval, List.replicate_succ, evalAll, hb, bind, Except.bind, Except.map]
  | ok u =>
    rw [eval, evalAll_eq_map (f := fun _ => u) fun e he => List.eq_of_mem_replicate he ▸ hb]
    rw [List.map_replicate]
    exact congrArg Except.ok ((Arithmetic.product_eq _).trans (List.prod_replicate _ u))

theorem eval_expandPower {b b' x x' : Expr α} (hb : eval env b' = eval env b)
    (hx : eval env x' = eval env x) (hint : x'.integer? = x.integer?) :
    eval env (expandPower x b' x') = eval env (pow b x) := by
  have hpow : eval env (pow b' x') = eval env (pow b x) := by
    have hrepeated : x'.repeated? = x.repeated? := by rw [repeated?, repeated?, hint]
    rw [eval, eval, hrepeated, hb, hx]
  unfold expandPower
  split
  · rename_i n hn
    obtain ⟨v, rfl, hv⟩ := eq_num_of_integer? hn
    have hvalue : eval env (pow b (num v)) = (eval env b).map (· ^ n) := by
      rw [eval_pow_num, Exact.integer_eq v n hv]
      exact congrArg (Except.map · _) (funext fun u => Exact.pow_eq u n)
    split
    · obtain ⟨k, rfl⟩ : ∃ k : Nat, n = k := ⟨n.toNat, by omega⟩
      rw [Int.toNat_natCast, eval_mul_replicate b' (by omega), hvalue, hb]
      simp only [zpow_natCast]
    · split
      · obtain ⟨k, rfl⟩ : ∃ k : Nat, n = -k := ⟨n.natAbs, by omega⟩
        rw [int, eval_pow_num, Int.natAbs_neg, Int.natAbs_natCast, eval_mul_replicate b' (by omega),
          hvalue, hb, Exact.ofInt_eq]
        cases eval env b with
        | error err => rfl
        | ok u =>
          refine congrArg Except.ok ((Exact.pow_eq (u ^ k) (-1)).trans ?_)
          simp
      · exact hpow
  · exact hpow

theorem eval_expandPowers (e : Expr α) : eval env e.expandPowers = eval env e := by
  induction e using inductPowers with
  | pow b x hb hx =>
    rw [expandPowers_pow]
    exact eval_expandPower hb hx (integer?_expandPowers x)
  | other e hne ih =>
    rw [expandPowers_of_not_pow hne]
    exact eval_rebuildRaw (fun _ => rfl) ih fun a _ => integer?_expandPowers a

end Evaluation

theorem denote_expandPower (ρ : Expr α → α) {b x x' : Expr α} (hx : denote ρ x' = denote ρ x) :
    denote ρ (expandPower x b x') = Arithmetic.pow (denote ρ b) (denote ρ x) := by
  unfold expandPower
  split
  · rename_i n hn
    obtain ⟨v, rfl, hv⟩ := eq_num_of_integer? hn
    rw [denote_num, Exact.integer_eq v n hv, Exact.pow_eq]
    split
    · obtain ⟨k, rfl⟩ : ∃ k : Nat, n = k := ⟨n.toNat, by omega⟩
      simp
    · split
      · obtain ⟨k, rfl⟩ : ∃ k : Nat, n = -k := ⟨n.natAbs, by omega⟩
        rw [denote_pow, int, denote_num, Exact.ofInt_eq, Exact.pow_eq]
        simp
      · rw [denote_pow, hx, denote_num, Exact.integer_eq v n hv, Exact.pow_eq]
  · rw [denote_pow, hx]

@[simp]
theorem denote_expandPowers (ρ : Expr α → α) (e : Expr α) :
    denote ρ e.expandPowers = denote ρ e := by
  induction e using inductPowers with
  | pow b x hb hx => rw [expandPowers_pow, denote_expandPower ρ hx, denote_pow, hb]
  | other e hne ih =>
    rw [expandPowers_of_not_pow hne]
    by_cases hleaf : e.isLeaf = true
    · cases e <;> first | rfl | simp [isLeaf] at hleaf
    · have hleaf := Bool.eq_false_iff.2 hleaf
      rw [faithful_rebuildRaw.denote ρ hleaf (List.length_map _),
        denote_of_not_isInput (isInput_of_isLeaf hleaf), List.map_map]
      exact congrArg _ (List.map_congr_left ih)

end Stencil.Expr
