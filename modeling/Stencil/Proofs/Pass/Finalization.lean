import Stencil.Binary64.Basic
import Stencil.Pass.Scalar
import Stencil.Proofs.Expr.Powers
import Stencil.Proofs.Rational

namespace Stencil

namespace Expr

variable {α : Type} [Arithmetic α]

/-- Integral exponents are less than two in magnitude. -/
def Expanded (e : Expr α) : Prop :=
  ∀ b x n, pow b x ∈ e.subterms → x.integer? = some n → n.natAbs < 2

theorem Expanded.args {e : Expr α} (h : Expanded e) : ∀ a ∈ e.args, Expanded a :=
  fun a ha b x n hp => h b x n (mem_subterms.2 (.inr ⟨a, ha, hp⟩))

theorem expanded_of_args {e : Expr α}
    (he : ∀ b x n, e = pow b x → x.integer? = some n → n.natAbs < 2)
    (h : ∀ a ∈ e.args, Expanded a) : Expanded e := by
  intro b x n hp hn
  rcases mem_subterms.1 hp with heq | ⟨a, ha, hp⟩
  · exact he b x n heq.symm hn
  · exact h a ha b x n hp hn

theorem expanded_of_isLeaf {e : Expr α} (h : e.isLeaf = true) : Expanded e := by
  intro b x n hp
  rw [subterms_of_leaf h, List.mem_singleton] at hp
  simp [← hp, isLeaf] at h

theorem expanded_mul_replicate {b : Expr α} (h : Expanded b) (k : Nat) :
    Expanded (mul (List.replicate k b)) :=
  expanded_of_args (by simp) fun _ ha => List.eq_of_mem_replicate ha ▸ h

theorem expanded_pow {b x : Expr α} (hb : Expanded b) (hx : Expanded x)
    (h : ∀ n, x.integer? = some n → n.natAbs < 2) : Expanded (pow b x) := by
  refine expanded_of_args (fun b' x' n heq hn => ?_) (by simp [args, hb, hx])
  obtain ⟨-, rfl⟩ := pow.inj heq
  exact h n hn

theorem expandPowers_of_expanded {e : Expr α} (h : Expanded e) : e.expandPowers = e := by
  induction e using inductPowers with
  | pow b x hb hx =>
    rw [expandPowers_pow, hb (h.args b (by simp [args])), hx (h.args x (by simp [args])),
      expandPower]
    split
    · rename_i n hn
      have hsmall := h b x n (mem_subterms_self _) hn
      rw [if_neg (by omega), if_neg (by omega)]
    · rfl
  | other e hne ih =>
    have hargs : e.args.map expandPowers = e.args :=
      (List.map_congr_left fun a ha => ih a ha (h.args a ha)).trans (List.map_id _)
    rw [expandPowers_of_not_pow hne, hargs]
    cases e <;> rfl

section Reciprocal

-- The exponent of a reciprocal is read back as it was written.
variable (hone : ∀ n, Arithmetic.integer? (Arithmetic.ofInt (-1) : α) = some n → n = -1)

include hone

theorem expanded_expandPower {b x x' : Expr α} (hb : Expanded b) (hx : Expanded x')
    (hint : x'.integer? = x.integer?) :
    Expanded (expandPower x b x') := by
  unfold expandPower
  split
  · rename_i n hn
    split
    · exact expanded_mul_replicate hb _
    · split
      · refine expanded_pow (expanded_mul_replicate hb _) (expanded_of_isLeaf rfl) fun m hm => ?_
        rw [hone m hm]
        decide
      · refine expanded_pow hb hx fun m hm => ?_
        rw [hint, hn, Option.some.injEq] at hm
        omega
  · rename_i hn
    refine expanded_pow hb hx fun m hm => ?_
    simp [hint, hn] at hm

theorem expanded_expandPowers (e : Expr α) : Expanded e.expandPowers := by
  induction e using inductPowers with
  | pow b x hb hx =>
    rw [expandPowers_pow]
    exact expanded_expandPower hone hb hx (integer?_expandPowers x)
  | other e hne ih =>
    cases hleaf : e.isLeaf with
    | true => exact (expandPowers_of_isLeaf hleaf).symm ▸ expanded_of_isLeaf hleaf
    | false =>
      rw [expandPowers_of_not_pow hne]
      refine expanded_of_args (fun b x n heq => ?_) fun a ha => ?_
      · cases e <;> simp_all [rebuildRaw]
      · rw [args_rebuildRaw hleaf (List.length_map _)] at ha
        obtain ⟨c, hc, rfl⟩ := List.mem_map.1 ha
        exact ih c hc

theorem expandPowers_expandPowers (e : Expr α) :
    e.expandPowers.expandPowers = e.expandPowers :=
  expandPowers_of_expanded (expanded_expandPowers hone e)

theorem finalize_finalize (c : Cluster α) :
    ScalarPass.finalize (ScalarPass.finalize c) = ScalarPass.finalize c := by
  simp only [ScalarPass.finalize, Cluster.withAssignments, List.map_map]
  congr 1
  refine List.map_congr_left fun a _ => ?_
  simp only [Function.comp_def, Assignment.withRhs, Assignment.freeze,
    expandPowers_expandPowers hone]

end Reciprocal

theorem expandPowers_normalizes :
    ((∀ n, Arithmetic.integer? (Arithmetic.ofInt (-1) : α) = some n → n = -1) →
      (∀ e : Expr α, Expanded e.expandPowers ∧ e.expandPowers.expandPowers = e.expandPowers) ∧
        ∀ c : Cluster α, ScalarPass.finalize (ScalarPass.finalize c) = ScalarPass.finalize c) ∧
      ∀ [AlgebraicField α] [Exact α] (env : Env α) (e : Expr α),
        eval env e.expandPowers = eval env e :=
  ⟨fun hone => ⟨fun e => ⟨expanded_expandPowers hone e, expandPowers_expandPowers hone e⟩,
    finalize_finalize hone⟩, fun _ e => eval_expandPowers e⟩

def nestedPower {α : Type} [Arithmetic α] : Expr α :=
  pow (pow (sym "a") (int (-2))) (pow (int 2) (int 3))

theorem expandPowers_normalizes_nested :
    (nestedPower : Expr Binary64).expandPowers.expandPowers =
        (nestedPower : Expr Binary64).expandPowers ∧
      (nestedPower : Expr ℚ).expandPowers =
        pow (pow (mul [sym "a", sym "a"]) (int (-1))) (mul [int 2, int 2, int 2]) ∧
      Expanded (nestedPower : Expr ℚ).expandPowers ∧
      ∀ env, eval env (nestedPower : Expr ℚ).expandPowers = eval env nestedPower := by
  have hbinary : ∀ n, Arithmetic.integer? (Arithmetic.ofInt (-1) : Binary64) = some n → n = -1 := by
    have hread : Arithmetic.integer? (Arithmetic.ofInt (-1) : Binary64) = some (-1) := by
      decide +kernel
    simp [hread]
  have hrational : ∀ n, Arithmetic.integer? (Arithmetic.ofInt (-1) : ℚ) = some n → n = -1 := by
    have hread : Arithmetic.integer? (Arithmetic.ofInt (-1) : ℚ) = some (-1) := by
      decide +kernel
    simp [hread]
  exact ⟨((expandPowers_normalizes.1 hbinary).1 _).2, by cbv,
    ((expandPowers_normalizes.1 hrational).1 _).1, fun env => expandPowers_normalizes.2 env _⟩

/-- Exponents from `2 ^ 63` on are not read as integers. -/
theorem expandPowers_keeps_large_power :
    ¬ ∀ (e b : Expr Binary64) (n : Int), pow b (int n) ∈ e.expandPowers.subterms →
      n.natAbs < 2 := by
  intro h
  have hread : (int (10 ^ 19) : Expr Binary64).integer? = none := by decide +kernel
  have hkept : (pow (sym "r") (int (10 ^ 19)) : Expr Binary64).expandPowers =
      pow (sym "r") (int (10 ^ 19)) := by
    rw [expandPowers_pow, expandPower, hread]
    rfl
  refine absurd (h (pow (sym "r") (int (10 ^ 19))) (sym "r") (10 ^ 19) ?_) (by decide)
  rw [hkept]
  exact mem_subterms_self _

end Expr

end Stencil
