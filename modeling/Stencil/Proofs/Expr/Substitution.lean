import Stencil.Proofs.Expr.Insertion
import Stencil.Proofs.Expr.Values
import Stencil.Proofs.Rational

namespace Stencil.Expr

variable {α : Type} [Arithmetic α] {env : Env α} {s : Substitution α} {e : Expr α} {v : α}

/-- What takes the place of the keys that occur in an expression has their values. -/
def Preserves (env : Env α) (s : Substitution α) (e : Expr α) : Prop :=
  ∀ k ∈ e.subterms, ∀ t, s.get? k = some t → ∀ w, eval env k = .ok w → eval env t = .ok w

variable [AlgebraicField α] [Exact α]

section Build

variable {build : Expr α → List (Expr α) → Expr α}
  (hbuild : ∀ {e : Expr α} {es : List (Expr α)} {v : α}, e.isLeaf = false →
    es.length = e.args.length → eval env (rebuildRaw e es) = .ok v → eval env (build e es) = .ok v)

include hbuild

theorem eval_replaceBy_of_hits (hs : ∀ k, Hits s e k → ∀ t, s.get? k = some t →
      ∀ w, eval env k = .ok w → eval env t = .ok w)
    (h : eval env e = .ok v) : eval env (replaceBy build s e) = .ok v := by
  induction e using inductArgs generalizing v with
  | node e ih =>
    rw [replaceBy_eq]
    cases hget : s.get? e with
    | some t => exact hs e (.here hget) t hget v h
    | none =>
      by_cases hargs : e.args.isEmpty = true
      · simpa only [hargs, if_true] using h
      · have hraw := eval_rebuildRaw_of_forall (fun a ha w hw =>
          ih a ha (fun k hk => hs k (.inside hget ha hk)) hw) h
        simp only [hargs]
        exact hbuild (isLeaf_of_args hargs) (List.length_map _) hraw

theorem eval_replaceBy (hs : Preserves env s e) (h : eval env e = .ok v) :
    eval env (replaceBy build s e) = .ok v :=
  eval_replaceBy_of_hits hbuild (fun k hk => hs k hk.mem_subterms) h

end Build

theorem replace_keeps_value (hs : Preserves env s e) (h : eval env e = .ok v) :
    eval env (e.replace s) = .ok v ∧ eval env (e.replaceRaw s) = .ok v :=
  ⟨eval_replaceBy eval_rebuild hs h, eval_replaceBy (fun _ _ h => h) hs h⟩

/-- `a*(a + 1) + c^n` -/
def nestedKeys : Expr ℚ :=
  add [mul [sym "a", add [sym "a", num 1]], pow (sym "c") (sym "n")]

def overlapping : Substitution ℚ :=
  .ofList [(sym "a", num 3), (add [sym "a", num 1], sym "p"), (sym "n", num 0)]

def nestedEnv : Env ℚ where
  symbol s :=
    if s = "a" then some 3 else if s = "c" then some 5 else if s = "n" then some 0
    else if s = "p" then some 4 else none
  position _ := none
  element _ _ := none

theorem replace_keeps_value_overlapping :
    nestedKeys.replace overlapping = add [num 1, mul [num 3, sym "p"]] ∧
      nestedKeys.eval nestedEnv = .ok 13 ∧
      (nestedKeys.replace overlapping).eval nestedEnv = .ok 13 ∧
      (nestedKeys.replaceRaw overlapping).eval nestedEnv = .ok 13 := by
  have hvalue : nestedKeys.eval nestedEnv = .ok 13 := by cbv
  have hentries : overlapping.entries =
      [(sym "a", num 3), (add [sym "a", num 1], sym "p"), (sym "n", num 0)] := by cbv
  have hequal : ∀ x ∈ overlapping.entries, x.2.eval nestedEnv = x.1.eval nestedEnv := by
    rw [hentries]
    simp only [List.forall_mem_cons]
    exact ⟨by cbv, by cbv, by cbv, List.forall_mem_nil _⟩
  have hkeys : Preserves nestedEnv overlapping nestedKeys := fun k _ t hget w hw =>
    (hequal _ (Table.mem_of_get? hget)).trans hw
  exact ⟨by cbv, hvalue, replace_keeps_value hkeys hvalue⟩

end Stencil.Expr
