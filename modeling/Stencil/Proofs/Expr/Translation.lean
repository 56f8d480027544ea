import Stencil.Proofs.Binary64.Lawful
import Stencil.Proofs.Expr.Cost
import Stencil.Proofs.Expr.Displacement
import Stencil.Proofs.Rational

namespace Stencil.Expr

variable {α : Type} [Arithmetic α] {s : Shift} {w : Bool}

omit [Arithmetic α] in
theorem number?_displaceRaw (s : Shift) (e : Expr α) : (e.displaceRaw s).number? = e.number? :=
  (keeps_displaceRaw s e).number?

theorem rootCost_displaceRaw (e : Expr α) : rootCost w (e.displaceRaw s) = rootCost w e := by
  cases e with
  | mul es =>
    have hfree : ∀ a : Expr α, (a.displaceRaw s).isMinusOne = a.isMinusOne := fun a => by
      rw [isMinusOne, isMinusOne, number?_displaceRaw]
    simp only [displaceRaw_mul, rootCost, List.countP_map, Function.comp_def, hfree]
  | pow b x =>
    have hexponent : (x.displaceRaw s).integer? = x.integer? := by
      rw [integer?, integer?, number?_displaceRaw]
    simp only [displaceRaw_pow, rootCost, powerCost, hexponent]
  | _ => simp [rootCost]

theorem cost_displaceRaw (e : Expr α) : (e.displaceRaw s).cost w = e.cost w := by
  induction e using inductArgs with
  | node e ih =>
    rw [cost_eq, cost_eq e, rootCost_displaceRaw, args_displaceRaw, List.map_map]
    exact congrArg _ (congrArg List.sum (List.map_congr_left ih))

variable [LawfulArithmetic α] {a b : Expr α}

theorem cost_displace (ha : Canonical a) (s : Shift) (w : Bool) :
    (a.displace s).cost w = a.cost w := by
  rw [displace_eq_displaceRaw ha, cost_displaceRaw]

theorem args_displace (ha : Canonical a) (s : Shift) :
    (a.displace s).args = a.args.map (·.displace s) := by
  rw [displace_eq_displaceRaw ha, args_displaceRaw]
  exact List.map_congr_left fun x hx => (displace_eq_displaceRaw (ha.args x hx) s).symm

theorem accesses_displace (ha : Canonical a) (s : Shift) : (a.displace s).accesses =
    a.accesses.map fun x => ⟨x.field, x.indices.map fun
      | .const c => .const c
      | .affine d o => .affine d (o + s d)⟩ := by
  rw [displace_eq_displaceRaw ha, accesses_displaceRaw]
  refine List.map_congr_left fun x _ => congrArg (Access.mk x.field) ?_
  refine List.map_congr_left fun i _ => ?_
  cases i <;> rfl

theorem displace_acts (ha : Canonical a) (hb : Canonical b) (s t : Shift) :
    a.displace 0 = a ∧ (a.displace s).displace t = a.displace (s + t) ∧
      (a.displace s).displace (-s) = a ∧ Canonical (a.displace s) ∧
      (a.displace s).cmp (b.displace s) = a.cmp b ∧
      (a.displace s).args = a.args.map (·.displace s) ∧
      ((a.displace s).accesses = a.accesses.map fun x => ⟨x.field, x.indices.map fun
        | .const c => .const c
        | .affine d o => .affine d (o + s d)⟩) ∧
      ∀ w, (a.displace s).cost w = a.cost w := by
  have hundo : (a.displace s).displace (-s) = a := by
    rw [displace_displace ha, add_neg_cancel]
    exact displace_zero ha
  exact ⟨displace_zero ha, displace_displace ha s t, hundo, canonical_displace ha s,
    cmp_displace ha hb s, args_displace ha s, accesses_displace ha s, cost_displace ha s⟩

def along (o : Int) : Expr Binary64 := access ⟨.input "u", [.affine (.space "x") o]⟩

theorem canonical_along (o : Int) : Canonical (along o) := .access _

/-- A second difference over a square. -/
def curvature : Expr Binary64 :=
  product [sum [along (-1), along 1, product [int (-2), along 0]], power (sym "h") (int (-2))]

theorem canonical_curvature : Canonical curvature := by
  refine canonical_product fun a ha => ?_
  simp only [List.mem_cons, List.not_mem_nil, or_false] at ha
  rcases ha with rfl | rfl
  · refine canonical_sum fun a ha => ?_
    simp only [List.mem_cons, List.not_mem_nil, or_false] at ha
    rcases ha with rfl | rfl | rfl
    · exact canonical_along _
    · exact canonical_along _
    · exact canonical_product (by simp [int, Canonical.num, canonical_along])
  · exact canonical_power (.sym _) (.num _)

theorem displace_acts_curvature : Canonical curvature ∧ Canonical (along 0) ∧
    (curvature.displace (fun _ => -2)).displace (fun _ => 2) = curvature ∧
      (curvature.displace fun _ => -2).cmp ((along 0).displace fun _ => -2) =
        curvature.cmp (along 0) ∧
      ((curvature.displace fun _ => -2).accesses =
        curvature.accesses.map fun x => ⟨x.field, x.indices.map fun
          | .const c => .const c
          | .affine d o => .affine d (o + -2)⟩) ∧
      (curvature.displace fun _ => -2).cost true = curvature.cost true := by
  obtain ⟨-, -, hundo, -, hcmp, -, haccesses, hcost⟩ :=
    displace_acts canonical_curvature (canonical_along 0) (fun _ => -2) (fun _ => 2)
  exact ⟨canonical_curvature, canonical_along 0, hundo, hcmp, haccesses, hcost true⟩

end Stencil.Expr
