import Stencil.Proofs.Expr.Renaming

namespace Stencil.Expr

variable {α : Type} [Arithmetic α] [LawfulArithmetic α] {fresh : Nat → String}
  {keys : List (Expr α)} {s : Substitution α} {e : Expr α} (hs : Renames fresh keys s)

include hs

theorem Renames.cost_rebuild {weighted : Bool} (hc : Canonical e) :
    cost weighted (rebuild e (e.args.map (replace s))) =
      rootCost weighted e + (e.args.map fun a => cost weighted (replace s a)).sum := by
  rw [cost_eq, rootCost_of_keeps hc fun a ha => hs.keeps (hc.args a ha),
    ((hs.fits hc).2.perm.map _).sum_eq, List.map_map]
  rfl

theorem Renames.cost_replace_le {weighted : Bool} (hc : Canonical e) :
    cost weighted (replace s e) ≤ cost weighted e := by
  induction e using inductArgs with
  | node e ih =>
    refine hs.cases hc (fun n k _ _ hrep => ?_) (fun _ _ hrep => ?_) fun _ _ _ _ hrep => ?_
    · rw [hrep]
      exact Nat.zero_le _
    · rw [hrep]
    · rw [hrep, hs.cost_rebuild hc, cost_eq e]
      exact Nat.add_le_add_left (List.sum_le_sum fun a ha => ih a ha (hc.args a ha)) _

omit hs in
theorem count_inputs_of_not_mem {t : String} (h : sym t ∉ e.inputs) :
    e.inputs.count (sym t) = 0 :=
  List.countP_eq_zero.2 fun _ hi heq => h (sym_beq.1 (BEq.symm heq) ▸ hi)

theorem Renames.count_inputs_rebuild {t : String} (hc : Canonical e) (hleaf : e.isLeaf = false) :
    (rebuild e (e.args.map (replace s))).inputs.count (sym t) =
      (e.args.map fun a => (replace s a).inputs.count (sym t)).sum := by
  obtain ⟨hfits, hperm⟩ := hs.fits hc
  have hinput := (isInput_of_rank (rank_rebuild hfits)).trans (isInput_of_isLeaf hleaf)
  rw [inputs_eq_flatMap hinput, List.count_flatMap, (hperm.perm.map _).sum_eq, List.map_map]
  rfl

section Least

variable {most n : Nat} {k : Expr α} {weight : String → Nat} (hf : Function.Injective fresh)
  (hpos : 0 < most) (hcost : ∀ k ∈ keys, cost true k = most) (hn : keys[n]? = some k)
  (hleast : ∀ k' ∈ keys, size weight k ≤ size weight k')

include hcost hleast

theorem Renames.cost_of_isSome {x : Expr α} (hx : (s.get? x).isSome = true) :
    cost true x = most ∧ size weight k ≤ size weight x := by
  obtain ⟨t, ht⟩ := Option.isSome_iff_exists.1 hx
  obtain ⟨m, k', hm, heq, -⟩ := (hs.get x t).1 ht
  have hmem := List.mem_of_getElem? hm
  exact ⟨(cost_congr heq).symm.trans (hcost k' hmem), size_congr_beq heq ▸ hleast k' hmem⟩

include hf hpos hn

theorem Renames.length_hits_le {m : Nat} (hc : Canonical e)
    (hget : s.get? e = some (sym (fresh m))) :
    (e.inner.filter fun x => (s.get? x).isSome).length + (if m = n then 1 else 0) ≤ 1 := by
  obtain ⟨m', k', hm, heq, hname⟩ := (hs.get e _).1 hget
  obtain rfl := hf (sym.inj hname)
  split
  · -- The smallest operation has none inside of it.
    rename_i hmn
    obtain rfl : k' = k := Option.some.inj (hm.symm.trans (hmn ▸ hn))
    refine (congrArg (· + 1) (List.length_eq_zero_iff.2 (List.filter_eq_nil_iff.2 ?_))).le
    intro x hx hhit
    have hlt := size_inner_lt weight hx
    rw [← size_congr_beq heq] at hlt
    exact absurd (hs.cost_of_isSome hcost hleast hhit).2 (not_le.2 hlt)
  · -- Of operations that cost the same, one at most is inside of another one.
    have hmost := (hs.cost_of_isSome hcost hleast (Option.isSome_of_eq_some hget)).1
    exact (hc.tight.inner_filter (hmost ▸ hpos) fun x _ hx =>
      (hs.cost_of_isSome hcost hleast hx).1.trans hmost.symm).2

theorem Renames.two_mul_cost_replace_le (hc : Canonical e) (hnew : sym (fresh n) ∉ e.inputs) :
    2 * cost true (replace s e) + most * (replace s e).inputs.count (sym (fresh n)) +
        ((e.subterms.filter fun x => (s.get? x).isSome).map fun _ => most).sum ≤
      2 * cost true e := by
  have hargs : ∀ e : Expr α, Canonical e ∧ sym (fresh n) ∉ e.inputs → ∀ a ∈ e.args,
      Canonical a ∧ sym (fresh n) ∉ a.inputs := fun e h a ha =>
    ⟨h.1.args a ha, fun hi => h.2 (mem_inputs_args ⟨a, ha, hi⟩)⟩
  refine replace_add_hits_le (fun e => 2 * cost true e)
    (fun e => 2 * cost true e + most * e.inputs.count (sym (fresh n)))
    (fun e => 2 * rootCost true e) (fun _ => most) hargs (fun e => ?_)
    (fun e v he hget => ?_) (fun e he hargs => ?_) (fun e he hleaf => ?_) ⟨hc, hnew⟩
  · rw [cost_eq, List.sum_map_mul_left, Nat.mul_add]
  · -- What is hit counts half of its cost, so that it makes up for another one inside of it.
    obtain ⟨m, -, -, -, rfl⟩ := (hs.get e v).1 hget
    have hmost := (hs.cost_of_isSome hcost hleast (Option.isSome_of_eq_some hget)).1
    have hcount : (sym (fresh m) : Expr α).inputs.count (sym (fresh n)) =
        if m = n then 1 else 0 := by
      rw [inputs_of_isInput rfl, List.count_singleton]
      refine if_congr ?_ rfl rfl
      rw [sym_beq, sym.injEq, hf.eq_iff, eq_comm]
    have hhits := Nat.mul_le_mul_left most (hs.length_hits_le hf hpos hcost hn hleast he.1 hget)
    rw [Nat.mul_add, Nat.mul_comm most (List.length _)] at hhits
    rw [subterms_eq_inner, List.filter_cons_of_pos (by simp [hget]), List.map_cons, List.sum_cons,
      List.map_const', List.sum_replicate_nat, hcount, hmost, cost]
    omega
  · rw [count_inputs_of_not_mem he.2, cost_eq, hargs]
    exact le_rfl
  · rw [hs.cost_rebuild he.1, hs.count_inputs_rebuild he.1 hleaf, Nat.mul_add,
      ← List.sum_map_mul_left, ← List.sum_map_mul_left, Nat.add_assoc, ← List.sum_map_add]

end Least

omit hs [LawfulArithmetic α] in
def Unnegated (e : Expr α) : Prop := ∀ v x, mul [num v, x] ∈ e.subterms →
  Arithmetic.isMinusOne v = true → x.isOperation = false

omit hs [LawfulArithmetic α] in
theorem Unnegated.subterms {k : Expr α} (h : Unnegated e) (hk : k ∈ e.subterms) : Unnegated k :=
  fun v x hx => h v x (mem_subterms_trans hk hx)

theorem Renames.unnegated (hc : Canonical e) (h : Unnegated e) : Unnegated (replace s e) := by
  intro v x hmem hv
  obtain ⟨y, hy, heq⟩ := List.mem_map.1 ((hs.subterms_replace hc).subset hmem)
  have hcy := hc.subterms y hy
  refine hs.cases hcy (fun n k _ _ hrep => ?_) (fun _ hargs hrep => ?_) fun _ _ hperm hrank _ => ?_
  · exact absurd (hrep.symm.trans heq) (by simp)
  · rw [hrep.symm.trans heq, args] at hargs
    exact absurd hargs (by simp)
  · rw [heq] at hperm hrank
    obtain ⟨es, rfl⟩ : ∃ es, y = mul es := by cases y <;> simp_all [rank]
    have hkeeps : ∀ a ∈ es, Keeps a (replace s a) := fun a ha => hs.keeps (hcy.args a ha)
    obtain ⟨a, b, rfl⟩ := List.length_eq_two.1
      ((List.length_map _).symm.trans hperm.length_eq.symm)
    have hz : ∃ z, [a, b].Perm [num v, z] ∧ replace s z = x := by
      rcases List.perm_pair.1 hperm.symm with hab | hab
      · obtain ⟨ha, hb⟩ : replace s a = num v ∧ replace s b = x := by simpa [args] using hab
        exact ⟨b, by rw [(hkeeps a (by simp)).eq_num.1 ha], hb⟩
      · obtain ⟨ha, hb⟩ : replace s a = x ∧ replace s b = num v := by simpa [args] using hab
        exact ⟨a, by rw [(hkeeps b (by simp)).eq_num.1 hb]; exact .swap _ _ _, ha⟩
    obtain ⟨z, hpair, rfl⟩ := hz
    have hop := h v z (eq_pair_of_canonical hcy hpair ▸ hy) hv
    exact (hs.keeps (hcy.args z (hpair.symm.subset (by simp)))).isOperation hop

end Stencil.Expr
