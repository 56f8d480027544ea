import Stencil.Proofs.Expr.Regrouping
import Stencil.Proofs.Rational

namespace Stencil.Expr

variable {α : Type} [Arithmetic α] [AlgebraicField α] [Exact α] {o : Operator}

section Normalize

omit [AlgebraicField α] [Exact α]

def normalize : Expr α → Expr α := fold rebuild

theorem normalize_eq (e : Expr α) : e.normalize = rebuild e (e.args.map normalize) := fold_eq _ e

theorem normalize_node (as : List (Expr α)) :
    normalize (o.node as) = o.build (as.map normalize) := by
  have hargs : (o.node as).args = as := by cases o <;> rfl
  rw [normalize_eq, o.rebuild_node, hargs]

theorem normalize_pow (b x : Expr α) : (pow b x).normalize = power b.normalize x.normalize :=
  normalize_eq (pow b x)

theorem canonical_normalize [LawfulLiterals α] (e : Expr α) : Canonical e.normalize := by
  induction e using induct with
  | num v => exact .num v
  | sym s => exact .sym s
  | access x => exact .access x
  | add es ih =>
    rw [normalize_eq]
    exact canonical_sum (List.forall_mem_map.2 ih)
  | mul es ih =>
    rw [normalize_eq]
    exact canonical_product (List.forall_mem_map.2 ih)
  | pow b x hb hx =>
    rw [normalize_pow]
    exact canonical_power hb hx
  | call f es ih =>
    rw [normalize_eq]
    exact .call (List.forall_mem_map.2 ih)

theorem normalize_of_canonical [LawfulArithmetic α] {e : Expr α} (h : Canonical e) :
    e.normalize = e := by
  induction e using inductArgs with
  | node e ih =>
    have hargs : e.args.map normalize = e.args :=
      (List.map_congr_left fun a ha => ih a ha (h.args a ha)).trans (List.map_id _)
    rw [normalize_eq, hargs, rebuild_self h]

end Normalize

/-- Trees that differ in how operands are ordered and grouped and in what literals are folded,
anywhere in them. -/
inductive Alike : Expr α → Expr α → Prop
  | refl (a : Expr α) : Alike a a
  | symm {a b : Expr α} : Alike a b → Alike b a
  | trans {a b c : Expr α} : Alike a b → Alike b c → Alike a c
  | operand (e : Expr α) (as bs : List (Expr α)) {a b : Expr α} : Alike a b →
      Alike (rebuildRaw e (as ++ a :: bs)) (rebuildRaw e (as ++ b :: bs))
  | reorder (o : Operator) {as bs : List (Expr α)} : as.Perm bs → Alike (o.node as) (o.node bs)
  | group (o : Operator) (as bs : List (Expr α)) :
      Alike (o.node (o.node as :: bs)) (o.node (as ++ bs))
  | fold (o : Operator) (u v : α) (as : List (Expr α)) :
      Alike (o.node (num u :: num v :: as)) (o.node (num (o.combine u v) :: as))
  | unit (o : Operator) (as : List (Expr α)) : Alike (o.node (num o.unit :: as)) (o.node as)
  | single (o : Operator) (a : Expr α) : Alike (o.node [a]) a
  | mulZero (as : List (Expr α)) : Alike (mul (zero :: as)) zero
  | powOne (b : Expr α) : Alike (pow b one) b
  | powZero (b : Expr α) : Alike (pow b zero) one
  | powFold (u v : α) : Alike (pow (num u) (num v)) (num (Arithmetic.pow u v))

omit [AlgebraicField α] [Exact α] in
theorem normalize_rebuildRaw (e : Expr α) {as bs : List (Expr α)}
    (h : as.map normalize = bs.map normalize) :
    normalize (rebuildRaw e as) = normalize (rebuildRaw e bs) := by
  cases e with
  | num | sym | access => rfl
  | add es =>
    show normalize (add as) = normalize (add bs)
    rw [normalize_eq, normalize_eq (add bs), args, args, h]
    rfl
  | mul es =>
    show normalize (mul as) = normalize (mul bs)
    rw [normalize_eq, normalize_eq (mul bs), args, args, h]
    rfl
  | call f es =>
    show normalize (call f as) = normalize (call f bs)
    rw [normalize_eq, normalize_eq (call f bs), args, args, h]
    rfl
  | pow b x =>
    have hlen : as.length = bs.length := by simpa using congrArg List.length h
    have hother : ∀ es : List (Expr α), es.length ≠ 2 → rebuildRaw (pow b x) es = pow b x := by
      rintro (_ | ⟨_, _ | ⟨_, _ | _⟩⟩) <;> simp [rebuildRaw]
    by_cases htwo : as.length = 2
    · obtain ⟨b₁, x₁, rfl⟩ := List.length_eq_two.1 htwo
      obtain ⟨b₂, x₂, rfl⟩ := List.length_eq_two.1 (hlen ▸ htwo)
      simp only [List.map_cons, List.map_nil, List.cons.injEq, and_true] at h
      exact (normalize_pow b₁ x₁).trans
        ((congrArg₂ power h.1 h.2).trans (normalize_pow b₂ x₂).symm)
    · rw [hother as htwo, hother bs (hlen ▸ htwo)]

omit [AlgebraicField α] [Exact α] in
theorem power_one [LawfulArithmetic α] (b : Expr α) : power b one = b :=
  if_pos LawfulArithmetic.isOne_one

theorem power_zero (b : Expr α) : power b zero = one := by
  have hone : Arithmetic.isOne (Arithmetic.zero : α) = false := by
    rw [Bool.eq_false_iff, ne_eq, Arithmetic.isOne_iff, Arithmetic.zero_eq]
    exact zero_ne_one
  exact (if_neg (by simp [hone])).trans (if_pos LawfulArithmetic.isZero_zero)

theorem power_num (u v : α) : power (num u) (num v) = num (Arithmetic.pow u v) := by
  rw [power]
  split
  · rename_i hv
    rw [pow_one_exact u v hv]
  · split
    · rename_i hv
      rw [pow_zero_exact u v hv, one, Arithmetic.one_eq]
    · rfl

theorem Alike.normalize_eq {a b : Expr α} (h : Alike a b) : a.normalize = b.normalize := by
  induction h with
  | refl => rfl
  | symm _ ih => exact ih.symm
  | trans _ _ ih ih' => exact ih.trans ih'
  | operand e as bs _ ih => exact normalize_rebuildRaw e (by simp [ih])
  | reorder o hp =>
    rw [normalize_node, normalize_node]
    exact build_of_perm (hp.map normalize)
  | group o as bs =>
    rw [normalize_node, normalize_node, List.map_cons, normalize_node, List.map_append]
    refine build_group (fun a ha => ?_) _
    obtain ⟨c, -, rfl⟩ := List.mem_map.1 ha
    exact canonical_normalize c
  | fold o u v as =>
    rw [normalize_node, normalize_node]
    exact build_fold u v _
  | unit o as =>
    rw [normalize_node, normalize_node]
    exact build_unit _
  | single o a =>
    rw [normalize_node]
    exact build_singleton (canonical_normalize a)
  | mulZero as =>
    exact (normalize_node (o := .times) _).trans
      (build_vanishing (vanishes_append vanishes_zero (as.map normalize)))
  | powOne b => exact (normalize_pow b one).trans (power_one _)
  | powZero b => exact (normalize_pow b zero).trans (power_zero _)
  | powFold u v => exact (normalize_pow _ _).trans (power_num u v)

namespace Alike

omit [AlgebraicField α] [Exact α]

theorem operands {as bs : List (Expr α)} (h : List.Forall₂ Alike as bs) (e : Expr α)
    (cs : List (Expr α)) : Alike (rebuildRaw e (cs ++ as)) (rebuildRaw e (cs ++ bs)) := by
  induction h generalizing cs with
  | nil => exact .refl _
  | @cons a b as bs hab _ ih =>
    have hrest := ih (cs ++ [b])
    rw [List.append_assoc, List.append_assoc] at hrest
    exact (Alike.operand e cs as hab).trans hrest

theorem flatten (o : Operator) (as bs : List (Expr α)) :
    Alike (o.node (as ++ bs)) (o.node (as.flatMap o.operands ++ bs)) := by
  induction as generalizing bs with
  | nil => exact .refl _
  | cons a as ih =>
    have hhead : ∀ cs, Alike (o.node (a :: cs)) (o.node (o.operands a ++ cs)) := fun cs => by
      by_cases hnode : o.isNode a = true
      · obtain ⟨es, rfl⟩ := o.exists_of_isNode hnode
        rw [o.operands_node]
        exact .group o es cs
      · rw [o.operands_of_not_node (Bool.eq_false_iff.2 hnode)]
        exact .refl _
    have hin : (o.operands a ++ (as ++ bs)).Perm (as ++ (o.operands a ++ bs)) :=
      List.perm_append_comm_assoc ..
    have hout : (as.flatMap o.operands ++ (o.operands a ++ bs)).Perm
        ((a :: as).flatMap o.operands ++ bs) := by
      rw [List.flatMap_cons, List.append_assoc]
      exact List.perm_append_comm_assoc ..
    exact (hhead _).trans ((reorder o hin).trans ((ih _).trans (reorder o hout)))

theorem foldl (o : Operator) (vs : List α) (c : α) (bs : List (Expr α)) :
    Alike (o.node (num c :: (vs.map num ++ bs)))
      (o.node (num (vs.foldl o.combine c) :: bs)) := by
  induction vs generalizing c with
  | nil => exact .refl _
  | cons v vs ih => exact (Alike.fold o c v (vs.map num ++ bs)).trans (ih _)

theorem total (o : Operator) (as : List (Expr α)) :
    Alike (o.node as) (o.node (num (o.total (literals as)) :: nonLiterals as)) := by
  have hsplit : as.Perm ((literals as).map num ++ nonLiterals as) :=
    (perm_literals as).symm.trans List.perm_append_comm
  exact (reorder o hsplit).trans ((Alike.unit o _).symm.trans (foldl o _ _ _))

end Alike

theorem alike_terms (o : Operator) (as : List (Expr α)) :
    Alike (o.node (num (o.total (literals (as.flatMap o.operands))) ::
      nonLiterals (as.flatMap o.operands))) (o.node (o.terms as)) := by
  rcases o.terms_cases as with ⟨htotal, hterms⟩ | ⟨-, hterms⟩
  · rw [htotal, hterms]
    exact .unit o _
  · rw [hterms]
    exact .reorder o (List.perm_append_singleton _ _).symm

theorem alike_build (o : Operator) (as : List (Expr α)) : Alike (o.node as) (o.build as) := by
  -- splice, fold the literals, drop the neutral one, sort: the constructor's own steps
  have hflat := Alike.flatten o as []
  rw [List.append_nil, List.append_nil] at hflat
  have htotal := hflat.trans (Alike.total o _)
  have hterms := htotal.trans (alike_terms o as)
  rcases o.build_cases as with ⟨⟨rfl, hz⟩, hs⟩ | ⟨-, ⟨hnil, hs⟩ | hone | ⟨-, hs⟩⟩
  · rw [hs]
    rw [((Arithmetic.isZero_iff _).1 hz).trans Arithmetic.zero_eq.symm] at htotal
    exact htotal.trans (.mulZero _)
  · rw [hnil] at hterms
    rw [hs]
    exact hterms.trans ((Alike.unit o []).symm.trans (.single o _))
  · rw [hone] at hterms
    exact hterms.trans (.single o _)
  · rw [hs]
    exact hterms.trans (.reorder o (sort_perm _).symm)

theorem alike_power (b x : Expr α) : Alike (pow b x) (power b x) := by
  unfold power
  split
  · rename_i v
    split
    · rename_i hv
      rw [((Arithmetic.isOne_iff v).1 hv).trans Arithmetic.one_eq.symm]
      exact .powOne b
    · split
      · rename_i hv
        rw [((Arithmetic.isZero_iff v).1 hv).trans Arithmetic.zero_eq.symm]
        exact .powZero b
      · split
        · exact .powFold _ v
        · exact .refl _
  · exact .refl _

theorem alike_normalize (e : Expr α) : Alike e e.normalize := by
  induction e using inductArgs with
  | node e ih =>
    have hself : rebuildRaw e e.args = e := by cases e <;> rfl
    have hargs : List.Forall₂ Alike e.args (e.args.map normalize) :=
      List.forall₂_map_right_iff.2 (List.forall₂_same.2 ih)
    have hoperands := Alike.operands hargs e []
    rw [List.nil_append, List.nil_append, hself] at hoperands
    rw [normalize_eq]
    refine hoperands.trans ?_
    cases e with
    | num | sym | access | call => exact .refl _
    | add es => exact alike_build .plus _
    | mul es => exact alike_build .times _
    | pow b x => exact alike_power _ _

theorem alike_iff {a b : Expr α} : Alike a b ↔ a.normalize = b.normalize :=
  ⟨Alike.normalize_eq, fun h => (alike_normalize a).trans (h ▸ (alike_normalize b).symm)⟩

theorem alike_iff_eq {a b : Expr α} (ha : Canonical a) (hb : Canonical b) : Alike a b ↔ a = b := by
  rw [alike_iff, normalize_of_canonical ha, normalize_of_canonical hb]

theorem build_regrouped {as bs cs ds : List (Expr α)} (h : ∀ a ∈ as, Canonical a)
    (hsplit : as.Perm (bs ++ cs)) (hds : ds.Perm (o.build bs :: cs)) : o.build ds = o.build as := by
  have hbs : ∀ b ∈ bs, Canonical b := fun b hb =>
    h b (hsplit.mem_iff.2 (List.mem_append_left cs hb))
  rw [build_of_perm hds, build_group hbs, build_of_perm hsplit]

theorem canonical_normal_form :
    (∀ as : List (Expr α), (∀ a ∈ as, Canonical a) →
      (Canonical (sum as) ∧ Canonical (product as)) ∧
      (∀ bs, bs.Perm as → sum bs = sum as ∧ product bs = product as) ∧
      ∀ bs cs, as.Perm (bs ++ cs) →
        (∀ ds, ds.Perm (sum bs :: cs) → sum ds = sum as) ∧
        ∀ ds, ds.Perm (product bs :: cs) → product ds = product as) ∧
    (∀ b x : Expr α, Canonical b → Canonical x → Canonical (power b x)) ∧
    (∀ e : Expr α, Canonical e →
      (∀ t ∈ e.subterms, rebuild t t.args = t) ∧ e.normalize = e) ∧
    (∀ e : Expr α, Canonical e.normalize ∧ Alike e e.normalize) ∧
    ∀ a b : Expr α, Canonical a → Canonical b → (Alike a b ↔ a = b) := by
  refine ⟨fun as h => ⟨⟨canonical_sum h, canonical_product h⟩, fun bs hp => ?_,
    fun bs cs hsplit => ⟨fun ds => ?_, fun ds => ?_⟩⟩, fun b x => canonical_power,
    fun e he => ⟨fun t ht => ?_, normalize_of_canonical he⟩,
    fun e => ⟨canonical_normalize e, alike_normalize e⟩, fun a b => alike_iff_eq⟩
  · exact ⟨sum_of_perm hp, product_of_perm hp⟩
  · exact build_regrouped (o := .plus) h hsplit
  · exact build_regrouped (o := .times) h hsplit
  · exact rebuild_self (he.subterms t ht)

/-- `x + (y + 2) + 3` and `x * (y * 0) * 3`. -/
theorem canonical_normal_form_regrouped :
    (sum [sym "x", sum [sym "y", num 2], num 3] : Expr ℚ) =
        sum [sym "y", num 2, sym "x", num 3] ∧
      (sum [sym "y", num 2, sym "x", num 3] : Expr ℚ) = add [num 5, sym "x", sym "y"] ∧
      (product [sym "x", product [sym "y", num 0], num 3] : Expr ℚ) =
        product [sym "y", num 0, sym "x", num 3] ∧
      ¬ Alike (sym "x") (sym "y" : Expr ℚ) := by
  have hsum : ∀ a ∈ [sym "y", num 2, sym "x", num (3 : ℚ)], Canonical a := by
    simp [Canonical.num, Canonical.sym]
  have hproduct : ∀ a ∈ [sym "y", num 0, sym "x", num (3 : ℚ)], Canonical a := by
    simp [Canonical.num, Canonical.sym]
  obtain ⟨hbuild, -, -, -, halike⟩ := canonical_normal_form (α := ℚ)
  refine ⟨((hbuild _ hsum).2.2 [sym "y", num 2] [sym "x", num 3] (.refl _)).1 _ (.swap ..),
    by cbv, ((hbuild _ hproduct).2.2 [sym "y", num 0] [sym "x", num 3] (.refl _)).2 _ (.swap ..),
    ?_⟩
  rw [halike _ _ (.sym _) (.sym _)]
  simp

end Stencil.Expr
