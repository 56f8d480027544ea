import Mathlib.Algebra.Group.Pi.Basic
import Mathlib.Data.Set.Basic
import Stencil.Expr.Rewriting
import Stencil.Proofs.Expr.Evaluation
import Stencil.Proofs.Expr.Hereditary
import Stencil.Proofs.Expr.Shape

namespace Stencil

namespace Index

theorem displace_displace (s t : Shift) (i : Index) :
    (i.displace s).displace t = i.displace (s + t) := by
  cases i with
  | const c => rfl
  | affine d o => exact congrArg (affine d) (add_assoc o (s d) (t d))

theorem displace_congr {s t : Shift} {i : Index} (h : ∀ d, i.dim? = some d → s d = t d) :
    i.displace s = i.displace t := by
  cases i with
  | const c => rfl
  | affine d o => rw [displace, displace, h d rfl]

theorem cmp_displace (s : Shift) (i j : Index) : (i.displace s).cmp (j.displace s) = i.cmp j := by
  cases i with
  | const c => cases j <;> rfl
  | affine d o =>
    cases j with
    | const c => rfl
    | affine d' o' =>
      simp only [displace, Index.cmp]
      cases hd : d.cmp d' with
      | eq =>
        obtain rfl := Std.LawfulEqCmp.eq_of_compare hd
        simp only [Ordering.then, compare, compareOfLessAndEq, Int.add_lt_add_iff_right, Int.add_left_inj]
      | _ => rfl

theorem affine_mem_displace {s : Shift} {d : Dimension} {o : Int} {is : List Index} :
    affine d o ∈ is.map (displace s) ↔ ∃ o', affine d o' ∈ is ∧ o = o' + s d := by
  rw [List.mem_map]
  constructor
  · rintro ⟨i, hi, heq⟩
    cases i with
    | const c => simp [displace] at heq
    | affine d' o' =>
      obtain ⟨rfl, rfl⟩ := affine.inj heq
      exact ⟨o', hi, rfl⟩
  · rintro ⟨o', ho, rfl⟩
    exact ⟨affine d o', ho, rfl⟩

end Index

namespace Access

theorem displace_displace (s t : Shift) (x : Access) :
    (x.displace s).displace t = x.displace (s + t) := by
  simp only [displace, List.map_map, Function.comp_def, Index.displace_displace]

theorem displace_congr {s t : Shift} {x : Access} (h : ∀ d ∈ x.dimensions, s d = t d) :
    x.displace s = x.displace t := by
  rw [displace, displace, List.map_congr_left fun i hi => Index.displace_congr fun d hd =>
    h d (List.mem_filterMap.2 ⟨i, hi, hd⟩)]

theorem displace_zero (x : Access) : x.displace (fun _ => 0) = x := by
  have hindex : Index.displace (fun _ => 0) = id := by
    funext i
    cases i with
    | const c => rfl
    | affine d o => exact congrArg (Index.affine d) (add_zero o)
  rw [displace, hindex, List.map_id]

theorem cmp_displace (s : Shift) (x y : Access) : (x.displace s).cmp (y.displace s) = x.cmp y := by
  rw [Access.cmp, displace, displace, lexCmp_map fun i _ => Index.cmp_displace s i]
  rfl

theorem dimensions_displace (s : Shift) (x : Access) : (x.displace s).dimensions = x.dimensions := by
  rw [dimensions, displace, List.filterMap_map, dimensions]
  refine List.filterMap_congr fun i _ => ?_
  cases i <;> rfl

end Access

namespace Expr

variable {α : Type} [Arithmetic α]

theorem displace_access (s : Shift) (x : Access) :
    (access x : Expr α).displace s = access (x.displace s) := rfl

theorem displace_node {e : Expr α} (s : Shift) (hargs : ¬ e.args.isEmpty = true) :
    e.displace s = rebuild e (e.args.map (displace s)) := by
  rw [displace, fold_eq]
  cases e <;> simp_all [args]

@[elab_as_elim]
theorem inductDisplace {P : Expr α → Prop} (access : ∀ x, P (access x))
    (fixed : ∀ e, e.args = [] → (∀ s, e.displace s = e) → P e)
    (node : ∀ e, ¬ e.args.isEmpty = true → (∀ a ∈ e.args, P a) → P e) (e : Expr α) : P e := by
  induction e using inductArgs with
  | node e ih =>
    by_cases hargs : e.args.isEmpty = true
    · cases e with
      | access x => exact access x
      | _ =>
        refine fixed _ (List.isEmpty_iff.1 hargs) fun s => ?_
        rw [displace, fold_eq]
        simp_all [args]
    · exact node e hargs ih

omit [Arithmetic α] in
theorem mem_accesses {x : Access} {e : Expr α} : x ∈ e.accesses ↔ access x ∈ e.inputs := by
  rw [accesses, List.mem_filterMap, mem_inputs]
  constructor
  · rintro ⟨t, ht, htx⟩
    cases t <;> simp only [access?, Option.some.injEq, reduceCtorEq] at htx
    exact ⟨htx ▸ ht, rfl⟩
  · exact fun h => ⟨access x, h.1, rfl⟩

omit [Arithmetic α] in
theorem mem_symbols {n : String} {e : Expr α} : n ∈ e.symbols ↔ sym n ∈ e.inputs := by
  rw [symbols, List.mem_filterMap, mem_inputs]
  constructor
  · rintro ⟨t, ht, htn⟩
    cases t <;> simp only [symbol?, Option.some.injEq, reduceCtorEq] at htn
    exact ⟨htn ▸ ht, rfl⟩
  · exact fun h => ⟨sym n, h.1, rfl⟩

omit [Arithmetic α] in
theorem mem_dimensions {d : Dimension} {e : Expr α} :
    d ∈ e.dimensions ↔ ∃ x, access x ∈ e.inputs ∧ d ∈ x.dimensions := by
  simp only [dimensions, List.mem_flatMap, mem_accesses]

theorem displace_congr {s t : Shift} {e : Expr α} (h : ∀ d ∈ e.dimensions, s d = t d) :
    e.displace s = e.displace t := by
  induction e using inductDisplace with
  | access x =>
    refine congrArg access (Access.displace_congr fun d hd => h d (mem_dimensions.2 ⟨x, ?_, hd⟩))
    simp [inputs_of_isInput, isInput, isAccess]
  | fixed e _ he => rw [he, he]
  | node e hargs ih =>
    rw [displace_node s hargs, displace_node t hargs,
      List.map_congr_left fun a ha => ih a ha fun d hd => ?_]
    obtain ⟨x, hx, hd⟩ := mem_dimensions.1 hd
    exact h d (mem_dimensions.2 ⟨x, mem_inputs_args ⟨a, ha, hx⟩, hd⟩)

theorem exists_of_mem_inputs_displace {s : Shift} {e i : Expr α} (h : i ∈ (e.displace s).inputs) :
    ∃ j ∈ e.inputs, i = j.displace s := by
  induction e using inductDisplace with
  | access x =>
    rw [displace_access, inputs_of_isInput rfl, List.mem_singleton] at h
    exact ⟨access x, by simp [inputs_of_isInput, isInput, isAccess], h⟩
  | fixed e hnil he =>
    rw [he] at h
    obtain ⟨hsub, -⟩ := mem_inputs.1 h
    rcases mem_subterms.1 hsub with rfl | ⟨a, ha, -⟩
    · exact ⟨i, h, (he s).symm⟩
    · exact absurd (hnil ▸ ha) List.not_mem_nil
  | node e hargs ih =>
    rw [displace_node s hargs] at h
    obtain ⟨a, ha, hi⟩ := mem_inputs_rebuild (isLeaf_of_args hargs) (List.length_map _) h
    obtain ⟨b, hb, rfl⟩ := List.mem_map.1 ha
    obtain ⟨j, hj, rfl⟩ := ih b hb hi
    exact ⟨j, mem_inputs_args ⟨b, hb, hj⟩, rfl⟩

theorem exists_of_access_mem_displace {s : Shift} {e : Expr α} {x : Access}
    (h : access x ∈ (e.displace s).inputs) : ∃ y, access y ∈ e.inputs ∧ x = y.displace s := by
  obtain ⟨j, hj, heq⟩ := exists_of_mem_inputs_displace h
  have hin := (mem_inputs.1 hj).2
  cases j with
  | sym m => exact absurd heq (by simp [displace, fold])
  | access y => exact ⟨y, hj, access.inj heq⟩
  | _ => simp [isInput, isSymbol, isAccess] at hin

theorem Hereditary.displace {P : Expr α → Prop} (hP : Hereditary P)
    (haccess : ∀ x, P (access x)) {s : Shift} {e : Expr α} (he : P e) : P (e.displace s) := by
  induction e using inductDisplace with
  | access x => exact haccess _
  | fixed e _ hfixed => exact (hfixed s).symm ▸ he
  | node e hargs ih =>
    rw [displace_node s hargs]
    refine hP.rebuild he (List.length_map _) fun a ha => ?_
    obtain ⟨b, hb, rfl⟩ := List.mem_map.1 ha
    exact ih b hb (hP.args he b hb)

theorem unary_displace {e : Expr α} (hu : Unary e) (s : Shift) : Unary (e.displace s) :=
  ((hereditary_within Set.univ).displace
    (fun _ => within_of_isInput rfl (Set.mem_univ _)) ⟨hu, fun _ _ => Set.mem_univ _⟩).unary

section displaceRaw

variable {s : Shift}

omit [Arithmetic α] in
def displaceRaw (s : Shift) : Expr α → Expr α :=
  fold fun e args =>
    match e with
    | access a => access (a.displace s)
    | e => rebuildRaw e args

omit [Arithmetic α] in
@[simp] theorem displaceRaw_num (v : α) : (num v).displaceRaw s = num v := rfl

omit [Arithmetic α] in
@[simp] theorem displaceRaw_sym (n : String) : (sym n : Expr α).displaceRaw s = sym n := rfl

omit [Arithmetic α] in
@[simp] theorem displaceRaw_access (x : Access) :
    (access x : Expr α).displaceRaw s = access (x.displace s) := rfl

omit [Arithmetic α] in
@[simp] theorem displaceRaw_add (es : List (Expr α)) :
    (add es).displaceRaw s = add (es.map (displaceRaw s)) := fold_eq _ _

omit [Arithmetic α] in
@[simp] theorem displaceRaw_mul (es : List (Expr α)) :
    (mul es).displaceRaw s = mul (es.map (displaceRaw s)) := fold_eq _ _

omit [Arithmetic α] in
@[simp] theorem displaceRaw_pow (b x : Expr α) :
    (pow b x).displaceRaw s = pow (b.displaceRaw s) (x.displaceRaw s) := rfl

omit [Arithmetic α] in
@[simp] theorem displaceRaw_call (f : Intrinsic) (es : List (Expr α)) :
    (call f es).displaceRaw s = call f (es.map (displaceRaw s)) := fold_eq _ _

omit [Arithmetic α] in
@[simp] theorem rank_displaceRaw (s : Shift) (e : Expr α) : (e.displaceRaw s).rank = e.rank := by
  cases e <;> simp [rank]

omit [Arithmetic α] in
@[simp] theorem args_displaceRaw (s : Shift) (e : Expr α) :
    (e.displaceRaw s).args = e.args.map (displaceRaw s) := by
  cases e <;> simp [args]

omit [Arithmetic α] in
theorem isInput_displaceRaw (s : Shift) (e : Expr α) : (e.displaceRaw s).isInput = e.isInput := by
  cases e <;> simp [isInput, isSymbol, isAccess]

omit [Arithmetic α] in
theorem displaceRaw_displaceRaw (s t : Shift) (e : Expr α) :
    (e.displaceRaw s).displaceRaw t = e.displaceRaw (s + t) := by
  induction e using induct with
  | access x => simp [Access.displace_displace]
  | add es ih => simpa using ih
  | mul es ih => simpa using ih
  | pow b x hb hx => simp [hb, hx]
  | call f es ih => simpa using ih
  | _ => simp

omit [Arithmetic α] in
theorem displaceRaw_zero (e : Expr α) : e.displaceRaw (fun _ => 0) = e := by
  induction e using induct with
  | access x => simp [Access.displace_zero]
  | add es ih => simp [List.map_congr_left ih]
  | mul es ih => simp [List.map_congr_left ih]
  | pow b x hb hx => simp [hb, hx]
  | call f es ih => simp [List.map_congr_left ih]
  | _ => simp

omit [Arithmetic α] in
theorem subterms_displaceRaw (s : Shift) (e : Expr α) :
    (e.displaceRaw s).subterms = e.subterms.map (displaceRaw s) := by
  induction e using inductArgs with
  | node e ih =>
    rw [subterms_eq, subterms_eq e, args_displaceRaw, List.flatMap_map, List.map_cons,
      List.map_flatMap]
    exact congrArg _ (List.flatMap_congr ih)

omit [Arithmetic α] in
theorem accesses_displaceRaw (s : Shift) (e : Expr α) :
    (e.displaceRaw s).accesses = e.accesses.map (·.displace s) := by
  have haccess : ∀ t : Expr α, (t.displaceRaw s).access? = t.access?.map (·.displace s) := by
    intro t
    cases t <;> simp [access?]
  rw [accesses, subterms_displaceRaw, List.filterMap_map, accesses, List.map_filterMap]
  exact List.filterMap_congr fun t _ => haccess t

omit [Arithmetic α] in
theorem keeps_displaceRaw (s : Shift) (e : Expr α) : Keeps e (e.displaceRaw s) := by
  cases e with
  | num v => exact .inl rfl
  | _ => exact .inr ⟨rfl, .inr (rank_displaceRaw s _)⟩

theorem cmp_displaceRaw (s : Shift) (a b : Expr α) :
    (a.displaceRaw s).cmp (b.displaceRaw s) = a.cmp b := by
  have hother : ∀ {a b : Expr α}, a.rank ≠ b.rank →
      (a.displaceRaw s).cmp (b.displaceRaw s) = a.cmp b := fun hr => by
    rw [cmp_of_rank_ne hr, cmp_of_rank_ne (by simpa using hr), rank_displaceRaw, rank_displaceRaw]
  induction a using induct generalizing b with
  | access x =>
    cases b with
    | access y => exact Access.cmp_displace s x y
    | _ => rfl
  | add as ih =>
    cases b with
    | add bs => simp only [displaceRaw_add, cmp_add, lexCmp_map ih]
    | _ => exact hother (by simp [rank])
  | mul as ih =>
    cases b with
    | mul bs => simp only [displaceRaw_mul, cmp_mul, lexCmp_map ih]
    | _ => exact hother (by simp [rank])
  | pow x y hx hy =>
    cases b with
    | pow x' y' => simp only [displaceRaw_pow, cmp_pow, hx, hy]
    | _ => exact hother (by simp [rank])
  | call f as ih =>
    cases b with
    | call g bs => simp only [displaceRaw_call, cmp_call, lexCmp_map ih]
    | _ => exact hother (by simp [rank])
  | _ => cases b <;> rfl

end displaceRaw

section LawfulArithmetic

variable [LawfulArithmetic α] {s : Shift} {a b e : Expr α}

theorem displace_eq_displaceRaw (hc : Canonical e) (s : Shift) : e.displace s = e.displaceRaw s := by
  induction e using inductDisplace with
  | access x => rfl
  | fixed e hnil he =>
    rw [he]
    cases e with
    | access x => exact (he s).symm
    | num | sym => rfl
    | pow b x => simp [args] at hnil
    | add es | mul es | call f es =>
      obtain rfl : es = [] := hnil
      rfl
  | node e hargs ih =>
    obtain ⟨hfits, hflat⟩ := fits_of_keeps hc fun a _ => keeps_displaceRaw s a
    rw [displace_node s hargs, List.map_congr_left fun a ha => ih a ha (hc.args a ha),
      rebuild_of_sorted hfits hflat fun hac => ?_]
    · cases e <;> simp_all [args, rebuildRaw]
    · refine List.pairwise_map.2 ((hc.pairwise_args hac).imp fun hab => ?_)
      rwa [le, cmp_displaceRaw]

theorem canonical_displace (hc : Canonical e) (s : Shift) : Canonical (e.displace s) :=
  hereditary_canonical.displace (fun x => .access x) hc

theorem displace_displace (hc : Canonical e) (s t : Shift) :
    (e.displace s).displace t = e.displace (s + t) := by
  rw [displace_eq_displaceRaw (canonical_displace hc s), displace_eq_displaceRaw hc,
    displaceRaw_displaceRaw, displace_eq_displaceRaw hc]

theorem displace_zero (hc : Canonical e) : e.displace (fun _ => 0) = e := by
  rw [displace_eq_displaceRaw hc, displaceRaw_zero]

theorem cmp_displace (ha : Canonical a) (hb : Canonical b) (s : Shift) :
    (a.displace s).cmp (b.displace s) = a.cmp b := by
  rw [displace_eq_displaceRaw ha, displace_eq_displaceRaw hb, cmp_displaceRaw]

theorem displace_beq (ha : Canonical a) (hb : Canonical b) (s : Shift) :
    (a.displace s == b.displace s) = (a == b) := by
  rw [Bool.eq_iff_iff, ← cmp_eq_iff, ← cmp_eq_iff, cmp_displace ha hb]

theorem subterms_displace (hc : Canonical e) (s : Shift) :
    (e.displace s).subterms = e.subterms.map (displace s) := by
  rw [displace_eq_displaceRaw hc, subterms_displaceRaw]
  exact List.map_congr_left fun v hv => (displace_eq_displaceRaw (hc.subterms v hv) s).symm

theorem isInput_displace (hc : Canonical e) : (e.displace s).isInput = e.isInput := by
  rw [displace_eq_displaceRaw hc, isInput_displaceRaw]

theorem mem_inputs_displace (hc : Canonical e) {i : Expr α} :
    i ∈ (e.displace s).inputs ↔ ∃ j ∈ e.inputs, i = j.displace s := by
  rw [mem_inputs, subterms_displace hc, List.mem_map]
  constructor
  · rintro ⟨⟨j, hj, rfl⟩, hi⟩
    rw [isInput_displace (hc.subterms j hj)] at hi
    exact ⟨j, mem_inputs.2 ⟨hj, hi⟩, rfl⟩
  · rintro ⟨j, hj, rfl⟩
    obtain ⟨hj, hi⟩ := mem_inputs.1 hj
    exact ⟨⟨j, hj, rfl⟩, (isInput_displace (hc.subterms j hj)).trans hi⟩

theorem sym_mem_displace (hc : Canonical e) {n : String} :
    sym n ∈ (e.displace s).inputs ↔ sym n ∈ e.inputs := by
  rw [mem_inputs_displace hc]
  constructor
  · rintro ⟨j, hj, heq⟩
    have hin := (mem_inputs.1 hj).2
    cases j with
    | sym m => exact heq ▸ hj
    | access x => simp [displace_access] at heq
    | _ => simp [isInput, isSymbol, isAccess] at hin
  · exact fun h => ⟨sym n, h, rfl⟩

theorem access_mem_displace (hc : Canonical e) {x : Access} :
    access x ∈ (e.displace s).inputs ↔ ∃ y, access y ∈ e.inputs ∧ x = y.displace s := by
  refine ⟨exists_of_access_mem_displace, ?_⟩
  rintro ⟨y, hy, rfl⟩
  exact (mem_inputs_displace hc).2 ⟨access y, hy, rfl⟩

end LawfulArithmetic

section Exact

variable [AlgebraicField α] [Exact α] {s : Shift} {e : Expr α}

theorem denote_displace (ρ : Expr α → α) (s : Shift) (e : Expr α) :
    denote ρ (e.displace s) = denote (fun i => ρ (i.displace s)) e := by
  induction e using inductDisplace with
  | access x => rfl
  | fixed e hnil he =>
    rw [he, denote_eq, denote_eq, he, hnil]
    rfl
  | node e hargs ih =>
    have hleaf := isLeaf_of_args hargs
    rw [displace_node s hargs, denote_rebuild ρ hleaf (List.length_map _),
      denote_of_not_isInput (isInput_of_isLeaf hleaf), List.map_map]
    exact congrArg _ (List.map_congr_left ih)

theorem eval_displace {env env' : Env α} {v : α} (hc : Canonical e) (hu : Unary e)
    (henv : ∀ i ∈ e.inputs, (i.displace s).eval env = i.eval env')
    (h : (e.displace s).eval env = .ok v) : e.eval env' = .ok v := by
  let ρ : Expr α → α := fun i => (i.eval env).toOption.getD 0
  have hvalue : ∀ i ∈ (e.displace s).inputs, i.eval env = .ok (ρ i) := fun i hi => by
    obtain ⟨w, hw⟩ := eval_inputs (unary_displace hu s) h i hi
    simp [ρ, hw, Except.toOption]
  have hmoved := h.symm.trans (eval_eq_denote (unary_displace hu s) hvalue)
  rw [denote_displace, Except.ok.injEq] at hmoved
  rw [hmoved]
  refine eval_eq_denote hu fun i hi => (henv i hi).symm.trans (hvalue _ ?_)
  exact (mem_inputs_displace hc).2 ⟨i, hi, rfl⟩

end Exact

end Expr

end Stencil
