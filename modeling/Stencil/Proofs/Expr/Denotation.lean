import Stencil.Expr.Eval
import Stencil.Proofs.Expr.Canonical

namespace Stencil.Expr

variable {α : Type}

def isInput (e : Expr α) : Bool := e.isSymbol || e.isAccess

def inputs (e : Expr α) : List (Expr α) := e.subterms.filter isInput

def Unary (e : Expr α) : Prop := ∀ f args, call f args ∈ e.subterms → args.length = 1

theorem mem_subterms {t e : Expr α} : t ∈ e.subterms ↔ t = e ∨ ∃ a ∈ e.args, t ∈ a.subterms := by
  rw [subterms_eq, List.mem_cons, List.mem_flatMap]

theorem mem_inputs {i e : Expr α} : i ∈ e.inputs ↔ i ∈ e.subterms ∧ i.isInput = true :=
  List.mem_filter

theorem mem_inputs_args {i e : Expr α} (h : ∃ a ∈ e.args, i ∈ a.inputs) : i ∈ e.inputs := by
  obtain ⟨a, ha, hi⟩ := h
  rw [mem_inputs] at hi ⊢
  exact ⟨mem_subterms.2 (.inr ⟨a, ha, hi.1⟩), hi.2⟩

theorem mem_inputs_iff {i e : Expr α} (he : e.isInput = false) :
    i ∈ e.inputs ↔ ∃ a ∈ e.args, i ∈ a.inputs := by
  constructor
  · intro hi
    rw [mem_inputs, mem_subterms] at hi
    rcases hi with ⟨rfl | ⟨a, ha, hi⟩, hin⟩
    · rw [he] at hin
      exact absurd hin Bool.false_ne_true
    · exact ⟨a, ha, mem_inputs.2 ⟨hi, hin⟩⟩
  · exact mem_inputs_args

theorem subterms_of_leaf {e : Expr α} (h : e.isLeaf = true) : e.subterms = [e] := by
  cases e <;> first | rfl | simp [isLeaf] at h

theorem exists_sym {e : Expr α} (h : e.isSymbol = true) : ∃ s, e = sym s := by
  cases e with
  | sym s => exact ⟨s, rfl⟩
  | _ => simp [isSymbol] at h

theorem isLeaf_of_isNumber {e : Expr α} (h : e.isNumber = true) : e.isLeaf = true := by
  cases e <;> first | rfl | simp [isNumber] at h

theorem isLeaf_of_args {e : Expr α} (h : ¬ e.args.isEmpty = true) : e.isLeaf = false := by
  cases e <;> simp_all [args, isLeaf]

theorem isNumber_of_isLeaf {e : Expr α} (h : e.isLeaf = false) : e.isNumber = false := by
  cases e <;> simp_all [isLeaf, isNumber]

theorem isInput_of_isLeaf {e : Expr α} (h : e.isLeaf = false) : e.isInput = false := by
  cases e <;> simp_all [isInput, isLeaf, isSymbol, isAccess]

theorem inputs_of_isInput {e : Expr α} (h : e.isInput = true) : e.inputs = [e] := by
  cases e <;> first | rfl | simp [isInput, isSymbol, isAccess] at h

theorem inputs_num (v : α) : (num v).inputs = [] := rfl

@[elab_as_elim]
theorem inductArgs {P : Expr α → Prop} (node : ∀ e, (∀ a ∈ e.args, P a) → P e) (e : Expr α) :
    P e := by
  induction e using induct with
  | num v => exact node (num v) (by simp [args])
  | sym s => exact node (sym s) (by simp [args])
  | access x => exact node (access x) (by simp [args])
  | add es ih => exact node (add es) ih
  | mul es ih => exact node (mul es) ih
  | pow b x hb hx => exact node (pow b x) (by simp [args, hb, hx])
  | call f es ih => exact node (call f es) ih

theorem mem_subterms_trans {i j e : Expr α} (hj : j ∈ e.subterms) (hi : i ∈ j.subterms) :
    i ∈ e.subterms := by
  induction e using inductArgs with
  | node e ih =>
    rcases mem_subterms.1 hj with rfl | ⟨a, ha, hj⟩
    · exact hi
    · exact mem_subterms.2 (.inr ⟨a, ha, ih a ha hj⟩)

theorem mem_inputs_trans {i j e : Expr α} (hj : j ∈ e.subterms) (hi : i ∈ j.inputs) :
    i ∈ e.inputs := by
  rw [mem_inputs] at hi ⊢
  exact ⟨mem_subterms_trans hj hi.1, hi.2⟩

theorem Unary.args {e : Expr α} (h : Unary e) : ∀ a ∈ e.args, Unary a := fun a ha f as hc =>
  h f as (mem_subterms.2 (.inr ⟨a, ha, hc⟩))

theorem Unary.call {f : Intrinsic} {args : List (Expr α)} (h : Unary (call f args)) :
    ∃ e, args = [e] := by
  obtain ⟨e, he⟩ := List.length_eq_one_iff.1 (h f args (mem_subterms_self _))
  exact ⟨e, he⟩

theorem unary_of_leaf {e : Expr α} (h : e.isLeaf = true) : Unary e := by
  intro f args hc
  rw [subterms_of_leaf h, List.mem_singleton] at hc
  simp [← hc, isLeaf] at h

section Arithmetic

variable [Arithmetic α]

theorem mem_subterms_sum {t : Expr α} {args : List (Expr α)} (h : t ∈ (sum args).subterms) :
    t.isNumber = true ∨ t.isSum = true ∨ ∃ a ∈ args, t ∈ a.subterms := by
  have hterms : ∀ e ∈ sumTerms args, t ∈ e.subterms →
      t.isNumber = true ∨ t.isSum = true ∨ ∃ a ∈ args, t ∈ a.subterms := by
    intro e he ht
    rcases mem_sumTerms he with hn | hf
    · rw [subterms_of_leaf (isLeaf_of_isNumber hn), List.mem_singleton] at ht
      exact .inl (ht ▸ hn)
    · obtain ⟨a, ha, hea⟩ := List.mem_flatMap.1 hf
      refine .inr (.inr ⟨a, ha, ?_⟩)
      cases a <;> simp only [addends, List.mem_singleton] at hea <;>
        first | exact hea ▸ ht | exact mem_subterms.2 (.inr ⟨e, hea, ht⟩)
  rcases sum_cases args with ⟨hs, -⟩ | hs | ⟨-, hs⟩
  · rw [hs, zero, mem_subterms] at h
    rcases h with rfl | ⟨a, ha, -⟩
    · exact .inl rfl
    · simp [Expr.args] at ha
  · exact hterms _ (hs ▸ List.mem_singleton_self _) h
  · rw [hs, mem_subterms] at h
    rcases h with rfl | ⟨e, he, ht⟩
    · exact .inr (.inl rfl)
    · exact hterms e ((sort_perm _).mem_iff.1 he) ht

theorem mem_subterms_product {t : Expr α} {args : List (Expr α)}
    (h : t ∈ (product args).subterms) :
    t.isNumber = true ∨ t.isProduct = true ∨ ∃ a ∈ args, t ∈ a.subterms := by
  have hterms : ∀ e ∈ productTerms args, t ∈ e.subterms →
      t.isNumber = true ∨ t.isProduct = true ∨ ∃ a ∈ args, t ∈ a.subterms := by
    intro e he ht
    rcases mem_productTerms he with hn | hf
    · rw [subterms_of_leaf (isLeaf_of_isNumber hn), List.mem_singleton] at ht
      exact .inl (ht ▸ hn)
    · obtain ⟨a, ha, hea⟩ := List.mem_flatMap.1 hf
      refine .inr (.inr ⟨a, ha, ?_⟩)
      cases a <;> simp only [factors, List.mem_singleton] at hea <;>
        first | exact hea ▸ ht | exact mem_subterms.2 (.inr ⟨e, hea, ht⟩)
  rcases product_cases args with ⟨-, hs⟩ | ⟨-, hs | ⟨-, hs⟩⟩
  · rw [hs, zero, mem_subterms] at h
    rcases h with rfl | ⟨a, ha, -⟩
    · exact .inl rfl
    · simp [Expr.args] at ha
  · exact hterms _ (hs ▸ List.mem_singleton_self _) h
  · rw [hs, mem_subterms] at h
    rcases h with rfl | ⟨e, he, ht⟩
    · exact .inr (.inl rfl)
    · exact hterms e ((sort_perm _).mem_iff.1 he) ht

theorem mem_subterms_power {t b x : Expr α} (h : t ∈ (power b x).subterms) :
    t.isNumber = true ∨ t = pow b x ∨ t ∈ b.subterms ∨ t ∈ x.subterms := by
  have hpow : t ∈ (pow b x).subterms → t = pow b x ∨ t ∈ b.subterms ∨ t ∈ x.subterms := by
    intro ht
    rcases mem_subterms.1 ht with rfl | ⟨a, ha, hta⟩
    · exact .inl rfl
    · simp only [args, List.mem_cons, List.not_mem_nil, or_false] at ha
      rcases ha with rfl | rfl
      · exact .inr (.inl hta)
      · exact .inr (.inr hta)
  have hnum : ∀ v : α, t ∈ (num v).subterms → t.isNumber = true := by
    intro v ht
    rw [subterms_of_leaf rfl, List.mem_singleton] at ht
    exact ht ▸ rfl
  unfold power at h
  split at h
  · split at h
    · exact .inr (.inr (.inl h))
    · split at h
      · exact .inl (hnum _ h)
      · split at h
        · exact .inl (hnum _ h)
        · exact .inr (hpow h)
  · exact .inr (hpow h)

theorem mem_inputs_sum {i : Expr α} {args : List (Expr α)} (h : i ∈ (sum args).inputs) :
    ∃ a ∈ args, i ∈ a.inputs := by
  obtain ⟨hs, hi⟩ := mem_inputs.1 h
  rcases mem_subterms_sum hs with hn | hn | ⟨a, ha, hs⟩
  · cases i <;> simp_all [isNumber, isInput, isSymbol, isAccess]
  · cases i <;> simp_all [isSum, isInput, isSymbol, isAccess]
  · exact ⟨a, ha, mem_inputs.2 ⟨hs, hi⟩⟩

theorem mem_inputs_product {i : Expr α} {args : List (Expr α)} (h : i ∈ (product args).inputs) :
    ∃ a ∈ args, i ∈ a.inputs := by
  obtain ⟨hs, hi⟩ := mem_inputs.1 h
  rcases mem_subterms_product hs with hn | hn | ⟨a, ha, hs⟩
  · cases i <;> simp_all [isNumber, isInput, isSymbol, isAccess]
  · cases i <;> simp_all [isProduct, isInput, isSymbol, isAccess]
  · exact ⟨a, ha, mem_inputs.2 ⟨hs, hi⟩⟩

theorem mem_inputs_power {i b x : Expr α} (h : i ∈ (power b x).inputs) :
    i ∈ b.inputs ∨ i ∈ x.inputs := by
  obtain ⟨hs, hi⟩ := mem_inputs.1 h
  rcases mem_subterms_power hs with hn | rfl | hs | hs
  · cases i <;> simp_all [isNumber, isInput, isSymbol, isAccess]
  · exact absurd hi Bool.false_ne_true
  · exact .inl (mem_inputs.2 ⟨hs, hi⟩)
  · exact .inr (mem_inputs.2 ⟨hs, hi⟩)

theorem mem_inputs_rebuild {i e : Expr α} {args : List (Expr α)} (he : e.isLeaf = false)
    (hlen : args.length = e.args.length) (h : i ∈ (rebuild e args).inputs) :
    ∃ a ∈ args, i ∈ a.inputs := by
  cases e with
  | num | sym | access => simp [isLeaf] at he
  | add es => exact mem_inputs_sum h
  | mul es => exact mem_inputs_product h
  | pow b x =>
    obtain ⟨b', x', rfl⟩ := List.length_eq_two.1 hlen
    rcases mem_inputs_power h with h | h
    · exact ⟨b', by simp, h⟩
    · exact ⟨x', by simp, h⟩
  | call f es => exact (mem_inputs_iff rfl).1 h

theorem unary_sum {args : List (Expr α)} (h : ∀ a ∈ args, Unary a) : Unary (sum args) := by
  intro f es hc
  rcases mem_subterms_sum hc with hn | hn | ⟨a, ha, hc⟩
  · simp [isNumber] at hn
  · simp [isSum] at hn
  · exact h a ha f es hc

theorem unary_product {args : List (Expr α)} (h : ∀ a ∈ args, Unary a) :
    Unary (product args) := by
  intro f es hc
  rcases mem_subterms_product hc with hn | hn | ⟨a, ha, hc⟩
  · simp [isNumber] at hn
  · simp [isProduct] at hn
  · exact h a ha f es hc

theorem unary_power {b x : Expr α} (hb : Unary b) (hx : Unary x) : Unary (power b x) := by
  intro f es hc
  rcases mem_subterms_power hc with hn | hn | hc | hc
  · simp [isNumber] at hn
  · simp at hn
  · exact hb f es hc
  · exact hx f es hc

theorem unary_rebuild {e : Expr α} {args : List (Expr α)} (he : Unary e)
    (hlen : args.length = e.args.length) (h : ∀ a ∈ args, Unary a) : Unary (rebuild e args) := by
  cases e with
  | num | sym | access => exact he
  | add es => exact unary_sum h
  | mul es => exact unary_product h
  | pow b x =>
    obtain ⟨b', x', rfl⟩ := List.length_eq_two.1 hlen
    exact unary_power (h b' (by simp)) (h x' (by simp))
  | call f es =>
    intro g es' hc
    rcases mem_subterms.1 hc with heq | ⟨a, ha, hc⟩
    · obtain ⟨-, rfl⟩ : g = f ∧ es' = args := by simpa [rebuild] using heq
      rw [hlen]
      exact he f es (mem_subterms_self _)
    · exact h a ha g es' hc

end Arithmetic

variable [AlgebraicField α] [Arithmetic α]

def combine (e : Expr α) (vs : List α) : α :=
  match e, vs with
  | num v, _ => v
  | add _, vs => vs.sum
  | mul _, vs => vs.prod
  | pow _ _, [b, x] => Arithmetic.pow b x
  | call f _, v :: _ => Arithmetic.apply f v
  | call f _, [] => Arithmetic.apply f Arithmetic.zero
  | _, _ => 0

def denote (ρ : Expr α → α) : Expr α → α :=
  fold fun e vs => if e.isInput then ρ e else combine e vs

theorem denote_eq (ρ : Expr α → α) (e : Expr α) :
    denote ρ e = if e.isInput then ρ e else combine e (e.args.map (denote ρ)) := by
  rw [denote, fold_eq]

@[simp]
theorem denote_num (ρ : Expr α → α) (v : α) : denote ρ (num v) = v := rfl

@[simp]
theorem denote_sym (ρ : Expr α → α) (s : String) : denote ρ (sym s) = ρ (sym s) := rfl

@[simp]
theorem denote_access (ρ : Expr α → α) (x : Access) : denote ρ (access x) = ρ (access x) := rfl

@[simp]
theorem denote_add (ρ : Expr α → α) (args : List (Expr α)) :
    denote ρ (add args) = (args.map (denote ρ)).sum := denote_eq ρ (add args)

@[simp]
theorem denote_mul (ρ : Expr α → α) (args : List (Expr α)) :
    denote ρ (mul args) = (args.map (denote ρ)).prod := denote_eq ρ (mul args)

@[simp]
theorem denote_pow (ρ : Expr α → α) (b x : Expr α) :
    denote ρ (pow b x) = Arithmetic.pow (denote ρ b) (denote ρ x) := denote_eq ρ (pow b x)

@[simp]
theorem denote_call (ρ : Expr α → α) (f : Intrinsic) (e : Expr α) :
    denote ρ (call f [e]) = Arithmetic.apply f (denote ρ e) := denote_eq ρ (call f [e])

theorem denote_of_isInput {ρ : Expr α → α} {e : Expr α} (h : e.isInput = true) :
    denote ρ e = ρ e := by
  rw [denote_eq, if_pos h]

theorem denote_of_not_isInput {ρ : Expr α → α} {e : Expr α} (h : e.isInput = false) :
    denote ρ e = combine e (e.args.map (denote ρ)) := by
  rw [denote_eq, h]
  rfl

theorem denote_congr {ρ ρ' : Expr α → α} {e : Expr α} (h : ∀ i ∈ e.inputs, ρ i = ρ' i) :
    denote ρ e = denote ρ' e := by
  have hargs : ∀ e : Expr α, (∀ i ∈ e.inputs, ρ i = ρ' i) → ∀ a ∈ e.args, ∀ i ∈ a.inputs,
      ρ i = ρ' i := fun e h a ha i hi => h i (mem_inputs_args ⟨a, ha, hi⟩)
  induction e using induct with
  | num v => rfl
  | sym s => exact h _ (by simp [inputs_of_isInput, isInput, isSymbol])
  | access x => exact h _ (by simp [inputs_of_isInput, isInput, isAccess])
  | add args ih | mul args ih | call f args ih =>
    rw [denote_of_not_isInput rfl, denote_of_not_isInput rfl]
    exact congrArg _ (List.map_congr_left fun a ha => ih a ha (hargs _ h a ha))
  | pow b x hb hx =>
    rw [denote_pow, denote_pow, hb (hargs _ h b (by simp [args])), hx (hargs _ h x (by simp [args]))]

section Exact

variable [Exact α] (ρ : Expr α → α)

theorem pow_one_exact (a v : α) (hv : Arithmetic.isOne v = true) : Arithmetic.pow a v = a := by
  have h := Exact.pow_eq a 1
  rwa [Int.cast_one, zpow_one, ← (Arithmetic.isOne_iff v).1 hv] at h

theorem pow_zero_exact (a v : α) (hv : Arithmetic.isZero v = true) : Arithmetic.pow a v = 1 := by
  have h := Exact.pow_eq a 0
  rwa [Int.cast_zero, zpow_zero, ← (Arithmetic.isZero_iff v).1 hv] at h

omit [Exact α] in
theorem sum_addends (args : List (Expr α)) :
    ((args.flatMap addends).map (denote ρ)).sum = (args.map (denote ρ)).sum := by
  induction args with
  | nil => rfl
  | cons e es ih =>
    have he : (e.addends.map (denote ρ)).sum = denote ρ e := by
      cases e <;> simp [addends]
    rw [List.flatMap_cons, List.map_append, List.sum_append, ih, he, List.map_cons, List.sum_cons]

omit [Exact α] in
theorem prod_factors (args : List (Expr α)) :
    ((args.flatMap factors).map (denote ρ)).prod = (args.map (denote ρ)).prod := by
  induction args with
  | nil => rfl
  | cons e es ih =>
    have he : (e.factors.map (denote ρ)).prod = denote ρ e := by
      cases e <;> simp [factors]
    rw [List.flatMap_cons, List.map_append, List.prod_append, ih, he, List.map_cons, List.prod_cons]

omit [Exact α] in
theorem map_denote_num (vs : List α) : (vs.map num).map (denote ρ) = vs := by
  simp [Function.comp_def]

omit [Exact α] in
theorem sum_literals (es : List (Expr α)) :
    ((nonLiterals es).map (denote ρ)).sum + (literals es).sum = (es.map (denote ρ)).sum := by
  have h := ((perm_literals es).map (denote ρ)).sum_eq
  rwa [List.map_append, List.sum_append, map_denote_num] at h

omit [Exact α] in
theorem prod_literals (es : List (Expr α)) :
    ((nonLiterals es).map (denote ρ)).prod * (literals es).prod = (es.map (denote ρ)).prod := by
  have h := ((perm_literals es).map (denote ρ)).prod_eq
  rwa [List.map_append, List.prod_append, map_denote_num] at h

theorem sum_sumTerms (args : List (Expr α)) :
    ((sumTerms args).map (denote ρ)).sum = (args.map (denote ρ)).sum := by
  have hflat := sum_literals ρ (args.flatMap addends)
  rw [← sum_addends ρ args, ← hflat, ← Arithmetic.sum_eq (literals _)]
  simp only [sumTerms]
  split
  · rename_i hz
    rw [(Arithmetic.isZero_iff _).1 hz, add_zero]
  · rw [List.map_append, List.sum_append, List.map_singleton, List.sum_singleton, denote_num]

theorem prod_productTerms (args : List (Expr α)) :
    ((productTerms args).map (denote ρ)).prod = (args.map (denote ρ)).prod := by
  have hflat := prod_literals ρ (args.flatMap factors)
  rw [← prod_factors ρ args, ← hflat, ← Arithmetic.product_eq (literals _)]
  simp only [productTerms]
  split
  · rename_i ho
    rw [(Arithmetic.isOne_iff _).1 (Bool.and_eq_true_iff.1 ho).1, mul_one]
  · rw [List.map_append, List.prod_append, List.map_singleton, List.prod_singleton, denote_num]

@[simp]
theorem denote_sum (args : List (Expr α)) :
    denote ρ (sum args) = (args.map (denote ρ)).sum := by
  have h := sum_sumTerms ρ args
  rcases sum_cases args with ⟨hs, hn⟩ | hs | ⟨-, hs⟩
  · rw [hn] at h
    rw [hs, ← h, zero, denote_num, Arithmetic.zero_eq]
    rfl
  · rwa [hs, List.map_singleton, List.sum_singleton] at h
  · rw [hs, denote_add, ← h]
    exact ((sort_perm _).map _).sum_eq

@[simp]
theorem denote_product (args : List (Expr α)) :
    denote ρ (product args) = (args.map (denote ρ)).prod := by
  have h := prod_productTerms ρ args
  rcases product_cases args with ⟨hz, hs⟩ | ⟨-, hs | ⟨-, hs⟩⟩
  · rw [Arithmetic.isZero_iff, Arithmetic.product_eq] at hz
    rw [hs, ← prod_factors, ← prod_literals, hz, mul_zero, zero, denote_num, Arithmetic.zero_eq]
  · rwa [hs, List.map_singleton, List.prod_singleton] at h
  · rw [hs, denote_mul, ← h]
    exact ((sort_perm _).map _).prod_eq

@[simp]
theorem denote_power (b x : Expr α) :
    denote ρ (power b x) = Arithmetic.pow (denote ρ b) (denote ρ x) := by
  unfold power
  split
  · rename_i v
    split
    · rename_i ho
      rw [denote_num, pow_one_exact _ v ho]
    · split
      · rename_i hz
        rw [denote_num, pow_zero_exact _ v hz, one, denote_num, Arithmetic.one_eq]
      · split
        · rfl
        · rw [denote_pow]
  · rw [denote_pow]

theorem denote_rebuild {e : Expr α} {args : List (Expr α)} (he : e.isLeaf = false)
    (hlen : args.length = e.args.length) :
    denote ρ (rebuild e args) = combine e (args.map (denote ρ)) := by
  cases e with
  | num | sym | access => simp [isLeaf] at he
  | add es => exact denote_sum ρ args
  | mul es => exact denote_product ρ args
  | pow b x =>
    obtain ⟨b', x', rfl⟩ := List.length_eq_two.1 hlen
    exact denote_power ρ b' x'
  | call f es =>
    rw [rebuild, denote_of_not_isInput rfl]
    cases args <;> rfl

end Exact

end Stencil.Expr
