import Stencil.Expr.Canonical
import Stencil.Expr.Shape
import Stencil.Proofs.Exact

namespace Stencil.Expr

variable {α : Type}

def isSum : Expr α → Bool
  | add _ => true
  | _ => false

def isProduct : Expr α → Bool
  | mul _ => true
  | _ => false

structure Normal (same : Expr α → Bool) (dropped : α → Prop) (args : List (Expr α)) : Prop where
  flat : ∀ a ∈ args, same a = false
  literal : (literals args).length ≤ 1
  proper : ∀ v ∈ literals args, ¬ dropped v
  two : 2 ≤ args.length

variable [Arithmetic α]

def Neutral (v : α) : Prop := Arithmetic.isZero v = true

def Trivial (v : α) : Prop := Arithmetic.isZero v = true ∨ Arithmetic.isOne v = true

/-- Trees that the canonical constructors build. -/
inductive Canonical : Expr α → Prop
  | num (v : α) : Canonical (num v)
  | sym (s : String) : Canonical (sym s)
  | access (a : Access) : Canonical (access a)
  | add {args : List (Expr α)} : (∀ a ∈ args, Canonical a) → Normal isSum Neutral args →
      args.Pairwise (fun a b => a.le b = true) → Canonical (add args)
  | mul {args : List (Expr α)} : (∀ a ∈ args, Canonical a) → Normal isProduct Trivial args →
      args.Pairwise (fun a b => a.le b = true) → Canonical (mul args)
  | pow {b x : Expr α} : Canonical b → Canonical x →
      (∀ v, x = .num v → ¬ Trivial v ∧ b.isNumber = false) → Canonical (pow b x)
  | call {f : Intrinsic} {args : List (Expr α)} : (∀ a ∈ args, Canonical a) →
      Canonical (call f args)

theorem Canonical.args {e : Expr α} (h : Canonical e) : ∀ a ∈ e.args, Canonical a := by
  cases h with
  | num | sym | access => simp [Expr.args]
  | add ha | mul ha | call ha => exact ha
  | pow hb hx => simp [Expr.args, hb, hx]

theorem Canonical.subterms {e : Expr α} (h : Canonical e) : ∀ a ∈ e.subterms, Canonical a := by
  induction e using induct with
  | num v | sym s | access x =>
    intro a ha
    simp only [subterms_eq, Expr.args, List.flatMap_nil, List.mem_singleton] at ha
    exact ha ▸ h
  | add args ih | mul args ih | call f args ih =>
    intro a ha
    rw [subterms_eq, List.mem_cons, List.mem_flatMap] at ha
    rcases ha with rfl | ⟨b, hb, ha⟩
    · exact h
    · exact ih b hb (h.args b hb) a ha
  | pow b x hb hx =>
    intro a ha
    rw [subterms_eq, List.mem_cons, List.mem_flatMap] at ha
    rcases ha with rfl | ⟨c, hc, ha⟩
    · exact h
    · have hcan := h.args c hc
      simp only [Expr.args, List.mem_cons, List.not_mem_nil, or_false] at hc
      rcases hc with rfl | rfl
      · exact hb hcan a ha
      · exact hx hcan a ha

omit [Arithmetic α] in
theorem mem_literals {v : α} {es : List (Expr α)} : v ∈ literals es ↔ num v ∈ es := by
  simp only [literals, List.mem_filterMap]
  constructor
  · rintro ⟨e, he, hv⟩
    cases e <;> simp_all [number?]
  · exact fun h => ⟨num v, h, rfl⟩

omit [Arithmetic α] in
theorem mem_nonLiterals {e : Expr α} {es : List (Expr α)} :
    e ∈ nonLiterals es ↔ e ∈ es ∧ e.isNumber = false := by
  simp [nonLiterals]

omit [Arithmetic α] in
theorem perm_literals (es : List (Expr α)) :
    (nonLiterals es ++ (literals es).map num).Perm es := by
  induction es with
  | nil => exact .nil
  | cons e es ih =>
    by_cases h : e.isNumber = true
    · obtain ⟨v, rfl⟩ : ∃ v, e = num v := by cases e <;> simp_all [isNumber]
      have hn : nonLiterals (num v :: es) = nonLiterals es := rfl
      have hl : literals (num v :: es) = v :: literals es := rfl
      rw [hn, hl, List.map_cons]
      exact List.perm_middle.trans (ih.cons (num v))
    · have hn : nonLiterals (e :: es) = e :: nonLiterals es := by simp [nonLiterals, h]
      have hl : literals (e :: es) = literals es := by
        cases e <;> first | rfl | simp [isNumber] at h
      rw [hn, hl, List.cons_append]
      exact ih.cons e

omit [Arithmetic α] in
theorem flatMap_addends {es : List (Expr α)} (h : ∀ e ∈ es, e.isSum = false) :
    es.flatMap addends = es := by
  induction es with
  | nil => rfl
  | cons e es ih =>
    have he : e.addends = [e] := by
      have := h e List.mem_cons_self
      cases e <;> simp_all [addends, isSum]
    rw [List.flatMap_cons, he, ih fun a ha => h a (List.mem_cons_of_mem e ha)]
    rfl

omit [Arithmetic α] in
theorem flatMap_factors {es : List (Expr α)} (h : ∀ e ∈ es, e.isProduct = false) :
    es.flatMap factors = es := by
  induction es with
  | nil => rfl
  | cons e es ih =>
    have he : e.factors = [e] := by
      have := h e List.mem_cons_self
      cases e <;> simp_all [factors, isProduct]
    rw [List.flatMap_cons, he, ih fun a ha => h a (List.mem_cons_of_mem e ha)]
    rfl

omit [Arithmetic α] in
theorem Normal.perm {same : Expr α → Bool} {dropped : α → Prop} {as bs : List (Expr α)}
    (h : Normal same dropped as) (hp : as.Perm bs) : Normal same dropped bs where
  flat a ha := h.flat a (hp.mem_iff.2 ha)
  literal := by
    have hl := (hp.filterMap number?).length_eq
    have := h.literal
    unfold literals at this ⊢
    omega
  proper v hv := h.proper v ((hp.filterMap number?).mem_iff.2 hv)
  two := hp.length_eq ▸ h.two

def sumTerms (args : List (Expr α)) : List (Expr α) :=
  let flat := args.flatMap addends
  let c := Arithmetic.sum (literals flat)
  if Arithmetic.isZero c then nonLiterals flat else nonLiterals flat ++ [num c]

def productTerms (args : List (Expr α)) : List (Expr α) :=
  let flat := args.flatMap factors
  let c := Arithmetic.product (literals flat)
  let rest := nonLiterals flat
  if Arithmetic.isOne c && !rest.isEmpty then rest else rest ++ [num c]

theorem sum_cases (args : List (Expr α)) :
    sum args = zero ∧ sumTerms args = [] ∨ sumTerms args = [sum args] ∨
      2 ≤ (sumTerms args).length ∧ sum args = add (sort (sumTerms args)) := by
  have hp := sort_perm (sumTerms args)
  rcases hs : sort (sumTerms args) with _ | ⟨e, _ | ⟨e', es⟩⟩
  · have hsum : sum args = zero := by
      simp only [sumTerms] at hs
      simp only [sum, hs]
    rw [hs] at hp
    exact .inl ⟨hsum, hp.nil_eq.symm⟩
  · have hsum : sum args = e := by
      simp only [sumTerms] at hs
      simp only [sum, hs]
    rw [hs] at hp
    exact .inr (.inl (hsum ▸ (List.singleton_perm.1 hp).symm))
  · have hsum : sum args = add (e :: e' :: es) := by
      simp only [sumTerms] at hs
      simp only [sum, hs]
    rw [hs] at hp
    refine .inr (.inr ⟨?_, hsum⟩)
    rw [← hp.length_eq]
    simp

theorem product_cases (args : List (Expr α)) :
    Arithmetic.isZero (Arithmetic.product (literals (args.flatMap factors))) = true ∧
        product args = zero ∨
      Arithmetic.isZero (Arithmetic.product (literals (args.flatMap factors))) = false ∧
        (productTerms args = [product args] ∨
          2 ≤ (productTerms args).length ∧ product args = mul (sort (productTerms args))) := by
  by_cases hz : Arithmetic.isZero (Arithmetic.product (literals (args.flatMap factors))) = true
  · refine .inl ⟨hz, ?_⟩
    simp only [product, hz, if_true]
  · refine .inr ⟨Bool.eq_false_iff.2 hz, ?_⟩
    have hp := sort_perm (productTerms args)
    rcases hs : sort (productTerms args) with _ | ⟨e, _ | ⟨e', es⟩⟩
    · have hnil : productTerms args = [] := by
        rw [hs] at hp
        exact hp.nil_eq.symm
      simp only [productTerms] at hnil
      split at hnil <;> simp_all
    · have hproduct : product args = e := by
        simp only [productTerms] at hs
        simp only [product, hz, hs, Bool.false_eq_true, if_false]
      rw [hs] at hp
      exact .inl (hproduct ▸ (List.singleton_perm.1 hp).symm)
    · have hproduct : product args = mul (e :: e' :: es) := by
        simp only [productTerms] at hs
        simp only [product, hz, hs, Bool.false_eq_true, if_false]
      rw [hs] at hp
      refine .inr ⟨?_, hproduct⟩
      rw [← hp.length_eq]
      simp

omit [Arithmetic α] in
theorem literals_nonLiterals (es : List (Expr α)) : literals (nonLiterals es) = [] := by
  rw [List.eq_nil_iff_forall_not_mem]
  intro v hv
  simp [mem_literals, mem_nonLiterals, isNumber] at hv

omit [Arithmetic α] in
theorem literals_append_num (es : List (Expr α)) (c : α) :
    literals (nonLiterals es ++ [num c]) = [c] := by
  have h := literals_nonLiterals es
  unfold literals at h ⊢
  rw [List.filterMap_append, h]
  rfl

theorem literals_sumTerms (args : List (Expr α)) :
    (literals (sumTerms args)).length ≤ 1 ∧ ∀ v ∈ literals (sumTerms args), ¬ Neutral v := by
  simp only [sumTerms]
  split
  · simp [literals_nonLiterals]
  · rename_i h
    rw [literals_append_num]
    simpa [Neutral] using h

theorem mem_sumTerms {args : List (Expr α)} {e : Expr α} (h : e ∈ sumTerms args) :
    e.isNumber = true ∨ e ∈ args.flatMap addends := by
  simp only [sumTerms] at h
  split at h
  · exact .inr (mem_nonLiterals.1 h).1
  · rcases List.mem_append.1 h with h | h
    · exact .inr (mem_nonLiterals.1 h).1
    · rw [List.mem_singleton.1 h]
      exact .inl rfl

theorem mem_of_sum_eq_add {es args : List (Expr α)} (hflat : ∀ e ∈ es, e.isSum = false)
    (h : sum es = add args) {e : Expr α} (he : e ∈ args) : e.isNumber = true ∨ e ∈ es := by
  rcases sum_cases es with ⟨hsum, -⟩ | hone | ⟨-, hsum⟩
  · rw [hsum] at h
    cases h
  · have hmem : sum es ∈ sumTerms es := hone ▸ List.mem_singleton_self _
    rw [h] at hmem
    rcases mem_sumTerms hmem with hnum | hmem
    · simp [isNumber] at hnum
    · rw [flatMap_addends hflat] at hmem
      exact absurd (hflat _ hmem) (by simp [isSum])
  · rw [hsum] at h
    obtain rfl := add.inj h
    have hterm := mem_sumTerms ((sort_perm (sumTerms es)).mem_iff.1 he)
    rwa [flatMap_addends hflat] at hterm

theorem literals_productTerms {args : List (Expr α)}
    (hz : Arithmetic.isZero (Arithmetic.product (literals (args.flatMap factors))) = false)
    (htwo : 2 ≤ (productTerms args).length) :
    (literals (productTerms args)).length ≤ 1 ∧
      ∀ v ∈ literals (productTerms args), ¬ Trivial v := by
  simp only [productTerms] at htwo ⊢
  split
  · simp [literals_nonLiterals]
  · rename_i h
    rw [if_neg h] at htwo
    rw [literals_append_num]
    refine ⟨le_rfl, fun v hv => ?_⟩
    obtain rfl := List.mem_singleton.1 hv
    rintro (hv | hv)
    · simp [hz] at hv
    · simp only [hv, Bool.true_and, Bool.not_eq_true', List.isEmpty_eq_false_iff, ne_eq,
        Decidable.not_not] at h
      simp [h] at htwo

theorem mem_productTerms {args : List (Expr α)} {e : Expr α} (h : e ∈ productTerms args) :
    e.isNumber = true ∨ e ∈ args.flatMap factors := by
  simp only [productTerms] at h
  split at h
  · exact .inr (mem_nonLiterals.1 h).1
  · rcases List.mem_append.1 h with h | h
    · exact .inr (mem_nonLiterals.1 h).1
    · rw [List.mem_singleton.1 h]
      exact .inl rfl

theorem canonical_of_isLeaf {e : Expr α} (h : e.isLeaf = true) : Canonical e := by
  cases e with
  | num v => exact .num v
  | sym s => exact .sym s
  | access x => exact .access x
  | _ => simp [isLeaf] at h

theorem canonical_of_isNumber {e : Expr α} (h : e.isNumber = true) : Canonical e := by
  cases e <;> simp [isNumber] at h
  exact .num _

theorem canonical_addends {e : Expr α} (h : Canonical e) :
    ∀ a ∈ e.addends, Canonical a ∧ a.isSum = false := by
  cases h with
  | add ha hn => exact fun a hm => ⟨ha a hm, hn.flat a hm⟩
  | num v => simp [addends, isSum, Canonical.num]
  | sym s => simp [addends, isSum, Canonical.sym]
  | access x => simp [addends, isSum, Canonical.access]
  | mul ha hn hs => simpa [addends, isSum] using Canonical.mul ha hn hs
  | pow hb hx hv => simpa [addends, isSum] using Canonical.pow hb hx hv
  | call ha => simpa [addends, isSum] using Canonical.call ha

theorem canonical_factors {e : Expr α} (h : Canonical e) :
    ∀ a ∈ e.factors, Canonical a ∧ a.isProduct = false := by
  cases h with
  | mul ha hn => exact fun a hm => ⟨ha a hm, hn.flat a hm⟩
  | num v => simp [factors, isProduct, Canonical.num]
  | sym s => simp [factors, isProduct, Canonical.sym]
  | access x => simp [factors, isProduct, Canonical.access]
  | add ha hn hs => simpa [factors, isProduct] using Canonical.add ha hn hs
  | pow hb hx hv => simpa [factors, isProduct] using Canonical.pow hb hx hv
  | call ha => simpa [factors, isProduct] using Canonical.call ha

section LawfulLiterals

variable [LawfulLiterals α]

theorem canonical_sum {args : List (Expr α)} (h : ∀ a ∈ args, Canonical a) :
    Canonical (sum args) := by
  have hterms : ∀ e ∈ sumTerms args, Canonical e ∧ e.isSum = false := by
    intro e he
    rcases mem_sumTerms he with hn | hf
    · exact ⟨canonical_of_isNumber hn, by cases e <;> simp_all [isNumber, isSum]⟩
    · obtain ⟨a, ha, he⟩ := List.mem_flatMap.1 hf
      exact canonical_addends (h a ha) e he
  rcases sum_cases args with ⟨hs, -⟩ | hs | ⟨htwo, hs⟩
  · exact hs ▸ .num _
  · exact (hterms _ (hs ▸ List.mem_singleton_self _)).1
  · have hn : Normal isSum Neutral (sumTerms args) :=
      ⟨fun e he => (hterms e he).2, (literals_sumTerms args).1, (literals_sumTerms args).2, htwo⟩
    rw [hs]
    exact .add (fun e he => (hterms e ((sort_perm _).mem_iff.1 he)).1) (hn.perm (sort_perm _).symm)
      (sort_pairwise _)

theorem canonical_product {args : List (Expr α)} (h : ∀ a ∈ args, Canonical a) :
    Canonical (product args) := by
  have hterms : ∀ e ∈ productTerms args, Canonical e ∧ e.isProduct = false := by
    intro e he
    rcases mem_productTerms he with hn | hf
    · exact ⟨canonical_of_isNumber hn, by cases e <;> simp_all [isNumber, isProduct]⟩
    · obtain ⟨a, ha, he⟩ := List.mem_flatMap.1 hf
      exact canonical_factors (h a ha) e he
  rcases product_cases args with ⟨-, hs⟩ | ⟨hz, hs | ⟨htwo, hs⟩⟩
  · exact hs ▸ .num _
  · exact (hterms _ (hs ▸ List.mem_singleton_self _)).1
  · have hl := literals_productTerms hz htwo
    have hn : Normal isProduct Trivial (productTerms args) :=
      ⟨fun e he => (hterms e he).2, hl.1, hl.2, htwo⟩
    rw [hs]
    exact .mul (fun e he => (hterms e ((sort_perm _).mem_iff.1 he)).1) (hn.perm (sort_perm _).symm)
      (sort_pairwise _)

omit [LawfulLiterals α] in
theorem canonical_power {b x : Expr α} (hb : Canonical b) (hx : Canonical x) :
    Canonical (power b x) := by
  unfold power
  split
  · rename_i v
    split
    · exact hb
    · rename_i hone
      split
      · exact .num _
      · rename_i hzero
        split
        · exact .num _
        · rename_i hb'
          refine .pow hb hx fun w hw => ?_
          obtain rfl : v = w := by simpa using hw
          refine ⟨by simp [Trivial, hone, hzero], ?_⟩
          cases b <;> first | rfl | simp at hb'
  · rename_i hx'
    exact .pow hb hx fun w hw => absurd hw (hx' w)

theorem canonical_rebuild {e : Expr α} (he : Canonical e) {args : List (Expr α)}
    (h : ∀ a ∈ args, Canonical a) : Canonical (rebuild e args) := by
  unfold rebuild
  split
  · exact canonical_sum h
  · exact canonical_product h
  · exact .call h
  · exact canonical_power (h _ (by simp)) (h _ (by simp))
  · exact he

end LawfulLiterals

end Stencil.Expr
