import Stencil.Proofs.Expr.Operands

namespace Stencil.Expr

section Keeps

variable {α : Type}

def Keeps (e e' : Expr α) : Prop :=
  e' = e ∨ e.isNumber = false ∧ (e'.isInput = true ∨ e'.rank = e.rank)

theorem Keeps.isNumber {e e' : Expr α} (h : Keeps e e') : e'.isNumber = e.isNumber := by
  rcases h with rfl | ⟨he, hs | hr⟩
  · rfl
  · cases e <;> cases e' <;> simp_all [isInput, isSymbol, isAccess, Expr.isNumber]
  · cases e <;> cases e' <;> simp_all [rank, Expr.isNumber]

theorem Keeps.eq_num {e e' : Expr α} (h : Keeps e e') {v : α} : e' = num v ↔ e = num v := by
  rcases h with rfl | ⟨he, hs | hr⟩
  · rfl
  · cases e <;> cases e' <;> simp_all [isInput, isSymbol, isAccess, Expr.isNumber]
  · cases e <;> cases e' <;> simp_all [rank, Expr.isNumber]

theorem Keeps.isSum {e e' : Expr α} (h : Keeps e e') (he : e.isSum = false) :
    e'.isSum = false := by
  rcases h with rfl | ⟨ho, hs | hr⟩
  · exact he
  · cases e' <;> simp_all [isInput, isSymbol, isAccess, Expr.isSum]
  · cases e <;> cases e' <;> simp_all [rank, Expr.isSum]

theorem Keeps.isProduct {e e' : Expr α} (h : Keeps e e') (he : e.isProduct = false) :
    e'.isProduct = false := by
  rcases h with rfl | ⟨ho, hs | hr⟩
  · exact he
  · cases e' <;> simp_all [isInput, isSymbol, isAccess, Expr.isProduct]
  · cases e <;> cases e' <;> simp_all [rank, Expr.isProduct]

theorem Keeps.isOperation {e e' : Expr α} (h : Keeps e e') (he : e.isOperation = false) :
    e'.isOperation = false := by
  rcases h with rfl | ⟨ho, hs | hr⟩
  · exact he
  · cases e' <;> simp_all [isInput, isSymbol, isAccess, Expr.isOperation, isLeaf]
  · cases e <;> cases e' <;> simp_all [rank, Expr.isOperation, isLeaf]

theorem Keeps.number? {e e' : Expr α} (h : Keeps e e') : e'.number? = e.number? := by
  cases e with
  | num v => rw [h.eq_num.2 rfl]
  | _ =>
    have hn := h.isNumber
    cases e' <;> simp_all [Expr.isNumber, Expr.number?]

theorem literals_map_of_keeps {es : List (Expr α)} {f : Expr α → Expr α}
    (h : ∀ e ∈ es, Keeps e (f e)) : literals (es.map f) = literals es := by
  induction es with
  | nil => rfl
  | cons e es ih =>
    have htail := ih fun a ha => h a (List.mem_cons_of_mem e ha)
    unfold literals at htail ⊢
    rw [List.map_cons, List.filterMap_cons, List.filterMap_cons, (h e List.mem_cons_self).number?,
      htail]

theorem normal_map_of_keeps {same : Expr α → Bool} {dropped : α → Prop} {es : List (Expr α)}
    {f : Expr α → Expr α} (hn : Normal same dropped es) (h : ∀ e ∈ es, Keeps e (f e))
    (hsame : ∀ e ∈ es, same e = false → same (f e) = false) :
    Normal same dropped (es.map f) where
  flat a ha := by
    obtain ⟨e, he, rfl⟩ := List.mem_map.1 ha
    exact hsame e he (hn.flat e he)
  literal := literals_map_of_keeps h ▸ hn.literal
  proper := literals_map_of_keeps h ▸ hn.proper
  two := by
    rw [List.length_map]
    exact hn.two

theorem fits_of_keeps [Arithmetic α] {e : Expr α} (he : Canonical e) {f : Expr α → Expr α}
    (h : ∀ a ∈ e.args, Keeps a (f a)) :
    Fits e (e.args.map f) ∧ flatten e (e.args.map f) = e.args.map f := by
  cases he with
  | num | sym | access => exact ⟨rfl, rfl⟩
  | add ha hn =>
    have hnormal := normal_map_of_keeps hn h fun a ha => (h a ha).isSum
    have hflat := flatMap_addends hnormal.flat
    rw [← hflat] at hnormal
    exact ⟨hnormal, hflat⟩
  | mul ha hn =>
    have hnormal := normal_map_of_keeps hn h fun a ha => (h a ha).isProduct
    have hflat := flatMap_factors hnormal.flat
    rw [← hflat] at hnormal
    exact ⟨hnormal, hflat⟩
  | @pow b x hb hx hv =>
    have hkb := h b (by simp [args])
    have hkx := h x (by simp [args])
    refine ⟨⟨f b, f x, rfl, fun v hfx => ?_⟩, rfl⟩
    obtain ⟨ht, hnum⟩ := hv v (hkx.eq_num.1 hfx)
    exact ⟨ht, hkb.isNumber ▸ hnum⟩
  | call ha => exact ⟨trivial, rfl⟩

end Keeps

section LawfulArithmetic

variable {α : Type} [Arithmetic α] [LawfulArithmetic α] {e : Expr α} {es : List (Expr α)} {v : α}

omit [LawfulArithmetic α] in
theorem rank_le_of_le {a b : Expr α} (h : a.le b = true) : a.rank ≤ b.rank := by
  refine rank_le_of_isLE ?_
  rw [le] at h
  cases hc : a.cmp b <;> simp_all

theorem sort_append_num (hs : es.Pairwise fun a b => a.le b = true)
    (hn : ∀ e ∈ es, e.isNumber = false) : sort (es ++ [num v]) = num v :: es := by
  have htrans (a b c : Expr α) : a.le b = true → b.le c = true → a.le c = true := le_trans
  have hsub : List.Sublist es (sort (es ++ [num v])) :=
    List.sublist_mergeSort htrans le_total hs (List.sublist_append_left es _)
  have hperm := sort_perm (es ++ [num v])
  have hsorted := sort_pairwise (es ++ [num v])
  generalize sort (es ++ [num v]) = l at hsub hperm hsorted
  have hv : num v ∈ l := hperm.mem_iff.2 (List.mem_append_right es (List.mem_singleton_self _))
  cases l with
  | nil => exact absurd hv List.not_mem_nil
  | cons x t =>
    have hrank : x.rank ≤ (num v).rank := by
      rcases List.mem_cons.1 hv with hx | hv
      · rw [hx]
      · exact rank_le_of_le ((List.pairwise_cons.1 hsorted).1 _ hv)
    have hx : x ∉ es := fun hx => by
      have hnum := hn x hx
      cases x <;> simp_all [rank, isNumber]
    have hxv : x = num v := List.mem_singleton.1 <|
      (List.mem_append.1 (hperm.mem_iff.1 List.mem_cons_self)).resolve_left hx
    rcases List.sublist_cons_iff.1 hsub with hsub | ⟨r, rfl, -⟩
    · have hlen := hperm.length_eq
      rw [List.length_cons, List.length_append, List.length_singleton] at hlen
      rw [hxv, hsub.eq_of_length (by omega)]
    · exact absurd List.mem_cons_self hx

omit [LawfulArithmetic α] in
theorem literals_append_nonLiterals (hs : es.Pairwise fun a b => a.le b = true) :
    (literals es).map num ++ nonLiterals es = es := by
  induction es with
  | nil => rfl
  | cons e es ih =>
    obtain ⟨hle, hs⟩ := List.pairwise_cons.1 hs
    have htail := ih hs
    cases he : e.isNumber with
    | true =>
      obtain ⟨v, rfl⟩ : ∃ v, e = num v := by cases e <;> simp_all [isNumber]
      have hn : nonLiterals (num v :: es) = nonLiterals es := rfl
      have hl : literals (num v :: es) = v :: literals es := rfl
      rw [hn, hl, List.map_cons, List.cons_append, htail]
    | false =>
      have hn : nonLiterals (e :: es) = e :: nonLiterals es := by simp [nonLiterals, he]
      have hnone : ∀ b ∈ e :: es, b.number? = none := by
        refine List.forall_mem_cons.2 ⟨?_, fun b hb => ?_⟩
        · cases e <;> simp_all [isNumber, number?]
        · have hrank := rank_le_of_le (hle b hb)
          cases e <;> cases b <;> simp_all [rank, isNumber, number?]
      have hl : literals (e :: es) = [] := List.filterMap_eq_nil_iff.2 hnone
      have hnil : literals es = [] :=
        List.filterMap_eq_nil_iff.2 (List.forall_mem_cons.1 hnone).2
      rw [hnil, List.map_nil, List.nil_append] at htail
      rw [hn, hl, List.map_nil, List.nil_append, htail]

theorem sort_nonLiterals_append {same : Expr α → Bool} {dropped : α → Prop}
    (hn : Normal same dropped es) (hs : es.Pairwise fun a b => a.le b = true) :
    sort (nonLiterals es ++ (literals es).map num) = es := by
  have hsplit := literals_append_nonLiterals hs
  have hl := hn.literal
  have hrest : (nonLiterals es).Pairwise fun a b => a.le b = true :=
    hs.sublist List.filter_sublist
  rcases hlit : literals es with _ | ⟨v, _ | ⟨w, vs⟩⟩
  · rw [hlit, List.map_nil, List.nil_append] at hsplit
    rw [List.map_nil, List.append_nil, hsplit, sort_of_pairwise hs]
  · rw [hlit] at hsplit
    rw [List.map_singleton, sort_append_num hrest fun e he => (mem_nonLiterals.1 he).2]
    exact hsplit
  · simp [hlit] at hl

theorem rebuild_of_sorted (hf : Fits e es) (hflat : flatten e es = es)
    (hs : e.isSum = true ∨ e.isProduct = true → es.Pairwise fun a b => a.le b = true) :
    rebuild e es = rebuildRaw e es := by
  cases e with
  | add as =>
    have hn : Normal isSum Neutral (es.flatMap addends) := hf
    refine (sum_of_normal hn).trans (congrArg add ?_)
    rw [show es.flatMap addends = es from hflat] at hn
    rw [sumTerms_of_normal hf, show es.flatMap addends = es from hflat,
      sort_nonLiterals_append hn (hs (.inl rfl))]
  | mul as =>
    have hn : Normal isProduct Trivial (es.flatMap factors) := hf
    refine (product_of_normal hn).trans (congrArg mul ?_)
    rw [show es.flatMap factors = es from hflat] at hn
    rw [(productTerms_of_normal hf).2, show es.flatMap factors = es from hflat,
      sort_nonLiterals_append hn (hs (.inr rfl))]
  | pow b x =>
    obtain ⟨b', x', rfl, hv⟩ := hf
    exact power_of_proper hv
  | _ => rfl

theorem rebuild_self (hc : Canonical e) : rebuild e e.args = e := by
  obtain ⟨hf, hflat⟩ := fits_of_keeps hc (f := id) fun a _ => .inl rfl
  rw [List.map_id] at hf hflat
  rw [rebuild_of_sorted hf hflat hc.pairwise_args]
  cases e <;> rfl

end LawfulArithmetic

variable {α : Type} [AlgebraicField α] [Arithmetic α] [Exact α]

theorem sum_congr {as bs : List (Expr α)}
    (hrest : (nonLiterals (as.flatMap addends)).Perm (nonLiterals (bs.flatMap addends)))
    (hlit : Arithmetic.sum (literals (as.flatMap addends)) =
      Arithmetic.sum (literals (bs.flatMap addends))) : sum as = sum bs := by
  have hterms : (sumTerms as).Perm (sumTerms bs) := by
    simp only [sumTerms, hlit]
    split
    · exact hrest
    · exact hrest.append_right _
  have hsort := sort_eq_of_perm hterms
  simp only [sumTerms] at hsort
  simp only [sum, hsort]

theorem product_congr {as bs : List (Expr α)}
    (hrest : (nonLiterals (as.flatMap factors)).Perm (nonLiterals (bs.flatMap factors)))
    (hlit : Arithmetic.product (literals (as.flatMap factors)) =
      Arithmetic.product (literals (bs.flatMap factors))) : product as = product bs := by
  have hterms : (productTerms as).Perm (productTerms bs) := by
    simp only [productTerms, hlit, hrest.isEmpty_eq]
    split
    · exact hrest
    · exact hrest.append_right _
  have hsort := sort_eq_of_perm hterms
  simp only [productTerms, hlit] at hsort
  simp only [product, hlit, hsort]

theorem sum_of_perm {as bs : List (Expr α)} (h : as.Perm bs) : sum as = sum bs := by
  have hflat := h.flatMap_right addends
  refine sum_congr (hflat.filter _) ?_
  rw [Arithmetic.sum_eq, Arithmetic.sum_eq]
  exact (hflat.filterMap number?).sum_eq

theorem product_of_perm {as bs : List (Expr α)} (h : as.Perm bs) : product as = product bs := by
  have hflat := h.flatMap_right factors
  refine product_congr (hflat.filter _) ?_
  rw [Arithmetic.product_eq, Arithmetic.product_eq]
  exact (hflat.filterMap number?).prod_eq

theorem rebuild_of_perm {e : Expr α} {as bs : List (Expr α)}
    (hac : e.isSum = true ∨ e.isProduct = true) (h : as.Perm bs) :
    rebuild e as = rebuild e bs := by
  cases e with
  | add => exact sum_of_perm h
  | mul => exact product_of_perm h
  | _ => simp [isSum, isProduct] at hac

end Stencil.Expr
