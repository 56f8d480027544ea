import Mathlib.Algebra.BigOperators.Ring.List
import Mathlib.Algebra.Order.BigOperators.Group.List
import Mathlib.Algebra.Order.Ring.Nat
import Mathlib.Data.List.Permutation
import Stencil.Expr.Shape
import Stencil.Proofs.Expr.Denotation

namespace Stencil.Expr

variable {α : Type}

def inner (e : Expr α) : List (Expr α) := e.args.flatMap subterms

theorem subterms_eq_inner (e : Expr α) : e.subterms = e :: e.inner := subterms_eq e

theorem inner_eq_drop (e : Expr α) : e.subterms.drop 1 = e.inner := by
  rw [subterms_eq_inner, List.drop_one, List.tail_cons]

theorem mem_inner {k e : Expr α} : k ∈ e.inner ↔ ∃ a ∈ e.args, k ∈ a.subterms := List.mem_flatMap

def size (weight : String → Nat) : Expr α → Nat :=
  fold fun e below =>
    match e with
    | sym s => weight s
    | _ => 1 + below.sum

theorem size_sym (weight : String → Nat) (s : String) : size weight (sym s : Expr α) = weight s :=
  rfl

theorem size_of_not_symbol (weight : String → Nat) {e : Expr α} (h : e.isSymbol = false) :
    size weight e = 1 + (e.args.map (size weight)).sum := by
  rw [size, fold_eq]
  cases e <;> first | rfl | simp [isSymbol] at h

theorem size_arg_lt (weight : String → Nat) {a e : Expr α} (h : a ∈ e.args) :
    size weight a < size weight e := by
  have hsym : e.isSymbol = false := by
    cases e <;> simp_all [args, isSymbol]
  rw [size_of_not_symbol weight hsym]
  have := List.single_le_sum (fun _ _ => Nat.zero_le _) _ (List.mem_map_of_mem (f := size weight) h)
  omega

theorem size_subterm_le (weight : String → Nat) {k e : Expr α} (h : k ∈ e.subterms) :
    size weight k ≤ size weight e := by
  induction e using inductArgs with
  | node e ih =>
    rcases mem_subterms.1 h with rfl | ⟨a, ha, hk⟩
    · exact le_rfl
    · exact (ih a ha hk).trans (size_arg_lt weight ha).le

theorem size_inner_lt (weight : String → Nat) {k e : Expr α} (h : k ∈ e.inner) :
    size weight k < size weight e := by
  obtain ⟨a, ha, hk⟩ := mem_inner.1 h
  exact (size_subterm_le weight hk).trans_lt (size_arg_lt weight ha)

theorem size_congr {w w' : String → Nat} {e : Expr α} (h : ∀ s, sym s ∈ e.inputs → w s = w' s) :
    size w e = size w' e := by
  induction e using inductArgs with
  | node e ih =>
    by_cases hsym : e.isSymbol = true
    · cases e <;> simp only [isSymbol, Bool.false_eq_true] at hsym
      exact h _ (by simp [inputs_of_isInput, isInput, isSymbol])
    · rw [size_of_not_symbol w (Bool.eq_false_iff.2 hsym),
        size_of_not_symbol w' (Bool.eq_false_iff.2 hsym)]
      congr 2
      exact List.map_congr_left fun a ha => ih a ha fun s hs => h s (mem_inputs_args ⟨a, ha, hs⟩)

variable [Arithmetic α] {weighted : Bool}

theorem costAll_eq_sum (es : List (Expr α)) :
    costAll weighted es = (es.map (cost weighted)).sum := by
  induction es with
  | nil => rfl
  | cons e es ih => rw [costAll, ih, List.map_cons, List.sum_cons]

def rootCost (weighted : Bool) : Expr α → Nat
  | num _ | sym _ | access _ => 0
  | add es => es.length - 1
  | mul es => es.countP (fun a => !a.isMinusOne) - 1
  | pow _ x => powerCost x
  | call f _ => if weighted then f.weight else 0

theorem cost_eq (e : Expr α) :
    cost weighted e = rootCost weighted e + (e.args.map (cost weighted)).sum := by
  cases e with
  | num | sym | access => rfl
  | add es | mul es | call f es => rw [cost, rootCost, args, costAll_eq_sum]
  | pow b x => simp only [cost, rootCost, args, List.map_cons, List.map_nil, List.sum_cons,
      List.sum_nil, Nat.add_zero, Nat.add_assoc]

theorem one_le_powerCost (x : Expr α) : 1 ≤ powerCost x := by
  unfold powerCost
  split
  · split
    · omega
    · exact le_rfl
  · exact le_rfl

theorem cost_arg_le_sum {a e : Expr α} (h : a ∈ e.args) :
    cost weighted a ≤ (e.args.map (cost weighted)).sum :=
  List.single_le_sum (fun _ _ => Nat.zero_le _) _ (List.mem_map_of_mem h)

theorem cost_arg_le {a e : Expr α} (h : a ∈ e.args) : cost weighted a ≤ cost weighted e := by
  have hle : cost weighted a ≤ _ := cost_arg_le_sum h
  rw [cost_eq e]
  omega

theorem cost_subterm_le {k e : Expr α} (h : k ∈ e.subterms) :
    cost weighted k ≤ cost weighted e := by
  induction e using inductArgs with
  | node e ih =>
    rcases mem_subterms.1 h with rfl | ⟨a, ha, hk⟩
    · exact le_rfl
    · exact (ih a ha hk).trans (cost_arg_le ha)

def TightNode : Expr α → Prop
  | add es => es.length ≠ 1
  | mul es => es.length ≠ 1 ∧ (∀ a ∈ es, a.isProduct = false) ∧ (literals es).length ≤ 1
  | _ => True

def Tight (e : Expr α) : Prop := ∀ n ∈ e.subterms, TightNode n

omit [Arithmetic α] in
theorem Tight.node {e : Expr α} (h : Tight e) : TightNode e := h e (mem_subterms_self e)

omit [Arithmetic α] in
theorem Tight.subterms {e k : Expr α} (h : Tight e) (hk : k ∈ e.subterms) : Tight k :=
  fun n hn => h n (mem_subterms_trans hk hn)

omit [Arithmetic α] in
theorem Tight.args {e a : Expr α} (h : Tight e) (ha : a ∈ e.args) : Tight a :=
  h.subterms (mem_subterms.2 (.inr ⟨a, ha, mem_subterms_self a⟩))

omit [Arithmetic α] in
theorem tight_of_args {e : Expr α} (h : TightNode e) (hargs : ∀ a ∈ e.args, Tight a) : Tight e := by
  intro n hn
  rcases mem_subterms.1 hn with rfl | ⟨a, ha, hna⟩
  · exact h
  · exact hargs a ha n hna

theorem Canonical.tightNode {e : Expr α} (h : Canonical e) : TightNode e := by
  cases h with
  | add _ hn => exact fun hlen => absurd hn.two (by omega)
  | mul _ hn => exact ⟨fun hlen => absurd hn.two (by omega), hn.flat, hn.literal⟩
  | _ => trivial

theorem Canonical.tight {e : Expr α} (h : Canonical e) : Tight e := fun n hn =>
  (h.subterms n hn).tightNode

theorem TightNode.cost_arg_lt {a e : Expr α} (ht : TightNode e) (h : a ∈ e.args)
    (hp : e.isProduct = false) : cost true a < cost true e := by
  have hle : cost true a ≤ _ := cost_arg_le_sum h
  have hroot : 0 < rootCost true e := by
    cases e with
    | num | sym | access => simp [args] at h
    | add es =>
      have hpos : 0 < es.length := List.length_pos_of_mem h
      have hone : es.length ≠ 1 := ht
      rw [rootCost]
      omega
    | mul => simp [isProduct] at hp
    | pow _ x => exact one_le_powerCost x
    | call f =>
      rw [rootCost, if_pos rfl]
      cases f <;> decide
  rw [cost_eq e]
  omega

theorem TightNode.mul_of_cost_eq {es : List (Expr α)} {a : Expr α} (ht : TightNode (mul es))
    (h : a ∈ es) (hcost : cost true a = cost true (mul es)) (hpos : 0 < cost true a) :
    ∃ v, es.Perm [num v, a] := by
  have hle : cost true a ≤ (es.map (cost true)).sum := cost_arg_le_sum (e := mul es) h
  obtain ⟨hlen, -, hone⟩ := ht
  rw [cost_eq (mul es), rootCost, args] at hcost
  have hproper : (nonLiterals es).length ≤ es.countP fun a => !a.isMinusOne := by
    rw [nonLiterals, ← List.countP_eq_length_filter]
    refine List.countP_mono_left fun e _ he => ?_
    cases e <;> simp_all [isNumber, isMinusOne, number?]
  have hperm := perm_literals es
  have hnum : a.isNumber = false := by cases a <;> simp_all [isNumber, cost]
  have hmem : a ∈ nonLiterals es := by simp [nonLiterals, h, hnum]
  have hlits := hperm.length_eq
  rw [List.length_append, List.length_map] at hlits
  have hpos' := List.length_pos_of_mem hmem
  have hnon : nonLiterals es = [a] := by
    obtain ⟨b, hb⟩ := List.length_eq_one_iff.1 (show (nonLiterals es).length = 1 by omega)
    rw [hb, List.mem_singleton] at hmem
    rw [hb, hmem]
  obtain ⟨v, hv⟩ := List.length_eq_one_iff.1 (show (literals es).length = 1 by omega)
  rw [hnon, hv] at hperm
  exact ⟨v, hperm.symm.trans (.swap _ _ _)⟩

theorem Tight.eq_mul_of_cost_eq {e k : Expr α} (ht : Tight e)
    (hk : k ∈ e.inner) (hcost : cost true k = cost true e) (hpos : 0 < cost true k) :
    k.isProduct = false ∧ ∃ v es, e = mul es ∧ es.Perm [num v, k] := by
  obtain ⟨a, ha, hka⟩ := mem_inner.1 hk
  have hle : cost true k ≤ cost true a := cost_subterm_le hka
  have hle' : cost true a ≤ cost true e := cost_arg_le ha
  have hself := ht.node
  cases hp : e.isProduct with
  | false =>
    have := hself.cost_arg_lt ha hp
    omega
  | true =>
    obtain ⟨es, rfl⟩ : ∃ es, e = mul es := by cases e <;> simp_all [isProduct]
    obtain ⟨v, hperm⟩ := hself.mul_of_cost_eq ha (by omega) (by omega)
    have hflat : a.isProduct = false := hself.2.1 a ha
    rcases mem_subterms.1 hka with rfl | ⟨b, hb, hkb⟩
    · exact ⟨hflat, v, es, rfl, hperm⟩
    · have hlt := (ht.args ha).node.cost_arg_lt hb hflat
      have hle'' : cost true k ≤ cost true b := cost_subterm_le hkb
      omega

theorem eq_pair_of_canonical {es : List (Expr α)} {v : α} {k : Expr α} (hc : Canonical (mul es))
    (h : es.Perm [num v, k]) : es = [num v, k] := by
  obtain ⟨-, -, hone⟩ := hc.tightNode
  have hsorted : es.Pairwise fun a b => a.le b = true := by
    cases hc with
    | mul _ _ hsorted => exact hsorted
  rcases List.perm_pair.1 h with rfl | rfl
  · rfl
  · have hle := (List.pairwise_cons.1 hsorted).1 _ List.mem_cons_self
    have hnum : k.isNumber = false := by cases k <;> simp_all [literals, number?, isNumber]
    have hrank : (num v : Expr α).rank < k.rank := by cases k <;> simp_all [rank, isNumber]
    rw [le, cmp_of_rank_ne hrank.ne', Nat.compare_eq_gt.2 hrank] at hle
    exact absurd hle (by simp)

theorem eq_mul_of_cost_eq {e k : Expr α} (hc : Canonical e) (hk : k ∈ e.inner)
    (hcost : cost true k = cost true e) (hpos : 0 < cost true k) : ∃ v, e = mul [num v, k] := by
  obtain ⟨-, v, es, rfl, hperm⟩ := hc.tight.eq_mul_of_cost_eq hk hcost hpos
  exact ⟨v, congrArg mul (eq_pair_of_canonical hc hperm)⟩

theorem Tight.inner_filter {e : Expr α} {p : Expr α → Bool} (ht : Tight e) (hpos : 0 < cost true e)
    (hp : ∀ k ∈ e.inner, p k = true → cost true k = cost true e) :
    (e.inner.filter p).Sublist e.args ∧ (e.inner.filter p).length ≤ 1 := by
  by_cases hany : ∃ k ∈ e.inner, p k = true
  · obtain ⟨k, hk, hpk⟩ := hany
    have hcost := hp k hk hpk
    obtain ⟨hflat, v, es, rfl, hperm⟩ := ht.eq_mul_of_cost_eq hk hcost (hcost ▸ hpos)
    have hkmem : k ∈ es := hperm.mem_iff.2 (by simp)
    have hbelow : k.inner.filter p = [] := by
      refine List.filter_eq_nil_iff.2 fun j hj hpj => ?_
      obtain ⟨b, hb, hjb⟩ := mem_inner.1 hj
      have hlt := (ht.args hkmem).node.cost_arg_lt hb hflat
      have hle : cost true j ≤ cost true b := cost_subterm_le hjb
      have := hp j (mem_inner.2 ⟨k, hkmem, subterms_eq_inner k ▸ List.mem_cons_of_mem k hj⟩) hpj
      omega
    have hself : k.subterms.filter p = [k] := by
      rw [subterms_eq_inner, List.filter_cons_of_pos hpk, hbelow]
    have hnum : (num v : Expr α).subterms.filter p = [] := by
      refine List.filter_eq_nil_iff.2 fun j hj hpj => ?_
      have hj' : j ∈ (mul es).inner := mem_inner.2 ⟨num v, hperm.mem_iff.2 (by simp), hj⟩
      rw [subterms_of_leaf rfl, List.mem_singleton] at hj
      have := hp j hj' hpj
      rw [hj, cost] at this
      omega
    rcases List.perm_pair.1 hperm with rfl | rfl
    · simp [inner, Expr.args, hself, hnum]
    · simp [inner, Expr.args, hself, hnum]
  · have hnil : e.inner.filter p = [] := List.filter_eq_nil_iff.2 fun k hk hpk => hany ⟨k, hk, hpk⟩
    rw [hnil]
    exact ⟨List.nil_sublist _, Nat.zero_le 1⟩

theorem isMinusOne_of_cost_eq {k : Expr α} {v : α} (hk : k.isOperation = true)
    (hcost : cost true k = cost true (mul [num v, k])) : Arithmetic.isMinusOne v = true := by
  have hnot : k.isMinusOne = false := by
    cases k <;> simp_all [isOperation, isLeaf, isMinusOne, number?]
  rw [cost, costAll, costAll, costAll, List.countP_cons, List.countP_cons, List.countP_nil,
    hnot] at hcost
  by_contra hv
  have hv : (num v : Expr α).isMinusOne = false := by simpa [isMinusOne, number?] using hv
  simp [hv] at hcost
  omega

end Stencil.Expr
