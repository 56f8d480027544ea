import Stencil.Proofs.Expr.Order

namespace Stencil

class LawfulLiterals (α : Type) [Arithmetic α] : Prop where
  transCmp : Std.TransCmp (Arithmetic.cmp : α → α → Ordering)
  cmp_eq_iff : ∀ a b : α, Arithmetic.cmp a b = .eq ↔ Arithmetic.same a b = true

namespace Expr

variable {α : Type} [Arithmetic α]

theorem cmp_of_rank_ne {a b : Expr α} (h : a.rank ≠ b.rank) :
    a.cmp b = compare a.rank b.rank := by
  cases a <;> cases b <;> first | rfl | exact absurd rfl h

theorem rank_le_of_isLE {a b : Expr α} (h : (a.cmp b).isLE) : a.rank ≤ b.rank := by
  by_cases hr : a.rank = b.rank
  · omega
  · rw [cmp_of_rank_ne hr] at h
    exact Nat.isLE_compare.1 h

theorem beq_of_rank_ne {a b : Expr α} (h : a.rank ≠ b.rank) : (a == b) = false := by
  cases a <;> cases b <;> first | rfl | exact absurd rfl h

theorem rank_eq_of_beq {a b : Expr α} (h : (a == b) = true) : a.rank = b.rank := by
  by_contra hr
  rw [beq_of_rank_ne hr] at h
  exact absurd h Bool.false_ne_true

theorem beqAll_iff {as bs : List (Expr α)} :
    beqAll as bs = true ↔ List.Forall₂ (fun a b => (a == b) = true) as bs := by
  induction as generalizing bs with
  | nil => cases bs <;> simp [beqAll]
  | cons a as ih =>
    cases bs with
    | nil => simp [beqAll]
    | cons b bs =>
      rw [beqAll, Bool.and_eq_true, ih, List.forall₂_cons]
      rfl

theorem cmp_add (as bs : List (Expr α)) : (add as).cmp (add bs) = lexCmp Expr.cmp as bs :=
  cmpAll_eq as bs

theorem cmp_mul (as bs : List (Expr α)) : (mul as).cmp (mul bs) = lexCmp Expr.cmp as bs :=
  cmpAll_eq as bs

theorem cmp_pow (x y x' y' : Expr α) :
    (pow x y).cmp (pow x' y') = (x.cmp x').then (y.cmp y') := rfl

theorem cmp_call (f g : Intrinsic) (as bs : List (Expr α)) :
    (call f as).cmp (call g bs) = (f.cmp g).then (lexCmp Expr.cmp as bs) := by
  rw [← cmpAll_eq]
  rfl

theorem cmp_eq_iff_of_rank_ne {a b : Expr α} (h : a.rank ≠ b.rank) :
    a.cmp b = .eq ↔ (a == b) = true := by
  rw [cmp_of_rank_ne h, beq_of_rank_ne h]
  simp [h]

theorem cmp_swap_of_rank_ne {a b : Expr α} (h : a.rank ≠ b.rank) : b.cmp a = (a.cmp b).swap := by
  rw [cmp_of_rank_ne h, cmp_of_rank_ne (Ne.symm h)]
  exact Std.OrientedOrd.eq_swap

theorem cmp_chain_of_rank_ne {a b c : Expr α} (h : a.rank ≠ b.rank ∨ b.rank ≠ c.rank)
    (hab : (a.cmp b).isLE) (hbc : (b.cmp c).isLE) : a.cmp c = (a.cmp b).then (b.cmp c) := by
  have hle := rank_le_of_isLE hab
  have hle' := rank_le_of_isLE hbc
  have hac : a.rank < c.rank := by omega
  have hlt : a.cmp c = .lt := by
    rw [cmp_of_rank_ne (by omega), Nat.compare_eq_lt]
    exact hac
  rw [hlt]
  by_cases hr : a.rank = b.rank
  · have hbc' : b.cmp c = .lt := by
      rw [cmp_of_rank_ne (by omega), Nat.compare_eq_lt]
      omega
    rw [hbc', then_lt hab]
  · have hab' : a.cmp b = .lt := by
      rw [cmp_of_rank_ne hr, Nat.compare_eq_lt]
      omega
    rw [hab']
    rfl

theorem chains_of_same_rank {a : Expr α} (h : ∀ b c : Expr α, a.rank = b.rank → b.rank = c.rank →
    (a.cmp b).isLE → (b.cmp c).isLE → a.cmp c = (a.cmp b).then (b.cmp c)) :
    Chains Expr.cmp a := by
  intro b c hab hbc
  by_cases hr : a.rank = b.rank ∧ b.rank = c.rank
  · exact h b c hr.1 hr.2 hab hbc
  · exact cmp_chain_of_rank_ne (by omega) hab hbc

variable [LawfulLiterals α]

theorem cmp_eq_iff (a b : Expr α) : a.cmp b = .eq ↔ (a == b) = true := by
  induction a using induct generalizing b with
  | num u =>
    cases b with
    | num v => exact LawfulLiterals.cmp_eq_iff u v
    | _ => exact cmp_eq_iff_of_rank_ne (by simp [rank])
  | sym s =>
    cases b with
    | sym t => exact Std.LawfulEqOrd.compare_eq_iff_eq.trans beq_iff_eq.symm
    | _ => exact cmp_eq_iff_of_rank_ne (by simp [rank])
  | access x =>
    cases b with
    | access y =>
      have h : x.cmp y = .eq ↔ x = y := Std.LawfulEqCmp.compare_eq_iff_eq
      exact h.trans (beq_iff_eq (a := x)).symm
    | _ => exact cmp_eq_iff_of_rank_ne (by simp [rank])
  | add as ih =>
    cases b with
    | add bs =>
      rw [cmp_add, lexCmp_eq_iff ih]
      exact beqAll_iff.symm
    | _ => exact cmp_eq_iff_of_rank_ne (by simp [rank])
  | mul as ih =>
    cases b with
    | mul bs =>
      rw [cmp_mul, lexCmp_eq_iff ih]
      exact beqAll_iff.symm
    | _ => exact cmp_eq_iff_of_rank_ne (by simp [rank])
  | pow x y hx hy =>
    cases b with
    | pow x' y' =>
      rw [cmp_pow, Ordering.then_eq_eq, hx, hy, ← Bool.and_eq_true]
      rfl
    | _ => exact cmp_eq_iff_of_rank_ne (by simp [rank])
  | call f as ih =>
    cases b with
    | call g bs =>
      have hf : f.cmp g = .eq ↔ (f == g) = true :=
        Std.LawfulEqCmp.compare_eq_iff_eq.trans beq_iff_eq.symm
      rw [cmp_call, Ordering.then_eq_eq, hf, lexCmp_eq_iff ih, ← beqAll_iff, ← Bool.and_eq_true]
      rfl
    | _ => exact cmp_eq_iff_of_rank_ne (by simp [rank])

theorem cmp_swap (a b : Expr α) : b.cmp a = (a.cmp b).swap := by
  induction a using induct generalizing b with
  | num u =>
    cases b with
    | num v => exact LawfulLiterals.transCmp.eq_swap
    | _ => exact cmp_swap_of_rank_ne (by simp [rank])
  | sym s =>
    cases b with
    | sym t => exact swap_of_orientedCmp compare s t
    | _ => exact cmp_swap_of_rank_ne (by simp [rank])
  | access x =>
    cases b with
    | access y => exact swap_of_orientedCmp Access.cmp x y
    | _ => exact cmp_swap_of_rank_ne (by simp [rank])
  | add as ih =>
    cases b with
    | add bs =>
      rw [cmp_add, cmp_add]
      exact lexCmp_swap ih bs
    | _ => exact cmp_swap_of_rank_ne (by simp [rank])
  | mul as ih =>
    cases b with
    | mul bs =>
      rw [cmp_mul, cmp_mul]
      exact lexCmp_swap ih bs
    | _ => exact cmp_swap_of_rank_ne (by simp [rank])
  | pow x y hx hy =>
    cases b with
    | pow x' y' => rw [cmp_pow, cmp_pow, Ordering.swap_then, hx, hy]
    | _ => exact cmp_swap_of_rank_ne (by simp [rank])
  | call f as ih =>
    cases b with
    | call g bs =>
      rw [cmp_call, cmp_call, Ordering.swap_then, swap_of_orientedCmp Intrinsic.cmp f,
        lexCmp_swap ih]
    | _ => exact cmp_swap_of_rank_ne (by simp [rank])

theorem cmp_chains (a : Expr α) : Chains Expr.cmp a := by
  induction a using induct with
  | num u =>
    have := LawfulLiterals.transCmp (α := α)
    refine chains_of_same_rank fun b c hb hc hab hbc => ?_
    cases b <;> simp [rank] at hb
    cases c <;> simp [rank] at hc
    exact chains_of_transCmp Arithmetic.cmp u _ _ hab hbc
  | sym s =>
    refine chains_of_same_rank fun b c hb hc hab hbc => ?_
    cases b <;> simp [rank] at hb
    cases c <;> simp [rank] at hc
    exact chains_of_transCmp compare s _ _ hab hbc
  | access x =>
    refine chains_of_same_rank fun b c hb hc hab hbc => ?_
    cases b <;> simp [rank] at hb
    cases c <;> simp [rank] at hc
    exact chains_of_transCmp Access.cmp x _ _ hab hbc
  | add as ih =>
    refine chains_of_same_rank fun b c hb hc hab hbc => ?_
    cases b <;> simp [rank] at hb
    cases c <;> simp [rank] at hc
    rw [cmp_add] at hab hbc ⊢
    rw [cmp_add, cmp_add]
    exact lexCmp_chains ih _ _ hab hbc
  | mul as ih =>
    refine chains_of_same_rank fun b c hb hc hab hbc => ?_
    cases b <;> simp [rank] at hb
    cases c <;> simp [rank] at hc
    rw [cmp_mul] at hab hbc ⊢
    rw [cmp_mul, cmp_mul]
    exact lexCmp_chains ih _ _ hab hbc
  | pow x y hx hy =>
    refine chains_of_same_rank fun b c hb hc hab hbc => ?_
    cases b <;> simp [rank] at hb
    cases c <;> simp [rank] at hc
    exact then_chain (hx _ _) (hy _ _) hab hbc
  | call f as ih =>
    refine chains_of_same_rank fun b c hb hc hab hbc => ?_
    cases b <;> simp [rank] at hb
    cases c <;> simp [rank] at hc
    rw [cmp_call] at hab hbc ⊢
    rw [cmp_call, cmp_call]
    exact then_chain (chains_of_transCmp Intrinsic.cmp f _ _) (lexCmp_chains ih _ _) hab hbc

instance : Std.TransCmp (Expr.cmp : Expr α → Expr α → Ordering) :=
  transCmp_of_chains cmp_swap cmp_chains

theorem le_trans {a b c : Expr α} (hab : a.le b = true) (hbc : b.le c = true) :
    a.le c = true := by
  simp only [le, bne_iff_ne, ne_eq, ← Ordering.isLE_iff_ne_gt] at hab hbc ⊢
  exact Std.TransCmp.isLE_trans hab hbc

theorem le_total (a b : Expr α) : (a.le b || b.le a) = true := by
  rw [le, le, cmp_swap a b]
  cases a.cmp b <;> rfl

theorem sort_pairwise (es : List (Expr α)) : (sort es).Pairwise fun a b => a.le b = true := by
  have htrans (a b c : Expr α) : a.le b = true → b.le c = true → a.le c = true := le_trans
  exact List.pairwise_mergeSort htrans le_total es

omit [LawfulLiterals α] in
theorem sort_of_pairwise {es : List (Expr α)} (h : es.Pairwise fun a b => a.le b = true) :
    sort es = es :=
  List.mergeSort_of_pairwise h

omit [LawfulLiterals α] in
theorem sort_perm (es : List (Expr α)) : (sort es).Perm es := List.mergeSort_perm es le

end Expr

end Stencil
