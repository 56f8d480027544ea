import Stencil.Proofs.Expr.Denotation
import Stencil.Proofs.Lawful

namespace Stencil.Expr

variable {α : Type} [Arithmetic α]

theorem beqInduct {P : Expr α → Expr α → Prop}
    (num : ∀ u v, Arithmetic.same u v = true → P (num u) (num v))
    (sym : ∀ s, P (sym s) (sym s)) (access : ∀ x, P (access x) (access x))
    (add : ∀ as bs, List.Forall₂ (fun a b => (a == b) = true ∧ P a b) as bs → P (add as) (add bs))
    (mul : ∀ as bs, List.Forall₂ (fun a b => (a == b) = true ∧ P a b) as bs → P (mul as) (mul bs))
    (pow : ∀ b x c y, (b == c) = true ∧ P b c → (x == y) = true ∧ P x y → P (pow b x) (pow c y))
    (call : ∀ f as bs, List.Forall₂ (fun a b => (a == b) = true ∧ P a b) as bs →
      P (call f as) (call f bs))
    {a b : Expr α} (h : (a == b) = true) : P a b := by
  have hall : ∀ {as bs : List (Expr α)}, (∀ a ∈ as, ∀ b, (a == b) = true → P a b) →
      beqAll as bs = true → List.Forall₂ (fun a b => (a == b) = true ∧ P a b) as bs := by
    intro as bs ih h
    refine (List.forall₂_iff_zip.2 ⟨(beqAll_iff.1 h).length_eq, fun {a b} hab => ?_⟩)
    have hbeq := (List.forall₂_iff_zip.1 (beqAll_iff.1 h)).2 hab
    exact ⟨hbeq, ih a (List.of_mem_zip hab).1 b hbeq⟩
  induction a using induct generalizing b with
  | num u =>
    cases b with
    | num v => exact num u v h
    | _ => exact absurd (rank_eq_of_beq h) (by simp [rank])
  | sym s =>
    cases b with
    | sym t => exact beq_iff_eq.1 (show (s == t) = true from h) ▸ sym s
    | _ => exact absurd (rank_eq_of_beq h) (by simp [rank])
  | access x =>
    cases b with
    | access y => exact beq_iff_eq.1 (show (x == y) = true from h) ▸ access x
    | _ => exact absurd (rank_eq_of_beq h) (by simp [rank])
  | add as ih =>
    cases b with
    | add bs => exact add as bs (hall ih h)
    | _ => exact absurd (rank_eq_of_beq h) (by simp [rank])
  | mul as ih =>
    cases b with
    | mul bs => exact mul as bs (hall ih h)
    | _ => exact absurd (rank_eq_of_beq h) (by simp [rank])
  | pow x y hx hy =>
    cases b with
    | pow x' y' =>
      obtain ⟨h₁, h₂⟩ := Bool.and_eq_true_iff.1 (show (x.beq x' && y.beq y') = true from h)
      exact pow x y x' y' ⟨h₁, hx h₁⟩ ⟨h₂, hy h₂⟩
    | _ => exact absurd (rank_eq_of_beq h) (by simp [rank])
  | call f as ih =>
    cases b with
    | call g bs =>
      obtain ⟨h₁, h₂⟩ := Bool.and_eq_true_iff.1 (show (f == g && beqAll as bs) = true from h)
      exact beq_iff_eq.1 h₁ ▸ call f as bs (hall ih h₂)
    | _ => exact absurd (rank_eq_of_beq h) (by simp [rank])

theorem sym_beq {t : String} {e : Expr α} : (sym t == e) = true ↔ e = sym t := by
  constructor
  · intro h
    cases e with
    | sym s => rw [beq_iff_eq.1 (show (t == s) = true from h)]
    | _ => exact absurd (rank_eq_of_beq h) (by simp [rank])
  · rintro rfl
    exact beq_self_eq_true t

omit [Arithmetic α] in
theorem inputs_eq_flatMap {e : Expr α} (he : e.isInput = false) :
    e.inputs = e.args.flatMap inputs := by
  unfold inputs
  rw [subterms_eq, List.filter_cons_of_neg (by simp [he]), List.filter_flatMap]

theorem inputs_congr {a b : Expr α} (h : (a == b) = true) : a.inputs = b.inputs := by
  have hall : ∀ {as bs : List (Expr α)},
      List.Forall₂ (fun a b => (a == b) = true ∧ a.inputs = b.inputs) as bs →
        as.flatMap inputs = bs.flatMap inputs := by
    intro as bs h
    induction h with
    | nil => rfl
    | cons hab _ ih => rw [List.flatMap_cons, List.flatMap_cons, hab.2, ih]
  refine beqInduct (P := fun a b => a.inputs = b.inputs) (fun _ _ _ => rfl) (fun _ => rfl)
    (fun _ => rfl) (fun as bs h => ?_) (fun as bs h => ?_) (fun b x c y hb hx => ?_)
    (fun f as bs h => ?_) h
  · rw [inputs_eq_flatMap rfl, inputs_eq_flatMap rfl]
    exact hall h
  · rw [inputs_eq_flatMap rfl, inputs_eq_flatMap rfl]
    exact hall h
  · rw [inputs_eq_flatMap rfl, inputs_eq_flatMap rfl]
    simp [args, hb.2, hx.2]
  · rw [inputs_eq_flatMap rfl, inputs_eq_flatMap rfl]
    exact hall h

omit [Arithmetic α] in
theorem accesses_eq_inputs (e : Expr α) : e.accesses = e.inputs.filterMap access? := by
  rw [accesses, inputs, List.filterMap_filter]
  refine List.filterMap_congr fun t _ => ?_
  cases t <;> rfl

theorem accesses_congr {a b : Expr α} (h : (a == b) = true) : a.accesses = b.accesses := by
  rw [accesses_eq_inputs, accesses_eq_inputs, inputs_congr h]

variable [LawfulLiterals α]

instance : EquivBEq (Expr α) where
  rfl {a} := (cmp_eq_iff a a).1 Std.ReflCmp.compare_self
  symm {a b} h := by
    rw [← cmp_eq_iff] at h ⊢
    rw [cmp_swap, h]
    rfl
  trans {a b c} h h' := by
    rw [← cmp_eq_iff] at h h' ⊢
    exact Std.TransCmp.eq_trans h h'

instance setoid (α : Type) [Arithmetic α] [LawfulLiterals α] : Setoid (Expr α) where
  r a b := (a == b) = true
  iseqv := ⟨fun _ => BEq.rfl, BEq.symm, BEq.trans⟩

def Kind (α : Type) [Arithmetic α] [LawfulLiterals α] : Type := Quotient (setoid α)

def kind (e : Expr α) : Kind α := Quotient.mk _ e

theorem kind_eq {a b : Expr α} : a.kind = b.kind ↔ (a == b) = true := Quotient.eq

theorem map_kind_eq {as bs : List (Expr α)} :
    as.map kind = bs.map kind ↔ List.Forall₂ (fun a b => (a == b) = true) as bs := by
  rw [← List.forall₂_eq_eq_eq, List.forall₂_map_left_iff, List.forall₂_map_right_iff]
  simp only [kind_eq]

theorem kind_add {as bs : List (Expr α)} :
    (add as).kind = (add bs).kind ↔ as.map kind = bs.map kind := by
  rw [kind_eq, map_kind_eq]
  exact beqAll_iff

theorem kind_mul {as bs : List (Expr α)} :
    (mul as).kind = (mul bs).kind ↔ as.map kind = bs.map kind := by
  rw [kind_eq, map_kind_eq]
  exact beqAll_iff

theorem kind_pow {b x c y : Expr α} :
    (pow b x).kind = (pow c y).kind ↔ b.kind = c.kind ∧ x.kind = y.kind := by
  rw [kind_eq, kind_eq, kind_eq, ← Bool.and_eq_true_iff]
  rfl

theorem kind_call {f g : Intrinsic} {as bs : List (Expr α)} :
    (call f as).kind = (call g bs).kind ↔ f = g ∧ as.map kind = bs.map kind := by
  rw [kind_eq, map_kind_eq, ← beqAll_iff, ← beq_iff_eq (a := f), ← Bool.and_eq_true_iff]
  rfl

theorem kind_num {u v : α} : (num u).kind = (num v).kind ↔ Arithmetic.same u v = true := kind_eq

theorem rank_of_kind {a b : Expr α} (h : a.kind = b.kind) : a.rank = b.rank :=
  rank_eq_of_beq (kind_eq.1 h)

theorem args_of_kind {a b : Expr α} (h : a.kind = b.kind) :
    a.args.map kind = b.args.map kind := by
  have hmap : ∀ {as bs : List (Expr α)},
      List.Forall₂ (fun a b => (a == b) = true ∧ True) as bs → as.map kind = bs.map kind :=
    fun h => map_kind_eq.2 (h.imp fun _ _ h => h.1)
  refine beqInduct (P := fun a b => a.args.map kind = b.args.map kind) ?_ ?_ ?_ ?_ ?_ ?_ ?_
    (kind_eq.1 h)
  · exact fun _ _ _ => rfl
  · exact fun _ => rfl
  · exact fun _ => rfl
  · exact fun _ _ h => hmap (h.imp fun _ _ h => ⟨h.1, trivial⟩)
  · exact fun _ _ h => hmap (h.imp fun _ _ h => ⟨h.1, trivial⟩)
  · rintro b x c y ⟨hb, -⟩ ⟨hx, -⟩
    simp only [args, List.map_cons, List.map_nil, kind_eq.2 hb, kind_eq.2 hx]
  · exact fun _ _ _ h => hmap (h.imp fun _ _ h => ⟨h.1, trivial⟩)

section Order

theorem le_congr {a a' b b' : Expr α} (ha : (a == a') = true) (hb : (b == b') = true) :
    a.le b = a'.le b' := by
  rw [← cmp_eq_iff] at ha hb
  rw [le, le, Std.TransCmp.congr_left ha, Std.TransCmp.congr_right hb]

def Kind.le : Kind α → Kind α → Prop :=
  Quotient.lift₂ (fun a b => a.le b = true) fun _ _ _ _ ha hb => by rw [le_congr ha hb]

theorem Kind.le_antisymm {k l : Kind α} (h : k.le l) (h' : l.le k) : k = l := by
  induction k using Quotient.ind with
  | _ a =>
  induction l using Quotient.ind with
  | _ b =>
    have hab : a.le b = true := h
    have hba : b.le a = true := h'
    refine kind_eq.2 ((cmp_eq_iff a b).1 ?_)
    rw [Expr.le, cmp_swap a b] at hba
    rw [Expr.le] at hab
    cases hc : a.cmp b <;> simp_all

theorem map_kind_of_perm {as bs : List (Expr α)} (ha : as.Pairwise fun a b => a.le b = true)
    (hb : bs.Pairwise fun a b => a.le b = true) (h : (as.map kind).Perm (bs.map kind)) :
    as.map kind = bs.map kind := by
  refine List.Perm.eq_of_pairwise (fun _ _ _ _ h h' => Kind.le_antisymm h h') ?_ ?_ h
  · exact List.pairwise_map.2 ha
  · exact List.pairwise_map.2 hb

theorem map_kind_sort {as bs : List (Expr α)} (h : (as.map kind).Perm (bs.map kind)) :
    (sort as).map kind = (sort bs).map kind := by
  refine map_kind_of_perm (sort_pairwise as) (sort_pairwise bs) ?_
  exact ((sort_perm as).map kind).trans (h.trans ((sort_perm bs).map kind).symm)

end Order

end Stencil.Expr
