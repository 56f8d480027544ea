import Mathlib.Data.List.Forall2
import Stencil.Expr.Order

namespace Stencil

theorem then_chain {x₁ x₂ x₃ y₁ y₂ y₃ : Ordering}
    (hx : x₁.isLE → x₂.isLE → x₃ = x₁.then x₂) (hy : y₁.isLE → y₂.isLE → y₃ = y₁.then y₂) :
    (x₁.then y₁).isLE → (x₂.then y₂).isLE → x₃.then y₃ = (x₁.then y₁).then (x₂.then y₂) := by
  cases x₁ <;> cases x₂ <;> simp_all
  cases y₁ <;> cases y₂ <;> simp_all

theorem then_lt {x : Ordering} (h : x.isLE) : x.then .lt = .lt := by
  cases x <;> simp_all

def Chains {β : Type} (cmp : β → β → Ordering) (a : β) : Prop :=
  ∀ b c, (cmp a b).isLE → (cmp b c).isLE → cmp a c = (cmp a b).then (cmp b c)

theorem swap_of_orientedCmp {β : Type} (cmp : β → β → Ordering) [Std.OrientedCmp cmp] (a b : β) :
    cmp b a = (cmp a b).swap :=
  Std.OrientedCmp.eq_swap

theorem chains_of_transCmp {β : Type} (cmp : β → β → Ordering) [Std.TransCmp cmp] (a : β) :
    Chains cmp a := by
  intro b c hab hbc
  cases h : cmp a b with
  | lt => exact Std.TransCmp.lt_of_lt_of_isLE h hbc
  | eq => exact Std.TransCmp.congr_left h
  | gt => simp [h] at hab

theorem transCmp_of_chains {β : Type} {cmp : β → β → Ordering}
    (hswap : ∀ a b, cmp b a = (cmp a b).swap) (h : ∀ a, Chains cmp a) : Std.TransCmp cmp where
  eq_swap {a b} := hswap b a
  isLE_trans {a b c} hab hbc := by
    rw [h a b c hab hbc]
    cases h₁ : cmp a b with
    | lt => rfl
    | eq => exact hbc
    | gt => simp [h₁] at hab

section lexCmp

variable {β : Type} {cmp : β → β → Ordering}

theorem lexCmp_swap {as : List β} (h : ∀ a ∈ as, ∀ b, cmp b a = (cmp a b).swap) (bs : List β) :
    lexCmp cmp bs as = (lexCmp cmp as bs).swap := by
  induction as generalizing bs with
  | nil => cases bs <;> rfl
  | cons a as ih =>
    cases bs with
    | nil => rfl
    | cons b bs =>
      simp only [lexCmp, Ordering.swap_then]
      rw [h a List.mem_cons_self b, ih (fun x hx => h x (List.mem_cons_of_mem a hx))]

theorem lexCmp_eq_iff {r : β → β → Prop} {as : List β}
    (h : ∀ a ∈ as, ∀ b, cmp a b = .eq ↔ r a b) (bs : List β) :
    lexCmp cmp as bs = .eq ↔ List.Forall₂ r as bs := by
  induction as generalizing bs with
  | nil => cases bs <;> simp [lexCmp]
  | cons a as ih =>
    cases bs with
    | nil => simp [lexCmp]
    | cons b bs =>
      rw [lexCmp, Ordering.then_eq_eq, h a List.mem_cons_self b,
        ih (fun x hx => h x (List.mem_cons_of_mem a hx)), List.forall₂_cons]

theorem lexCmp_map {f : β → β} {as : List β} (h : ∀ a ∈ as, ∀ b, cmp (f a) (f b) = cmp a b)
    (bs : List β) : lexCmp cmp (as.map f) (bs.map f) = lexCmp cmp as bs := by
  induction as generalizing bs with
  | nil => cases bs <;> rfl
  | cons a as ih =>
    cases bs with
    | nil => rfl
    | cons b bs =>
      simp only [List.map_cons, lexCmp, h a List.mem_cons_self,
        ih fun c hc => h c (List.mem_cons_of_mem a hc)]

theorem lexCmp_chains {as : List β} (h : ∀ a ∈ as, Chains cmp a) : Chains (lexCmp cmp) as := by
  induction as with
  | nil =>
    intro bs cs hab hbc
    cases bs <;> cases cs <;> simp_all [lexCmp]
  | cons a as ih =>
    intro bs cs hab hbc
    cases bs with
    | nil => simp [lexCmp] at hab
    | cons b bs =>
      cases cs with
      | nil => simp [lexCmp] at hbc
      | cons c cs =>
        have htail := ih fun x hx => h x (List.mem_cons_of_mem a hx)
        exact then_chain (h a List.mem_cons_self b c) (htail bs cs) hab hbc

instance [Std.TransCmp cmp] : Std.TransCmp (lexCmp cmp) :=
  transCmp_of_chains (fun _ => lexCmp_swap fun _ _ _ => Std.OrientedCmp.eq_swap)
    fun _ => lexCmp_chains fun a _ => chains_of_transCmp cmp a

instance [Std.LawfulEqCmp cmp] : Std.LawfulEqCmp (lexCmp cmp) where
  compare_self := (lexCmp_eq_iff (r := Eq) (fun _ _ _ => Std.LawfulEqCmp.compare_eq_iff_eq)
    _).2 (List.forall₂_same.2 fun _ _ => rfl)
  eq_of_compare {_ bs} h := List.forall₂_eq_eq_eq ▸
    (lexCmp_eq_iff (r := Eq) (fun _ _ _ => Std.LawfulEqCmp.compare_eq_iff_eq) bs).1 h

end lexCmp

theorem transCmp_then {β γ δ : Type} {f : δ → β} {g : δ → γ} {cmp₁ : β → β → Ordering}
    {cmp₂ : γ → γ → Ordering} [Std.TransCmp cmp₁] [Std.TransCmp cmp₂] :
    Std.TransCmp fun a b => (cmp₁ (f a) (f b)).then (cmp₂ (g a) (g b)) :=
  transCmp_of_chains
    (fun a b => by
      rw [Ordering.swap_then, ← Std.OrientedCmp.eq_swap, ← Std.OrientedCmp.eq_swap])
    fun a b c => then_chain (chains_of_transCmp cmp₁ (f a) (f b) (f c))
      (chains_of_transCmp cmp₂ (g a) (g b) (g c))

theorem lawfulEqCmp_then {β γ δ : Type} {f : δ → β} {g : δ → γ} {cmp₁ : β → β → Ordering}
    {cmp₂ : γ → γ → Ordering} [Std.LawfulEqCmp cmp₁] [Std.LawfulEqCmp cmp₂]
    (h : ∀ a b, f a = f b → g a = g b → a = b) :
    Std.LawfulEqCmp fun a b => (cmp₁ (f a) (f b)).then (cmp₂ (g a) (g b)) where
  compare_self := by simp
  eq_of_compare {a b} hab := by
    rw [Ordering.then_eq_eq, Std.LawfulEqCmp.compare_eq_iff_eq,
      Std.LawfulEqCmp.compare_eq_iff_eq] at hab
    exact h a b hab.1 hab.2

namespace DimensionKind

instance : Std.TransCmp DimensionKind.cmp where
  eq_swap {a b} := by cases a <;> cases b <;> rfl
  isLE_trans {a b c} := by cases a <;> cases b <;> cases c <;> decide

instance : Std.LawfulEqCmp DimensionKind.cmp where
  compare_self {a} := by cases a <;> rfl
  eq_of_compare {a b} := by cases a <;> cases b <;> decide

end DimensionKind

namespace Dimension

instance : Std.TransCmp Dimension.cmp := transCmp_then (f := name) (g := kind)

instance : Std.LawfulEqCmp Dimension.cmp :=
  lawfulEqCmp_then (f := name) (g := kind) fun a b hf hg => by
    cases a
    cases b
    simp_all

end Dimension

namespace Index

theorem cmp_swap (a b : Index) : b.cmp a = (a.cmp b).swap := by
  cases a with
  | const x =>
    cases b with
    | const y => exact swap_of_orientedCmp compare x y
    | affine d o => rfl
  | affine d o =>
    cases b with
    | const y => rfl
    | affine d' o' =>
      rw [Index.cmp, Index.cmp, Ordering.swap_then, swap_of_orientedCmp Dimension.cmp d,
        swap_of_orientedCmp compare o]

theorem cmp_chains (a : Index) : Chains Index.cmp a := by
  intro b c hab hbc
  cases a with
  | const x =>
    cases b with
    | const y =>
      cases c with
      | const z => exact chains_of_transCmp compare x y z hab hbc
      | affine d o => exact (then_lt hab).symm
    | affine d o =>
      cases c with
      | const z => simp [Index.cmp] at hbc
      | affine d' o' => rfl
  | affine d o =>
    cases b with
    | const y => simp [Index.cmp] at hab
    | affine d' o' =>
      cases c with
      | const z => simp [Index.cmp] at hbc
      | affine d'' o'' =>
        exact then_chain (chains_of_transCmp Dimension.cmp d d' d'')
          (chains_of_transCmp compare o o' o'') hab hbc

instance : Std.TransCmp Index.cmp := transCmp_of_chains cmp_swap cmp_chains

instance : Std.LawfulEqCmp Index.cmp where
  compare_self {a} := by cases a <;> simp [Index.cmp]
  eq_of_compare {a b} h := by
    cases a <;> cases b <;> simp_all [Index.cmp, Ordering.then_eq_eq,
      Std.LawfulEqCmp.compare_eq_iff_eq]

end Index

namespace FieldKind

instance : Std.TransCmp fun (a b : Nat × Nat) => (compare a.1 b.1).then (compare a.2 b.2) :=
  transCmp_then (f := Prod.fst) (g := Prod.snd)

instance : Std.LawfulEqCmp fun (a b : Nat × Nat) => (compare a.1 b.1).then (compare a.2 b.2) :=
  lawfulEqCmp_then (f := Prod.fst) (g := Prod.snd) fun _ _ => Prod.ext

theorem cmp_swap (a b : FieldKind) : b.cmp a = (a.cmp b).swap := by
  cases a with
  | input => cases b <;> rfl
  | temporary h =>
    cases b with
    | input => rfl
    | temporary h' => exact swap_of_orientedCmp (lexCmp _) h h'

theorem cmp_chains (a : FieldKind) : Chains FieldKind.cmp a := by
  intro b c hab hbc
  cases a with
  | input => cases b <;> cases c <;> simp_all [FieldKind.cmp]
  | temporary h =>
    cases b with
    | input => simp [FieldKind.cmp] at hab
    | temporary h' =>
      cases c with
      | input => simp [FieldKind.cmp] at hbc
      | temporary h'' => exact chains_of_transCmp (lexCmp _) h h' h'' hab hbc

instance : Std.TransCmp FieldKind.cmp := transCmp_of_chains cmp_swap cmp_chains

instance : Std.LawfulEqCmp FieldKind.cmp where
  compare_self {a} := by
    cases a with
    | input => rfl
    | temporary h => exact Std.ReflCmp.compare_self
  eq_of_compare {a b} h := by
    cases a with
    | input => cases b <;> simp_all [FieldKind.cmp]
    | temporary g =>
      cases b with
      | input => simp [FieldKind.cmp] at h
      | temporary g' => exact congrArg temporary (Std.LawfulEqCmp.eq_of_compare h)

end FieldKind

namespace Field

instance : Std.TransCmp Field.cmp := transCmp_then (f := name) (g := kind)

instance : Std.LawfulEqCmp Field.cmp :=
  lawfulEqCmp_then (f := name) (g := kind) fun a b hf hg => by
    cases a
    cases b
    simp_all

end Field

namespace Access

instance : Std.TransCmp Access.cmp := transCmp_then (f := field) (g := indices)

instance : Std.LawfulEqCmp Access.cmp :=
  lawfulEqCmp_then (f := field) (g := indices) fun a b hf hg => by
    cases a
    cases b
    simp_all

end Access

namespace Intrinsic

instance : Std.TransCmp Intrinsic.cmp where
  eq_swap {f g} := swap_of_orientedCmp compare g.rank f.rank
  isLE_trans {_ _ _} hab hbc := Std.TransOrd.isLE_trans hab hbc

instance : Std.LawfulEqCmp Intrinsic.cmp where
  compare_self := Std.ReflOrd.compare_self
  eq_of_compare h := rank_injective (Std.LawfulEqCmp.eq_of_compare h)

end Intrinsic

end Stencil
