import Stencil.Expr.Basic

namespace Stencil.Expr

variable {α : Type} [Arithmetic α]

mutual

protected def beq : Expr α → Expr α → Bool
  | num a, num b => Arithmetic.same a b
  | sym s, sym t => s == t
  | access a, access b => a == b
  | add as, add bs => beqAll as bs
  | mul as, mul bs => beqAll as bs
  | pow b e, pow b' e' => Expr.beq b b' && Expr.beq e e'
  | call f as, call g bs => f == g && beqAll as bs
  | _, _ => false

def beqAll : List (Expr α) → List (Expr α) → Bool
  | [], [] => true
  | a :: as, b :: bs => Expr.beq a b && beqAll as bs
  | _, _ => false

end

instance : BEq (Expr α) := ⟨Expr.beq⟩

omit [Arithmetic α] in
def rank : Expr α → Nat
  | num _ => 0
  | sym _ => 1
  | access _ => 2
  | add _ => 3
  | mul _ => 4
  | pow _ _ => 5
  | call _ _ => 6

mutual

protected def cmp : Expr α → Expr α → Ordering
  | num a, num b => Arithmetic.cmp a b
  | sym s, sym t => compare s t
  | access a, access b => a.cmp b
  | add as, add bs => cmpAll as bs
  | mul as, mul bs => cmpAll as bs
  | pow b e, pow b' e' => (Expr.cmp b b').then (Expr.cmp e e')
  | call f as, call g bs => (f.cmp g).then (cmpAll as bs)
  | a, b => compare a.rank b.rank

def cmpAll : List (Expr α) → List (Expr α) → Ordering
  | [], [] => .eq
  | [], _ :: _ => .lt
  | _ :: _, [] => .gt
  | a :: as, b :: bs => (Expr.cmp a b).then (cmpAll as bs)

end

def le (a b : Expr α) : Bool := a.cmp b != .gt

def sort (es : List (Expr α)) : List (Expr α) := es.mergeSort le

def has (e needle : Expr α) : Bool := e.subterms.any (· == needle)

theorem cmpAll_eq (as bs : List (Expr α)) : cmpAll as bs = lexCmp Expr.cmp as bs := by
  induction as generalizing bs with
  | nil => cases bs <;> rfl
  | cons a as ih => cases bs <;> simp [cmpAll, lexCmp, ih]

end Stencil.Expr
