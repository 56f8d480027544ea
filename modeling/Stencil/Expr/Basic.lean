import Stencil.Access
import Stencil.Arithmetic

namespace Stencil

inductive Expr (α : Type) where
  | num (value : α)
  | sym (name : String)
  | access (a : Access)
  | add (args : List (Expr α))
  | mul (args : List (Expr α))
  | pow (base exponent : Expr α)
  | call (f : Intrinsic) (args : List (Expr α))

namespace Expr

variable {α : Type}

instance : Inhabited (Expr α) := ⟨sym ""⟩

/-- Induction that gives every operand of a node its hypothesis. -/
@[elab_as_elim]
theorem induct {P : Expr α → Prop} (num : ∀ v, P (num v)) (sym : ∀ s, P (sym s))
    (access : ∀ a, P (access a)) (add : ∀ args, (∀ e ∈ args, P e) → P (add args))
    (mul : ∀ args, (∀ e ∈ args, P e) → P (mul args))
    (pow : ∀ b e, P b → P e → P (pow b e))
    (call : ∀ f args, (∀ e ∈ args, P e) → P (call f args)) (e : Expr α) : P e :=
  Expr.rec (motive_2 := fun args => ∀ e ∈ args, P e) num sym access add mul pow call
    (by simp) (fun _ _ h t e he => by
      rcases List.mem_cons.1 he with rfl | he
      · exact h
      · exact t e he) e

def args : Expr α → List (Expr α)
  | num _ | sym _ | access _ => []
  | add args | mul args | call _ args => args
  | pow b e => [b, e]

def isNumber : Expr α → Bool
  | num _ => true
  | _ => false

def isSymbol : Expr α → Bool
  | sym _ => true
  | _ => false

def isAccess : Expr α → Bool
  | access _ => true
  | _ => false

def number? : Expr α → Option α
  | num v => some v
  | _ => none

def symbol? : Expr α → Option String
  | sym s => some s
  | _ => none

def access? : Expr α → Option Access
  | access a => some a
  | _ => none

def integer? [Arithmetic α] (e : Expr α) : Option Int := e.number?.bind Arithmetic.integer?

mutual

/-- Computes bottom-up: `f` sees each node together with the results at its operands. -/
def fold {β : Type} (f : Expr α → List β → β) : Expr α → β
  | num v => f (num v) []
  | sym s => f (sym s) []
  | access a => f (access a) []
  | add args => f (add args) (foldAll f args)
  | mul args => f (mul args) (foldAll f args)
  | pow b e => f (pow b e) [b.fold f, e.fold f]
  | call g args => f (call g args) (foldAll f args)

def foldAll {β : Type} (f : Expr α → List β → β) : List (Expr α) → List β
  | [] => []
  | e :: r => e.fold f :: foldAll f r

end

theorem foldAll_eq {β : Type} (f : Expr α → List β → β) (es : List (Expr α)) :
    foldAll f es = es.map (fold f) := by
  induction es with
  | nil => rfl
  | cons e r ih => simp [foldAll, ih]

theorem fold_eq {β : Type} (f : Expr α → List β → β) (e : Expr α) :
    e.fold f = f e (e.args.map (fold f)) := by
  cases e <;> simp [fold, args, foldAll_eq]

def subterms : Expr α → List (Expr α) := fold fun e below => e :: below.flatten

theorem subterms_eq (e : Expr α) : e.subterms = e :: e.args.flatMap subterms := by
  rw [subterms, fold_eq]
  simp [List.flatMap_def]

theorem mem_subterms_self (e : Expr α) : e ∈ e.subterms := by simp [subterms_eq e]

def height : Expr α → Nat := fold fun _ below => below.foldl max 0 + 1

def accesses (e : Expr α) : List Access := e.subterms.filterMap access?

def symbols (e : Expr α) : List String := e.subterms.filterMap symbol?

def freeSymbols (e : Expr α) : List String :=
  e.symbols.eraseDups.mergeSort fun s t => compare s t != .gt

def dimensions (e : Expr α) : List Dimension := e.accesses.flatMap Access.dimensions

def freeDimensions (e : Expr α) : List Dimension :=
  e.dimensions.eraseDups.mergeSort fun d d' => d.cmp d' != .gt

def reads (e : Expr α) (s : String) : Bool := e.symbols.contains s

end Expr

end Stencil
