import Stencil.Pass.Scalar
import Stencil.Pass.Lifting

namespace Stencil

namespace Text

def blankRanges : List (Nat × Nat) :=
  [(0x09, 0x0D), (0x20, 0x20), (0x85, 0x85), (0xA0, 0xA0), (0x1680, 0x1680), (0x2000, 0x200A),
    (0x2028, 0x2029), (0x202F, 0x202F), (0x205F, 0x205F), (0x3000, 0x3000)]

def isBlank (c : Char) : Bool := blankRanges.any fun r => r.1 ≤ c.toNat && c.toNat ≤ r.2

def trim (s : String) : String :=
  let cs := s.toList.dropWhile isBlank
  String.ofList (cs.reverse.dropWhile isBlank).reverse

def split (sep : Char) (s : String) : List String :=
  (s.toList.splitOn sep).map String.ofList

end Text

inductive RecipeError where
  | unknownPass (name : String)
  | unknownMode (mode : String)
  deriving DecidableEq

namespace RecipeError

def message : RecipeError → String
  | unknownPass s => "Unknown passes `" ++ s ++ "`"
  | unknownMode s => "Unknown rewriter mode `" ++ s ++ "`"

end RecipeError

inductive Pass where
  | sumsOfProducts
  | factorize
  | aliases
  | subexpressions
  | invariants
  | increments
  | trigonometry
  deriving DecidableEq

namespace Pass

def all : List Pass :=
  [sumsOfProducts, factorize, aliases, subexpressions, invariants, increments, trigonometry]

def name : Pass → String
  | sumsOfProducts => "extract_sop"
  | factorize => "factorize"
  | aliases => "gcse"
  | subexpressions => "cse"
  | invariants => "extract_invariants"
  | increments => "extract_increments"
  | trigonometry => "opt_transcedentals"

def ofName? (s : String) : Except RecipeError Pass :=
  match all.find? fun p => p.name == Text.trim s with
  | some p => .ok p
  | none => .error (.unknownPass s)

theorem name_injective {p q : Pass} (h : p.name = q.name) : p = q := by
  cases p <;> cases q <;> simp_all [name]

variable {α : Type} [Arithmetic α]

def run (config : Config) (c : Cluster α) : Pass → StateM Names (List (Cluster α))
  | sumsOfProducts => do return [← ScalarPass.extractSumsOfProducts c]
  | factorize => return [ScalarPass.factorize config c]
  | aliases => Lifting.lift config c
  | subexpressions => do return [← ScalarPass.shareSubexpressions c]
  | invariants => do return [← ScalarPass.extractInvariants config c]
  | increments => do return [← ScalarPass.extractIncrements c]
  | trigonometry => return [ScalarPass.approximateTrigonometry c]

end Pass

inductive Recipe where
  | noop
  | basic
  | advanced
  | aggressive
  | custom (passes : List Pass)
  deriving DecidableEq

namespace Recipe

def passes : Recipe → List Pass
  | noop => []
  | basic => [.increments]
  | advanced => [.invariants, .aliases, .subexpressions, .factorize]
  | aggressive =>
    [.sumsOfProducts, .invariants, .aliases, .sumsOfProducts, .aliases, .sumsOfProducts,
      .factorize, .subexpressions]
  | custom ps => ps

def ofNames (names : List String) : Except RecipeError Recipe :=
  let found := names.map fun s => (s, (Pass.ofName? s).toOption)
  match (found.filter (·.2.isNone)).map (·.1) with
  | [] => .ok (custom (found.filterMap (·.2)))
  | unknown => .error (.unknownPass (",".intercalate unknown))

/-- A pipeline by its name, or a list of pass names with commas between them. -/
def ofText (s : String) : Except RecipeError Recipe :=
  match Text.trim s with
  | "noop" => .ok noop
  | "basic" => .ok basic
  | "advanced" => .ok advanced
  | "aggressive" => .ok aggressive
  | "" => .error (.unknownMode s)
  | t => ofNames (Text.split ',' t)

end Recipe

end Stencil
