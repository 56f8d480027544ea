import Stencil.Pipeline
import Stencil.Tuning.Session

namespace Stencil

inductive Error where
  | recipe (error : RecipeError)
  | tuning (error : TuningError)
  | eval (error : EvalError)
  deriving DecidableEq

namespace Error

def message : Error → String
  | recipe e => "Rewrite error: " ++ e.message
  | tuning e => "Autotuning error: " ++ e.message
  | eval e => "Evaluation error: " ++ e.message

end Error

namespace Optimizer

def evaluate (e : Expr Binary64) (symbols : Table String Binary64) :
    Except Error Binary64 :=
  (e.eval (.ofSymbols Binary64.truncate symbols)).mapError .eval

def optimize {α : Type} [Arithmetic α] (c : Cluster α) (recipe : String) :
    Except Error (Pipeline α) :=
  ((Recipe.ofText recipe).map fun m => .run {} m c).mapError .recipe

def tune {κ : Type} (k : Kernel κ) (level mode : String) (args : Arguments) (kernel : κ)
    (store : Store) : κ × Store × Except Error (Arguments × Summary) :=
  let out := Tuning.tune k {} [] level mode args kernel store
  (out.kernel, out.store, out.answer.mapError .tuning)

end Optimizer

end Stencil
