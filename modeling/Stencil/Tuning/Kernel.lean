import Stencil.Expr.Basic
import Stencil.Space.Box
import Stencil.Tuning.Store

namespace Stencil

inductive ParameterKind where
  | scalar
  | input
  | output
  | threads
  | timer
  | neighbours
  | messages
  deriving DecidableEq

structure Parameter where
  name : String
  kind : ParameterKind
  deriving DecidableEq

/-- A dimension of a kernel. A block dimension walks over `root` in blocks whose size is the
argument named `step`. -/
inductive KernelDimension where
  | time (dim : Dimension)
  | space (dim : Dimension)
  | block (dim : Dimension) (step : String) (root : Dimension)
  deriving DecidableEq

namespace KernelDimension

def dimension : KernelDimension → Dimension
  | time d | space d | block d _ _ => d

def block? : KernelDimension → Option (Dimension × String × Dimension)
  | block d s r => some (d, s, r)
  | _ => none

def isBlockable (d : KernelDimension) : Bool := d.block?.isSome

end KernelDimension

structure Loop where
  id : Nat
  dim : Dimension
  direction : Direction
  /-- How many loops, from this one inwards, run as one parallel loop. -/
  collapsed : Nat := 1
  deriving DecidableEq

abbrev LoopNest := List Loop

structure Signature where
  parameters : List Parameter
  dimensions : List KernelDimension
  body : List LoopNest
  callables : Table String (List LoopNest) := .empty
  footprint : Option (Expr Binary64) := none
  profiler : String

namespace Signature

variable (k : Signature)

def nests : List LoopNest := k.body ++ k.callables.values.flatten

def blocks : List KernelDimension := k.dimensions.filter KernelDimension.isBlockable

def ofKind (kind : ParameterKind) : List Parameter := k.parameters.filter (·.kind = kind)

def positional (args : Arguments) : List Argument :=
  k.parameters.filterMap fun p => args.get? p.name

def named (args : List Argument) : Arguments := .ofList ((k.parameters.map (·.name)).zip args)

end Signature

/-- A compiled kernel, whose calls act on some state of its own and on the store. -/
structure Kernel (κ : Type) extends Signature where
  /-- A call with positional arguments; says whether it succeeded. -/
  call : List Argument → κ → Store → Bool × κ × Store

end Stencil
