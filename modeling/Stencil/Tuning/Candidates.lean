import Stencil.Arithmetic
import Stencil.Tuning.Kernel
import Stencil.Tuning.Options

namespace Stencil

abbrev Binding := List (String × Int)

namespace Candidates

def extent? (args : Arguments) (d : Dimension) : Option Int := do
  let lo ← args.int? d.lowerName
  let hi ← args.int? d.upperName
  return hi - lo + 1

def domain (blocks : List KernelDimension) (args : Arguments) : Binding :=
  blocks.filterMap fun b => b.block?.map fun (_, step, root) =>
    (step, (extent? args root).getD maxInt64)

def cube (whole : Binding) (size : Int) : Binding := whole.map fun x => (x.1, size)

def double (n : Int) : Int := saturate (2 * n)

def doubleAll (b : Binding) : Binding := b.map fun x => (x.1, double x.2)

def insertAfter {β : Type} [BEq β] (a b : β) : List β → List β
  | [] => [b]
  | c :: r => if c == a then c :: b :: r else c :: insertAfter a b r

def ramp : Nat → Binding → List Binding → List Binding
  | 0, _, shapes => shapes
  | n + 1, b, shapes => ramp n (doubleAll b) (insertAfter b (doubleAll b) shapes)

/-- The first few shapes with the innermost size of every shape. -/
def mixed (shapes : List Binding) : List Binding :=
  (shapes.take 4).flatMap fun b => shapes.map fun c => b.dropLast ++ c.getLast?.toList

def choose {β : Type} : Nat → List β → List (List β)
  | 0, _ => [[]]
  | _ + 1, [] => []
  | k + 1, a :: r => (choose k r).map (a :: ·) ++ choose (k + 1) r

def subsets (n : Nat) : List (List Nat) :=
  (List.range n).flatMap fun k => choose (k + 1) (List.range n)

def doubleAt (at_ : List Nat) (b : Binding) : Binding :=
  b.zipIdx.map fun (x, i) => (x.1, if at_.contains i then double x.2 else x.2)

def doubled (n : Nat) (shapes : List Binding) : List Binding :=
  shapes.flatMap fun b => (subsets n).map (doubleAt · b)

def basicShapes (whole : Binding) (sizes : List Int) : List Binding :=
  sizes.map (cube whole) ++ [whole]

def aggressiveShapes (whole : Binding) (sizes : List Int) : List Binding :=
  let basic := basicShapes whole sizes
  let ramped := match sizes.getLast? with
    | some largest => ramp 3 (cube whole largest) basic
    | none => basic
  ramped ++ mixed ramped ++ doubled whole.length ramped

def fits (whole b : Binding) : Bool := (b.zip whole).all fun (x, y) => x.2 ≤ y.2

/-- Candidate block shapes, one value for the step of every block dimension. Shapes larger than
the domain are dropped, and so are repetitions. -/
def blockShapes (blocks : List KernelDimension) (args : Arguments) (level : Level) (o : Options) :
    List Binding :=
  let whole := domain blocks args
  if whole.isEmpty then []
  else
    let sizes := o.blockSizes.mergeSort
    let shapes := match level with
      | .basic => basicShapes whole sizes
      | .aggressive => aggressiveShapes whole sizes
    (shapes.filter (fits whole)).eraseDups

def coreCount (o : Options) : Int := Int.bmod o.cores 18446744073709551616

/-- Candidate thread counts, each a binding of one parameter: the values of the caller, then on
many-core processors all, half and a quarter of the cores. -/
def threadCounts (ps : List Parameter) (args : Arguments) (level : Level) (o : Options) :
    List Binding :=
  let given : List Binding := ps.filterMap fun p => (args.int? p.name).map fun n => [(p.name, n)]
  let more : List Binding :=
    if level = .aggressive && o.manyCore then
      let n := coreCount o
      ps.flatMap fun p => [n, n.tdiv 2, n.tdiv 4].map fun n => [(p.name, n)]
    else []
  (given ++ more).eraseDups

end Candidates

end Stencil
