import Stencil.Cluster
import Stencil.Expr.Eval
import Stencil.Grid

/-!
Loop nests over lists of clusters. Neighbours whose intervals agree at a level share the loop of
that level, in the direction that the first of them asks for.
-/

namespace Stencil

abbrev Position := Table String Int

namespace Nest

variable {α : Type} {m : Type → Type} [Monad m] [MonadExcept EvalError m]

def level? (depth : Nat) (c : Cluster α) : Option Interval := c.space.box.intervals[depth]?

def groups (depth : Nat) (cs : List (Cluster α)) : List (List (Cluster α)) :=
  cs.splitBy fun c c' => level? depth c == level? depth c'

def values (c : Cluster α) (i : Interval) (b : Int × Int) : List Int :=
  let vs := Grid.range (b.1 + i.lower) (b.2 + i.upper)
  if c.space.direction i.dim = .backward then vs.reverse else vs

variable (bounds : Dimension → Option (Int × Int)) (visit : Cluster α → Position → m Unit)

/-- Walks the loops from a level inwards and visits every cluster at every point. The first
argument is greater than the number of levels left. A loop leaves its name out of the position
when it ends. -/
def walkFrom : Nat → Nat → List (Cluster α) → Position → m Position
  | 0, _, _, pos => pure pos
  | n + 1, depth, cs, pos =>
    (groups depth cs).foldlM (fun pos group => do
      match group with
      | [] => pure pos
      | c :: _ =>
        match level? depth c with
        | none =>
          group.forM (visit · pos)
          pure pos
        | some i =>
          match bounds i.dim with
          | none => throw (.unbound i.dim.upperName)
          | some b =>
            let pos ← (values c i b).foldlM (fun pos v =>
              walkFrom n (depth + 1) group (pos.insert i.dim.name v)) pos
            pure (pos.erase i.dim.name)) pos

def levels (cs : List (Cluster α)) : Nat := (cs.map (·.space.box.size)).foldl max 0 + 1

def walk (cs : List (Cluster α)) : m Unit := do
  discard (walkFrom bounds visit (levels cs) 0 cs .empty)

end Nest

end Stencil
