import Stencil.Dimension

namespace Stencil

def lexCmp {β : Type} (cmp : β → β → Ordering) : List β → List β → Ordering
  | [], [] => .eq
  | [], _ :: _ => .lt
  | _ :: _, [] => .gt
  | a :: as, b :: bs => (cmp a b).then (lexCmp cmp as bs)

inductive Index where
  | const (position : Int)
  | affine (dim : Dimension) (offset : Int)
  deriving DecidableEq

namespace Index

def dim? : Index → Option Dimension
  | const _ => none
  | affine d _ => some d

def offset : Index → Int
  | const c => c
  | affine _ o => o

def shift (delta : Int) : Index → Index
  | const c => const c
  | affine d o => affine d (o + delta)

protected def cmp : Index → Index → Ordering
  | const a, const b => compare a b
  | const _, affine _ _ => .lt
  | affine _ _, const _ => .gt
  | affine d o, affine d' o' => (d.cmp d').then (compare o o')

def text : Index → String
  | const c => toString c
  | affine d o =>
    if o = 0 then d.name
    else if 0 < o then d.name ++ " + " ++ toString o
    else d.name ++ " - " ++ toString (-o)

end Index

/-- What an array is: data that the caller sees, or a temporary with some padding below and above
each dimension. -/
inductive FieldKind where
  | input
  | temporary (halo : List (Nat × Nat))
  deriving DecidableEq

namespace FieldKind

protected def cmp : FieldKind → FieldKind → Ordering
  | input, input => .eq
  | input, temporary _ => .lt
  | temporary _, input => .gt
  | temporary h, temporary h' =>
    lexCmp (fun a b => (compare a.1 b.1).then (compare a.2 b.2)) h h'

end FieldKind

structure Field where
  name : String
  kind : FieldKind
  deriving DecidableEq

namespace Field

def input (name : String) : Field := ⟨name, .input⟩

def temporary (name : String) (halo : List (Nat × Nat)) : Field := ⟨name, .temporary halo⟩

def isInput (f : Field) : Bool := f.kind = .input

protected def cmp (f g : Field) : Ordering := (compare f.name g.name).then (f.kind.cmp g.kind)

end Field

structure Access where
  field : Field
  indices : List Index
  deriving DecidableEq

namespace Access

def isTimeDependent (a : Access) : Bool :=
  a.indices.any fun i => i.dim?.any Dimension.isTime

def dimensions (a : Access) : List Dimension := a.indices.filterMap Index.dim?

protected def cmp (a b : Access) : Ordering :=
  (a.field.cmp b.field).then (lexCmp Index.cmp a.indices b.indices)

def text (a : Access) : String :=
  a.field.name ++ "[" ++ ", ".intercalate (a.indices.map Index.text) ++ "]"

end Access

end Stencil
