import Regraft.Tensor.Shape

/-
  Dense row-major arrays of doubles. A tensor may hold any number of values; `fills` says that the
  values fill the shape, and the operations that look elements up ask for it.
-/

namespace Regraft

structure Tensor where
  shape : Shape
  data : List Float
deriving DecidableEq, Repr

namespace Tensor

/-- The values fill the shape exactly. -/
def fills (t : Tensor) : Bool := t.shape.numel = t.data.length

def scalar (x : Float) : Tensor := ⟨.scalar, [x]⟩

def vector (data : List Float) : Tensor := ⟨⟨[data.length]⟩, data⟩

/-- A tensor whose values fill its shape. -/
def new? (shape : Shape) (data : List Float) : Option Tensor :=
  let t : Tensor := ⟨shape, data⟩
  if t.fills then some t else none

/-- The value of a tensor that holds just one. -/
def asScalar? (t : Tensor) : Option Float :=
  match t.data with
  | [x] => some x
  | _ => none

def map (f : Float → Float) (t : Tensor) : Tensor := ⟨t.shape, t.data.map f⟩

/-- Combine two tensors element by element over their common shape. -/
def zipWith? (f : Float → Float → Float) (a b : Tensor) : Option Tensor :=
  if a.fills && b.fills then
    (a.shape.broadcast b.shape).map fun shape =>
      let xs := a.data.toArray
      let ys := b.data.toArray
      ⟨shape, shape.indices.map fun index =>
        f (xs.getD (a.shape.position (a.shape.restrict index)) 0.0)
          (ys.getD (b.shape.position (b.shape.restrict index)) 0.0)⟩
  else none

/-- The sum of all values, added from the left to negative zero, which is neutral for all doubles. -/
def sum (add : Float → Float → Float) (t : Tensor) : Tensor := scalar (t.data.foldl add (-0.0))

end Tensor

end Regraft
