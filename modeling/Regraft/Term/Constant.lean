import Regraft.Tensor.Basic
import Regraft.Tensor.ElemType

/-
  Constants in terms. Their values are kept in canonical form, so that equal constants are the same
  constant: negative zero becomes zero, and there is one not-a-number already.
-/

namespace Regraft

/-- Zero for both zeros, any other value itself. -/
def canonical (x : Float) : Float := if x == 0.0 then 0.0 else x

structure Constant where
  elem : ElemType
  shape : Shape
  values : List Float
deriving DecidableEq, Repr

namespace Constant

def ofTensor (t : Tensor) (elem : ElemType) : Constant := ⟨elem, t.shape, t.data.map canonical⟩

def scalar (x : Float) : Constant := ofTensor (.scalar x) .f64

def toTensor (c : Constant) : Tensor := ⟨c.shape, c.values⟩

/-- The first value of a constant of scalar shape. -/
def asScalar? (c : Constant) : Option Float := if c.shape.isScalar then c.values.head? else none

/-- Same shape and equal values, place by place; the element type does not count, and
    not-a-number equals nothing. -/
def valueEq (a b : Constant) : Bool :=
  a.shape = b.shape && (a.values.zip b.values).all fun (x, y) => x == y

end Constant

end Regraft
