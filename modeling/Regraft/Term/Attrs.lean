import Regraft.Tensor.ElemType
import Regraft.Tensor.Shape

/-
  What an application may say about its value: element type, shape and which output of its node it
  is. A part that is left out fits anything.
-/

namespace Regraft

structure Attrs where
  elem : Option ElemType
  shape : Option Shape
  output : Option UInt32
deriving DecidableEq, Repr

namespace Attrs

/-- Nothing is said. -/
def unspecified : Attrs := ⟨none, none, none⟩

def isUnspecified (a : Attrs) : Bool := a.elem.isNone && a.shape.isNone && a.output.isNone

/-- Two parts fit when they are equal or one of them is left out. -/
def fits {α : Type} [DecidableEq α] : Option α → Option α → Bool
  | some x, some y => x = y
  | _, _ => true

/-- All parts fit. -/
def compatible (a b : Attrs) : Bool :=
  fits a.elem b.elem && fits a.shape b.shape && fits a.output b.output

end Attrs

end Regraft
