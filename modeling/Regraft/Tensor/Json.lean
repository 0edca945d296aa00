import Regraft.Tensor.Basic
import Regraft.Tensor.ElemType
import Regraft.Json.Value

/-
  Tensors, shapes and element types as JSON values.
-/

namespace Regraft

/-- Axis sizes are naturals of 64 bits. -/
def Shape.ofJson? (j : Json) : Option Shape :=
  (j.list? (Json.natural? UInt64.size)).map Shape.mk

def Shape.toJson (s : Shape) : Json := .arr (s.dims.map fun d => .num (.natural d))

/-- A tensor must fill its shape. -/
def Tensor.ofJson? (j : Json) : Option Tensor := do
  let fields ← j.record? ["shape", "data"]
  let shape ← (fields.lookup "shape").bind Shape.ofJson?
  let data ← (fields.lookup "data").bind (Json.list? Json.real?)
  Tensor.new? shape data

/-- Values that are not finite have no JSON form and become `null`. -/
def Tensor.toJson (t : Tensor) : Json :=
  .obj [("shape", t.shape.toJson), ("data", .arr (t.data.map fun x => .num (.real x)))]

/-- A name, or an object that maps a name to `null`. -/
def ElemType.ofJson? : Json → Option ElemType
  | .str s => ofName? s
  | .obj [(s, .null)] => ofName? s
  | _ => none

def ElemType.toJson (t : ElemType) : Json := .str t.name

end Regraft
