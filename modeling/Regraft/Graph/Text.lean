import Regraft.Graph.Basic
import Regraft.Text.Number
import Regraft.Text.Quoted

/-
  Graphs and their interfaces as text: a line for each node with its type, and a last line with the
  outputs.
-/

namespace Regraft

/-- Items between square brackets. -/
def bracketed (items : List String) : String := "[" ++ ", ".intercalate items ++ "]"

def ValueType.text (t : ValueType) : String := t.1.name ++ t.2.text

namespace Graph

/-- What a node computes. -/
def opText (node : Node) : String :=
  match node.op with
  | .placeholder name => "placeholder " ++ name
  | .const value => match value.asScalar? with
    | some x => "const " ++ plainNumber.render x
    | none => "const " ++ bracketed (value.data.map listedNumber.render)
  | op => " ".intercalate (op.name :: node.inputs.map NodeId.text)

def nodeText (index : Nat) (node : Node) : String :=
  NodeId.text ⟨index⟩ ++ " = " ++ opText node ++ " : " ++ ValueType.text node.type ++ "\n"

def text (g : Graph) : String :=
  String.join (g.nodes.zipIdx.map fun (node, i) => nodeText i node) ++
    " ".intercalate ("return" :: g.outputs.map NodeId.text)

end Graph

namespace Contract

/-- The name of an element type as a constructor. -/
def typeName : ElemType → String
  | .bool => "Bool"
  | .i32 => "I32"
  | .i64 => "I64"
  | .f32 => "F32"
  | .f64 => "F64"

def shapeText (s : Shape) : String := "Shape(" ++ s.text ++ ")"

def text (c : Contract) : String :=
  let input := fun ((name, t, s) : String × ValueType) =>
    "(" ++ Text.quoted name ++ ", " ++ typeName t ++ ", " ++ shapeText s ++ ")"
  let output := fun ((t, s) : ValueType) => "(" ++ typeName t ++ ", " ++ shapeText s ++ ")"
  "Contract \x7b inputs: " ++ bracketed (c.inputs.map input) ++ ", outputs: " ++
    bracketed (c.outputs.map output) ++ " \x7d"

end Contract

end Regraft
