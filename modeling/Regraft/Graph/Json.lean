import Regraft.Graph.Basic
import Regraft.Tensor.Json
import Regraft.Json.Reader
import Regraft.Json.Printer

/-
  Graphs as JSON documents. A node is one object that holds its operation, the fields of that
  operation, its inputs and its type; fields that the operation does not know are ignored.
-/

namespace Regraft

namespace Op

/-- The operations without fields of their own. -/
def computing : List Op := aliases.map (·.1)

/-- An operation is named, or given by its place in the list of all operations, of which
    placeholders and constants are the first two. -/
def tag? : Json → Option String
  | .str s => some s
  | .num (.natural n) => ("placeholder" :: "const" :: computing.map name)[n]?
  | _ => none

/-- The only value of a field. -/
def sole? (key : String) (fields : List (String × Json)) : Option Json :=
  match fields.filter (·.1 = key) with
  | [(_, j)] => some j
  | _ => none

/-- Read an operation from the fields of its node. -/
def ofFields? (fields : List (String × Json)) : Option Op := do
  let tag ← (sole? "op" fields).bind tag?
  if tag = "placeholder" then
    let name ← (sole? "name" fields).bind Json.string?
    some (placeholder name)
  else if tag = "const" then
    let value ← (sole? "value" fields).bind Tensor.ofJson?
    some (const value)
  else computing.find? (·.name = tag)

/-- The fields of an operation. -/
def toFields (op : Op) : List (String × Json) :=
  ("op", .str op.name) :: match op with
    | placeholder name => [("name", .str name)]
    | const value => [("value", value.toJson)]
    | _ => []

end Op

/-- Node positions have 32 bits. -/
def NodeId.ofJson? (j : Json) : Option NodeId := (j.natural? UInt32.size).map NodeId.mk

def NodeId.toJson (id : NodeId) : Json := .num (.natural id.index)

/-- The names of the fields that all nodes have. -/
def Node.fieldNames : List String := ["inputs", "dtype", "shape"]

/-- Containers nest at most 127 deep in a document, and the fields of a node are three deep. -/
def Node.fieldDepth : Nat := 124

/-- Read a node; inputs and shape may be left out. -/
def Node.ofJson? : Json → Option Node
  | .obj fields => do
    let own ← (Json.obj fields).record? fieldNames
    let others := fields.filter fun f => !fieldNames.contains f.1
    if others.all fun f => f.2.loadable fieldDepth then
      let op ← Op.ofFields? others
      let inputs ← ((own.lookup "inputs").getD (.arr [])).list? NodeId.ofJson?
      let elem ← (own.lookup "dtype").bind ElemType.ofJson?
      let shape ← Shape.ofJson? ((own.lookup "shape").getD (.arr []))
      some ⟨op, inputs, (elem, shape)⟩
    else none
  | _ => none

def Node.toJson (node : Node) : Json :=
  let inputs := match node.inputs with
    | [] => []
    | ids => [("inputs", Json.arr (ids.map NodeId.toJson))]
  .obj (node.op.toFields ++ inputs ++
    [("dtype", node.type.1.toJson), ("shape", node.type.2.toJson)])

namespace Graph

/-- Read a graph without checking it. -/
def ofJson? (j : Json) : Option Graph := do
  let fields ← j.record? ["nodes", "outputs"]
  let nodes ← (fields.lookup "nodes").bind (Json.list? Node.ofJson?)
  let outputs ← (fields.lookup "outputs").bind (Json.list? NodeId.ofJson?)
  some ⟨nodes, outputs⟩

def toJson (g : Graph) : Json :=
  .obj [("nodes", .arr (g.nodes.map Node.toJson)), ("outputs", .arr (g.outputs.map NodeId.toJson))]

/-- Read a graph from a document and check it. -/
def ofText (text : String) : Except GraphError Graph :=
  match (Json.parse text).bind ofJson? with
  | none => .error .json
  | some g => (g.validate).map fun _ => g

/-- The document of a graph. -/
def toText (g : Graph) : String := g.toJson.text

end Graph

end Regraft
