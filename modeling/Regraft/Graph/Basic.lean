import Regraft.Graph.Op
import Regraft.Graph.Error

/-
  Computation graphs: nodes in topological order that refer to their inputs by position, and the
  nodes that are the outputs. Nodes are appended with their types inferred; `validate` checks a
  graph that came from elsewhere.
-/

namespace Regraft

/-- The position of a node in its graph. -/
structure NodeId where
  index : Nat
deriving DecidableEq, Repr

def NodeId.text (id : NodeId) : String := "%" ++ id.index.repr

/-- The static type of a node. -/
abbrev ValueType := ElemType × Shape

structure Node where
  op : Op
  inputs : List NodeId
  type : ValueType
deriving DecidableEq, Repr

structure Graph where
  nodes : List Node
  outputs : List NodeId
deriving DecidableEq, Repr

/-- The interface of a graph: its inputs with their names, and the types of its outputs. -/
structure Contract where
  inputs : List (String × ValueType)
  outputs : List ValueType
deriving DecidableEq, Repr

namespace Op

/-- The element type of an operation that leaves the integers. -/
def floating (t : ElemType) : ElemType := if t.isFloat then t else .f64

/-- The type of an operation applied to operands of the given types. -/
def infer (op : Op) (operands : List ValueType) : Except GraphError ValueType :=
  match op, operands with
  | binary f, [(lt, ls), (rt, rs)] =>
    match ls.broadcast rs with
    | none => .error (.shapeMismatch f.name ls rs)
    | some shape =>
      let t := lt.promote rt
      .ok (if f = .div then floating t else t, shape)
  | unary f, [(t, s)] =>
    match f with
    | .neg | .square => .ok (t, s)
    | .sqrt | .exp | .log => .ok (floating t, s)
  | sum, [(t, _)] => .ok (t, .scalar)
  | placeholder _, [] => .error (.unknownOperator op.name)
  | const _, [] => .error (.unknownOperator op.name)
  | _, _ => .error (.arity op.name op.arity operands.length)

end Op

namespace Graph

def empty : Graph := ⟨[], []⟩

def size (g : Graph) : Nat := g.nodes.length

def node? (g : Graph) (id : NodeId) : Option Node := g.nodes[id.index]?

/-! ## Building -/

/-- Append a node as it is. -/
def push (g : Graph) (node : Node) : Graph × NodeId :=
  ({ g with nodes := g.nodes ++ [node] }, ⟨g.size⟩)

def placeholder (g : Graph) (name : String) (type : ValueType) : Graph × NodeId :=
  g.push ⟨.placeholder name, [], type⟩

def constant (g : Graph) (value : Tensor) (t : ElemType) : Graph × NodeId :=
  g.push ⟨.const value, [], (t, value.shape)⟩

/-- A constant of type `f64` and shape `[]`. -/
def scalar (g : Graph) (x : Float) : Graph × NodeId := g.constant (.scalar x) .f64

/-- The types of the nodes that inputs refer to. -/
def operandTypes (g : Graph) : List NodeId → Except GraphError (List ValueType)
  | [] => .ok []
  | id :: rest => match g.node? id with
    | none => .error (.unknownNode id.index)
    | some node => (g.operandTypes rest).map (node.type :: ·)

/-- Append an operation, its type inferred from its inputs. -/
def apply (g : Graph) (op : Op) (inputs : List NodeId) : Except GraphError (Graph × NodeId) := do
  let operands ← g.operandTypes inputs
  let type ← op.infer operands
  .ok (g.push ⟨op, inputs, type⟩)

def addOutput (g : Graph) (id : NodeId) : Except GraphError Graph :=
  if id.index < g.size then .ok { g with outputs := g.outputs ++ [id] }
  else .error (.unknownNode id.index)

/-! ## Checking -/

/-- A node is right behind the nodes before it: operand count, inputs that precede it, and a
    declared type that agrees with its value or with its operands. -/
def checkNode (before : Graph) (node : Node) : Except GraphError Unit := do
  let index := before.size
  if node.inputs.length ≠ node.op.arity then
    .error (.arity node.op.name node.op.arity node.inputs.length)
  else match before.operandTypes node.inputs with
  | .error _ => .error (.notTopological index)
  | .ok operands => match node.op with
    | .placeholder _ => .ok ()
    | .const value =>
      if !value.fills then .error (.valueShape value.shape value.data.length)
      else if value.shape ≠ node.type.2 then
        .error (.typeMismatch index (.value node.type.2 value.shape))
      else .ok ()
    | op => match op.infer operands with
      | .error e => .error e
      | .ok type =>
        if type ≠ node.type then .error (.typeMismatch index (.operands node.type type)) else .ok ()

/-- Check nodes one after the other behind those before them. -/
def checkNodes (before : List Node) : List Node → Except GraphError Unit
  | [] => .ok ()
  | node :: rest => do
    checkNode ⟨before, []⟩ node
    checkNodes (before ++ [node]) rest

def checkOutputs (g : Graph) : List NodeId → Except GraphError Unit
  | [] => .ok ()
  | id :: rest => if id.index < g.size then g.checkOutputs rest else .error (.unknownNode id.index)

/-- The first fault of a graph, nodes before outputs. -/
def validate (g : Graph) : Except GraphError Unit := do
  checkNodes [] g.nodes
  g.checkOutputs g.outputs

/-! ## Interface -/

/-- Positions and nodes of the placeholders, in order. -/
def placeholders (g : Graph) : List (NodeId × String × Node) :=
  g.nodes.zipIdx.filterMap fun (node, i) => match node.op with
    | .placeholder name => some (⟨i⟩, name, node)
    | _ => none

/-- The first placeholder of a name. -/
def placeholder? (g : Graph) (name : String) : Option NodeId :=
  (g.placeholders.find? fun (_, n, _) => n = name).map (·.1)

def contract (g : Graph) : Contract where
  inputs := g.placeholders.map fun (_, name, node) => (name, node.type)
  outputs := g.outputs.filterMap fun id => (g.node? id).map (·.type)

end Graph

end Regraft
