import Regraft.Graph.Basic

/-
  Evaluation of a graph on named input values. Every operation is computed on doubles and its result
  rounded to the node's element type. What the operations compute is a parameter.
-/

namespace Regraft

/-- The elementwise functions that the operations stand for. -/
structure Arithmetic where
  binary : Binary → Float → Float → Float
  unary : Unary → Float → Float
  round : ElemType → Float → Float

/-- Arithmetic on doubles. -/
def Arithmetic.double : Arithmetic where
  binary
    | .add => (· + ·)
    | .sub => (· - ·)
    | .mul => (· * ·)
    | .div => (· / ·)
    | .pow => Float.pow
  unary
    | .neg => fun x => -x
    | .square => fun x => x * x
    | .sqrt => Float.sqrt
    | .exp => Float.exp
    | .log => Float.log
  round := ElemType.round

namespace Graph

/-- The values fed to a graph by name; the first of a name counts. -/
abbrev Feeds := List (String × Tensor)

/-- The value of an operand, by its place among the inputs. -/
def operand (values : List Tensor) (node : Node) (k : Nat) : Except GraphError Tensor :=
  match node.inputs[k]? with
  | none => .error (.arity node.op.name node.op.arity node.inputs.length)
  | some id => match values[id.index]? with
    | none => .error (.unknownNode id.index)
    | some t => .ok t

/-- The value of a node before rounding, from the values of the nodes before it. -/
def compute (ar : Arithmetic) (feeds : Feeds) (values : List Tensor) (node : Node) :
    Except GraphError Tensor :=
  match node.op with
  | .placeholder name => match feeds.lookup name with
    | none => .error (.missingFeed name)
    | some t =>
      if t.shape ≠ node.type.2 then .error (.feedShape name node.type.2 t.shape) else .ok t
  | .const value => .ok value
  | .binary f => do
    let a ← operand values node 0
    let b ← operand values node 1
    match Tensor.zipWith? (ar.binary f) a b with
    | none => .error (.shapeMismatch f.name a.shape b.shape)
    | some t => .ok t
  | .unary f => do
    let a ← operand values node 0
    .ok (a.map (ar.unary f))
  | .sum => do
    let a ← operand values node 0
    .ok (a.sum (ar.binary .add))

/-- The values of nodes, behind the values of those before them. -/
def evalNodes (ar : Arithmetic) (feeds : Feeds) :
    List Tensor → List Node → Except GraphError (List Tensor)
  | values, [] => .ok values
  | values, node :: rest => do
    let t ← compute ar feeds values node
    evalNodes ar feeds (values ++ [t.map (ar.round node.type.1)]) rest

/-- The values of the outputs. -/
def eval (ar : Arithmetic) (g : Graph) (feeds : Feeds) : Except GraphError (List Tensor) := do
  let values ← evalNodes ar feeds [] g.nodes
  g.outputs.mapM fun id => match values[id.index]? with
    | none => .error (.unknownNode id.index)
    | some t => .ok t

end Graph

end Regraft
