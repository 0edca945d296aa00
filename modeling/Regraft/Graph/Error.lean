import Regraft.Tensor.Shape
import Regraft.Tensor.ElemType

/-
  What can be wrong with a graph, and how it is said.
-/

namespace Regraft

/-- How a node's declared type is off. -/
inductive TypeClash
  /-- A constant of another shape than its value. -/
  | value (declared found : Shape)
  /-- An operation whose operands give another type. -/
  | operands (declared : ElemType × Shape) (found : ElemType × Shape)
deriving DecidableEq, Repr

def TypeClash.message : TypeClash → String
  | value declared found =>
    "declared shape " ++ declared.text ++ " but value has shape " ++ found.text
  | operands declared found =>
    "declared " ++ declared.1.name ++ declared.2.text ++ " but operands give " ++ found.1.name ++
      found.2.text

inductive GraphError
  | unknownNode (index : Nat)
  | arity (op : String) (expected found : Nat)
  | shapeMismatch (op : String) (lhs rhs : Shape)
  | missingFeed (name : String)
  | feedShape (name : String) (expected found : Shape)
  | unknownOperator (name : String)
  /-- A node uses an input that is not defined before it. -/
  | notTopological (index : Nat)
  /-- The values of a tensor do not fill its shape. -/
  | valueShape (shape : Shape) (size : Nat)
  | typeMismatch (index : Nat) (clash : TypeClash)
  /-- The text is no document of a graph. -/
  | json
deriving DecidableEq, Repr

namespace GraphError

def message : GraphError → String
  | unknownNode index => "unknown node %" ++ index.repr
  | arity op expected found =>
    "operator '" ++ op ++ "' takes " ++ expected.repr ++ " inputs, found " ++ found.repr
  | shapeMismatch op lhs rhs =>
    "operator '" ++ op ++ "' cannot broadcast shapes " ++ lhs.text ++ " and " ++ rhs.text
  | missingFeed name => "no value fed for input '" ++ name ++ "'"
  | feedShape name expected found =>
    "input '" ++ name ++ "' expects shape " ++ expected.text ++ ", got " ++ found.text
  | unknownOperator name => "unknown operator '" ++ name ++ "'"
  | notTopological index => "node %" ++ index.repr ++ " uses an input defined after it"
  | valueShape shape size => "tensor of shape " ++ shape.text ++ " holds " ++ size.repr ++ " values"
  | typeMismatch index clash => "node %" ++ index.repr ++ " is mistyped: " ++ clash.message
  | json => "invalid graph JSON"

end GraphError

end Regraft
