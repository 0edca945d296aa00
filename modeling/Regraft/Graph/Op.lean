import Regraft.Symbol.OpName
import Regraft.Tensor.Basic
import Regraft.Tensor.ElemType

/-
  The operations of a graph: named inputs, constants, elementwise operations of one or two operands,
  and the sum of all elements.
-/

namespace Regraft

/-- Elementwise operations of two operands. -/
inductive Binary
  | add
  | sub
  | mul
  | div
  | pow
deriving DecidableEq, Repr

/-- Elementwise operations of one operand. -/
inductive Unary
  | neg
  | square
  | sqrt
  | exp
  | log
deriving DecidableEq, Repr

inductive Op
  | placeholder (name : String)
  | const (value : Tensor)
  | binary (f : Binary)
  | unary (f : Unary)
  | sum
deriving DecidableEq, Repr

def Binary.name : Binary → String
  | add => "add"
  | sub => "sub"
  | mul => "mul"
  | div => "div"
  | pow => "pow"

def Unary.name : Unary → String
  | neg => "neg"
  | square => "square"
  | sqrt => "sqrt"
  | exp => "exp"
  | log => "log"

namespace Op

/-- The tag of an operation in terms. -/
def name : Op → String
  | placeholder _ => "placeholder"
  | const _ => "const"
  | binary f => f.name
  | unary f => f.name
  | sum => "sum"

def arity : Op → Nat
  | placeholder _ => 0
  | const _ => 0
  | binary _ => 2
  | unary _ => 1
  | sum => 1

def isLeaf (op : Op) : Bool := op.arity = 0

/-- The operations that compute, each with the names it goes by. -/
def aliases : List (Op × List String) := [
  (binary .add, ["add", "addv2"]),
  (binary .sub, ["sub", "subtract"]),
  (binary .mul, ["mul", "multiply"]),
  (binary .div, ["div", "realdiv", "truediv"]),
  (binary .pow, ["pow"]),
  (unary .neg, ["neg", "negative"]),
  (unary .square, ["square"]),
  (unary .sqrt, ["sqrt"]),
  (unary .exp, ["exp"]),
  (unary .log, ["log"]),
  (sum, ["sum"])]

/-- The operation that an exported node name stands for. Leaves have no name of their own. -/
def ofName? (raw : String) : Option Op :=
  let name := (OpName.normalize raw).name
  (aliases.find? fun (_, names) => names.contains name).map (·.1)

end Op

end Regraft
