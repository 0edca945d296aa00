import Regraft.Graph.Basic
import Regraft.Session.Basic

/-
  The terms of a graph. Placeholders become inputs of their name, constants become constants, and an
  operation becomes an application that carries its type; the root bundles the outputs. Nodes that
  compute the same become the same term.
-/

namespace Regraft

/-- The operator that bundles the outputs of a graph. -/
def outputsTag : String := "__outputs__"

structure GraphTerms where
  root : TermId
  /-- The term of every node, in order. -/
  nodes : List TermId
deriving DecidableEq, Repr

/-- Everything is said about the value of a node; nodes have one output. -/
def Attrs.ofType (t : ValueType) : Attrs := ⟨some t.1, some t.2, some 0⟩

namespace Graph

/-- The terms at some node positions. -/
def termsAt (terms : List TermId) (ids : List NodeId) : List TermId :=
  ids.filterMap fun id => terms[id.index]?

/-- The term of a node, from the terms of the nodes before it. -/
def nodeTerm (before : List TermId) (node : Node) : SessionM TermId :=
  match node.op with
  | .placeholder name => Session.input name
  | .const value => Session.onStore (Store.constant (.ofTensor value node.type.1))
  | op => Session.tagged op.name (termsAt before node.inputs) (.ofType node.type)

/-- The terms of nodes, behind the terms of those before them. -/
def nodeTerms (before : List TermId) : List Node → SessionM (List TermId)
  | [] => return before
  | node :: rest => do
    let t ← nodeTerm before node
    nodeTerms (before ++ [t]) rest

def toTerms (g : Graph) : SessionM GraphTerms := do
  let terms ← nodeTerms [] g.nodes
  let root ← Session.tagged outputsTag (termsAt terms g.outputs) .unspecified
  return ⟨root, terms⟩

/-- Two graphs have the same outputs, operations, constants, types and sharing, whatever the order
    of their nodes. -/
def equivalent (a b : Graph) : SessionM Bool := do
  let x ← a.toTerms
  let y ← b.toTerms
  return x.root = y.root

end Graph

end Regraft
