import Regraft.Graph.Terms
import Regraft.Graph.Text
import Regraft.Subst.Resolve

/-
  Graphs from terms. The new graph has the placeholders of the base graph; a term that a node of
  the base graph stands for takes that node over, and any other term makes a new node. Operands come
  before the nodes that use them, and no two operations with the same operator and inputs are made.
-/

namespace Regraft

/-- How attributes on a term differ from what its operands give. -/
inductive AttrClash
  | elem (said found : ElemType)
  | shape (said found : Shape)
deriving DecidableEq, Repr

def AttrClash.message : AttrClash → String
  | elem said found => "dtype " ++ said.name ++ " but operands give " ++ found.name
  | shape said found => "shape " ++ said.text ++ " but operands give " ++ found.text

/-- How the interface of a graph has changed. -/
inductive ContractClash
  | outputs (expected found : Nat)
  | contract (expected found : Contract)
deriving DecidableEq, Repr

def ContractClash.message : ContractClash → String
  | outputs expected found => "expected " ++ expected.repr ++ " outputs, found " ++ found.repr
  | contract expected found => "expected " ++ expected.text ++ ", found " ++ found.text

inductive RebuildError
  /-- The term still has an unbound variable. -/
  | unresolvedVariable (v : UInt32)
  | unknownOperator (name : String)
  /-- The base graph has no placeholder of the name. -/
  | unknownInput (name : String)
  | arityMismatch (op : String) (expected found : Nat)
  | attributeMismatch (op : String) (clash : AttrClash)
  /-- Nodes have one output. -/
  | unsupportedOutput (op : String) (index : UInt32)
  /-- The term does not bundle the outputs of a graph. -/
  | malformedRoot
  | contractMismatch (clash : ContractClash)
  | graph (e : GraphError)
deriving DecidableEq, Repr

namespace RebuildError

def message : RebuildError → String
  | unresolvedVariable v => "term contains unresolved logic variable $" ++ v.toNat.repr
  | unknownOperator name => "unknown operator '" ++ name ++ "'"
  | unknownInput name => "input '" ++ name ++ "' is not a placeholder of the original graph"
  | arityMismatch op expected found =>
    "operator '" ++ op ++ "' takes " ++ expected.repr ++ " operands, found " ++ found.repr
  | attributeMismatch op clash => "attributes of '" ++ op ++ "' do not match: " ++ clash.message
  | unsupportedOutput op index => "operator '" ++ op ++ "' has no output " ++ index.toNat.repr
  | malformedRoot => "root term is not a graph output bundle"
  | contractMismatch clash => "graph contract changed: " ++ clash.message
  | graph e => e.message

/-- The error behind an error. -/
def cause? : RebuildError → Option GraphError
  | graph e => some e
  | _ => none

end RebuildError

/-- A rebuilt graph, and how many of its operations were taken over or made. -/
structure Rebuilt where
  graph : Graph
  reused : Nat
  created : Nat
deriving DecidableEq, Repr

/-- What rebuilding looks things up in: the store, and the base graph with its terms. -/
structure Source where
  store : Store
  base : Graph
  terms : List TermId

/-- The first node of the base graph that stands for a term. -/
def Source.origin? (src : Source) (t : TermId) : Option Node :=
  (src.terms.idxOf? t).bind fun i => src.base.nodes[i]?

/-- A graph on its way. -/
structure Rebuild where
  graph : Graph
  /-- The nodes of the terms done so far, latest first. -/
  memo : List (TermId × NodeId)
  /-- The operations by operator and inputs, latest first. -/
  operations : List ((String × List NodeId) × NodeId)
  reused : Nat
  created : Nat

namespace Rebuild

def empty : Rebuild := ⟨.empty, [], [], 0, 0⟩

/-- The node of a term is known from now on. -/
def remember (r : Rebuild) (t : TermId) (id : NodeId) : Rebuild :=
  { r with memo := (t, id) :: r.memo }

/-- Append a node as it is. -/
def push (r : Rebuild) (node : Node) : NodeId × Rebuild :=
  let (graph, id) := r.graph.push node
  (id, { r with graph })

/-- Take the placeholders of the base graph over. -/
def addPlaceholders (r : Rebuild) (src : Source) : Rebuild :=
  src.base.placeholders.foldl (fun r (id, _, node) =>
    let (new, r) := r.push node
    match src.terms[id.index]? with
    | some t => r.remember t new
    | none => r) r

/-- The node of a constant. -/
def addConstant (r : Rebuild) (src : Source) (t : TermId) (c : Constant) : NodeId × Rebuild :=
  match src.origin? t with
  | some node => r.push node
  | none =>
    let (graph, id) := r.graph.constant c.toTensor c.elem
    (id, { r with graph })

/-- Attributes on a term agree with the type of its node. -/
def checkAttrs (op : String) (attrs : Attrs) (type : ValueType) : Except RebuildError Unit :=
  match attrs.elem with
  | some elem =>
    if elem ≠ type.1 then .error (.attributeMismatch op (.elem elem type.1)) else checkShape
  | none => checkShape
where
  checkShape : Except RebuildError Unit :=
    match attrs.shape with
    | some shape =>
      if shape ≠ type.2 then .error (.attributeMismatch op (.shape shape type.2)) else .ok ()
    | none => .ok ()

/-- Only output zero exists, whether the attributes or the tag name another. -/
def checkOutput (op : String) (attrs : Attrs) : Except RebuildError Unit :=
  let named := attrs.output.toList ++ (OpName.normalize op).output.toList
  match named.find? (· ≠ 0) with
  | some index => .error (.unsupportedOutput op index)
  | none => .ok ()

/-- Append a new operation, its type inferred from its inputs. -/
def create (op : String) (inputs : List NodeId) (attrs : Attrs) (r : Rebuild) :
    Except RebuildError (NodeId × Rebuild) :=
  match Op.ofName? op with
  | none => .error (.unknownOperator op)
  | some graphOp =>
    if graphOp.arity ≠ inputs.length then .error (.arityMismatch op graphOp.arity inputs.length)
    else match r.graph.apply graphOp inputs with
    | .error e => .error (.graph e)
    | .ok (graph, id) => do
      match graph.node? id with
      | some node => checkAttrs op attrs node.type
      | none => .ok ()
      .ok (id, { r with graph, created := r.created + 1 })

/-- The node of an operation whose inputs are done: one that is there already, the one of the
    base graph with the inputs in its place, or a new one. -/
def addOperation (r : Rebuild) (src : Source) (t : TermId) (op : String) (inputs : List NodeId)
    (attrs : Attrs) : Except RebuildError (NodeId × Rebuild) :=
  match r.operations.lookup (op, inputs) with
  | some id => .ok (id, r)
  | none => do
    checkOutput op attrs
    let (id, r) ← match src.origin? t with
      | some node =>
        let (id, r) := r.push { node with inputs }
        .ok (id, { r with reused := r.reused + 1 })
      | none => create op inputs attrs r
    .ok (id, { r with operations := ((op, inputs), id) :: r.operations })

/-- The nodes of operands one after the other, each by `visit`. -/
def visitOperands (visit : TermId → Rebuild → Except RebuildError (NodeId × Rebuild)) :
    List TermId → Rebuild → Except RebuildError (List NodeId × Rebuild)
  | [], r => .ok ([], r)
  | t :: rest, r => do
    let (id, r) ← visit t r
    let (ids, r) ← visitOperands visit rest r
    .ok (id :: ids, r)

/-- The node of a term, made with everything below it when it is not there yet, at most `depth`
    applications down. -/
def visitWithin (src : Source) : Nat → TermId → Rebuild → Except RebuildError (NodeId × Rebuild)
  | 0, _, _ => .error .malformedRoot
  | depth + 1, t, r =>
    match r.memo.lookup t with
    | some id => .ok (id, r)
    | none => match src.store.term? t with
      | none => .error .malformedRoot
      | some (.var v) => .error (.unresolvedVariable v)
      | some (.leaf (.input name)) => .error (.unknownInput name)
      | some (.leaf (.const c)) =>
        let (id, r) := r.addConstant src t c
        .ok (id, r.remember t id)
      | some (.app op args attrs) => do
        let (inputs, r) ← visitOperands (visitWithin src depth) args r
        let (id, r) ← r.addOperation src t op inputs attrs
        .ok (id, r.remember t id)

/-- The node of a term; operands are stored before the terms that use them. -/
def visit (src : Source) (t : TermId) (r : Rebuild) : Except RebuildError (NodeId × Rebuild) :=
  visitWithin src (t.index + 1) t r

/-- The outputs one after the other. -/
def addOutputs (src : Source) : List TermId → Rebuild → Except RebuildError Rebuild
  | [], r => .ok r
  | t :: rest, r => do
    let (id, r) ← visit src t r
    match r.graph.addOutput id with
    | .error e => .error (.graph e)
    | .ok graph => addOutputs src rest { r with graph }

end Rebuild

namespace Graph

/-- The operands of a root that bundles outputs of a graph. -/
def outputTerms (store : Store) (root : TermId) : Except RebuildError (List TermId) :=
  match Subst.empty.firstUnbound store root with
  | some v => .error (.unresolvedVariable v)
  | none => match store.app? root with
    | none => .error .malformedRoot
    | some (tag, outputs, _) => if tag = outputsTag then .ok outputs else .error .malformedRoot

/-- The graph with the placeholders of a base graph and given terms as outputs, if its
    interface is that of the base graph. -/
def rebuildFrom (src : Source) (outputs : List TermId) : Except RebuildError Rebuilt := do
  let r ← (Rebuild.empty.addPlaceholders src).addOutputs src outputs
  let expected := src.base.contract
  let found := r.graph.contract
  if expected = found then .ok ⟨r.graph, r.reused, r.created⟩
  else .error (.contractMismatch (.contract expected found))

/-- Rebuild a graph from a term that the base graph was reduced to. -/
def ofTerm (root : TermId) (base : Graph) : SessionM (Except RebuildError Rebuilt) := do
  match outputTerms (← get).store root with
  | .error e => return .error e
  | .ok outputs =>
    if outputs.length ≠ base.outputs.length then
      return .error (.contractMismatch (.outputs base.outputs.length outputs.length))
    else
      let terms ← base.toTerms
      return rebuildFrom ⟨(← get).store, base, terms.nodes⟩ outputs

end Graph

end Regraft
