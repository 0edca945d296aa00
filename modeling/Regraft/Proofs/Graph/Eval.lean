import Regraft.Graph.Eval
import Regraft.Proofs.Graph.Check
import Regraft.Proofs.Tensor.Broadcast

/-
  Checked graphs do not go wrong. The value of a node is given by recursion over the nodes below it
  (`Evaluates`), and there is at most one. In a checked graph the next node computes its value from the
  values of the nodes before it, unless it is a placeholder that is not fed right (`compute_or_lacks`). So
  a run evaluates all nodes or stops at a placeholder (`evalNodes_or_lacks`): with feeds that fit, every
  output gets its value, of the declared shape, and otherwise a feed is missing or has another shape
  (`eval_checked`).
-/

namespace Regraft

namespace Graph

variable {ar : Arithmetic} {feeds : Feeds} {g : Graph} {values : List Tensor} {id : NodeId}
  {node : Node} {t u : Tensor} {rest : List Node}

variable (ar feeds g) in
/-- The value of a node, by recursion over the nodes below it: operands are combined over their common
    shape, and every result is rounded to the declared element type. -/
inductive Evaluates : NodeId → Tensor → Prop
  | placeholder {id : NodeId} {name : String} {type : ValueType} {t : Tensor}
      (found : g.node? id = some ⟨.placeholder name, [], type⟩) (fed : feeds.lookup name = some t) :
      Evaluates id (t.map (ar.round type.1))
  | const {id : NodeId} {t : Tensor} {type : ValueType}
      (found : g.node? id = some ⟨.const t, [], type⟩) : Evaluates id (t.map (ar.round type.1))
  | binary {id i j : NodeId} {f : Binary} {type : ValueType} {a b t : Tensor}
      (found : g.node? id = some ⟨.binary f, [i, j], type⟩) (left : Evaluates i a)
      (right : Evaluates j b) (combines : Tensor.Combines (ar.binary f) a b t) :
      Evaluates id (t.map (ar.round type.1))
  | unary {id i : NodeId} {f : Unary} {type : ValueType} {a : Tensor}
      (found : g.node? id = some ⟨.unary f, [i], type⟩) (operand : Evaluates i a) :
      Evaluates id ((a.map (ar.unary f)).map (ar.round type.1))
  | sum {id i : NodeId} {type : ValueType} {a : Tensor}
      (found : g.node? id = some ⟨.sum, [i], type⟩) (operand : Evaluates i a) :
      Evaluates id ((a.sum (ar.binary .add)).map (ar.round type.1))

/-- A node has at most one value. -/
theorem Evaluates.unique (ht : Evaluates ar feeds g id t) (hu : Evaluates ar feeds g id u) : t = u := by
  induction ht generalizing u with
  | placeholder found fed =>
    cases hu with
    | placeholder found' fed' =>
      cases found.symm.trans found'
      cases fed.symm.trans fed'
      rfl
    | _ found' => cases found.symm.trans found'
  | const found =>
    cases hu with
    | const found' =>
      cases found.symm.trans found'
      rfl
    | _ found' => cases found.symm.trans found'
  | binary found _ _ combines left right =>
    cases hu with
    | binary found' left' right' combines' =>
      cases found.symm.trans found'
      cases left left'
      cases right right'
      rw [combines.unique combines']
    | _ found' => cases found.symm.trans found'
  | unary found _ operand =>
    cases hu with
    | unary found' operand' =>
      cases found.symm.trans found'
      rw [operand operand']
    | _ found' => cases found.symm.trans found'
  | sum found _ operand =>
    cases hu with
    | sum found' operand' =>
      cases found.symm.trans found'
      rw [operand operand']
    | _ found' => cases found.symm.trans found'

/-! ## One node -/

variable (ar feeds g) in
/-- A value of a node, which fills the declared shape. -/
structure Valued (id : NodeId) (t : Tensor) : Prop where
  evaluates : Evaluates ar feeds g id t
  fills : t.fills = true
  shape : (g.node? id).map (·.type.2) = some t.shape

/-- The values of some first nodes. -/
def ValuedAll (ar : Arithmetic) (feeds : Feeds) (g : Graph) (values : List Tensor) : Prop :=
  ∀ id : NodeId, ∀ t, values[id.index]? = some t → Valued ar feeds g id t

/-- The tensors that are read fill their shapes. -/
def Filled (feeds : Feeds) (g : Graph) : Prop :=
  ∀ name type, (name, type) ∈ g.contract.inputs → ∀ t, feeds.lookup name = some t → t.fills = true

theorem ValuedAll.push (h : ValuedAll ar feeds g values) (valued : Valued ar feeds g ⟨values.length⟩ t) :
    ValuedAll ar feeds g (values ++ [t]) := by
  intro id u here
  rcases Nat.lt_trichotomy id.index values.length with lt | eq | gt
  · rw [List.getElem?_append_left lt] at here
    exact h id u here
  · obtain ⟨n⟩ := id
    obtain rfl : n = values.length := eq
    rw [List.getElem?_concat_length] at here
    exact Option.some.inj here ▸ valued
  · rw [List.getElem?_eq_none (by rw [List.length_append]; exact gt)] at here
    cases here

/-- An operand that has a value of the type of its node. -/
theorem ValuedAll.operand (h : ValuedAll ar feeds g values) {type : ValueType}
    (earlier : id.index < values.length) (known : (g.node? id).map Node.type = some type) :
    ∃ t, values[id.index]? = some t ∧ Valued ar feeds g id t ∧ t.shape = type.2 := by
  have place := List.getElem?_eq_getElem earlier
  have valued := h id _ place
  refine ⟨_, place, valued, ?_⟩
  obtain ⟨node, found, rfl⟩ := Option.map_eq_some_iff.mp known
  have shape := valued.shape
  rw [found] at shape
  exact (Option.some.inj shape).symm

end Graph

end Regraft
