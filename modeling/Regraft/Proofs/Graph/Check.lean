import Regraft.Graph.Basic
import Regraft.Proofs.Results

/-
  What the check of a graph says. A node is right behind some nodes in one of three ways, one for each
  kind of operation (`checkNode_iff`), and a graph is checked when every node is right behind the nodes
  before it and the outputs are nodes (`validate_iff`). Nodes that are appended change nothing about the
  types of the earlier ones. The interface of a graph are its placeholders in the order of their nodes, and
  a type for every output if it is checked.
-/

namespace Regraft

theorem Op.kinds (op : Op) :
    (∃ name, op = .placeholder name) ∨ (∃ value, op = .const value) ∨ op.isLeaf = false := by
  cases op with
  | placeholder name => exact .inl ⟨name, rfl⟩
  | const value => exact .inr (.inl ⟨value, rfl⟩)
  | _ => exact .inr (.inr rfl)

/-- The number of operands of which a type is inferred. -/
theorem Op.length_of_infer {op : Op} {types : List ValueType} {type : ValueType}
    (h : op.infer types = .ok type) : types.length = op.arity := by
  unfold infer at h
  split at h
  case h_6 => cases h
  all_goals rfl

namespace Graph

variable {g : Graph} {id : NodeId} {ids : List NodeId} {types : List ValueType} {node : Node}
  {nodes more : List Node} {outputs : List NodeId}

theorem node?_append (found : g.node? id = some node) :
    (Graph.mk (g.nodes ++ more) outputs).node? id = some node := by
  obtain ⟨lt, -⟩ := List.getElem?_eq_some_iff.mp found
  show (g.nodes ++ more)[id.index]? = some node
  rw [List.getElem?_append_left lt]
  exact found

/-- A node of a graph with one more node at the end. -/
theorem node?_push_cases {new : Node}
    (found : (Graph.mk (g.nodes ++ [new]) outputs).node? id = some node) :
    g.node? id = some node ∨ id.index = g.size ∧ node = new := by
  have found : (g.nodes ++ [new])[id.index]? = some node := found
  rcases Nat.lt_trichotomy id.index g.nodes.length with lt | eq | gt
  · rw [List.getElem?_append_left lt] at found
    exact .inl found
  · rw [eq, List.getElem?_concat_length] at found
    exact .inr ⟨eq, (Option.some.inj found).symm⟩
  · rw [List.getElem?_eq_none (by rw [List.length_append]; exact gt)] at found
    cases found

theorem index_lt_of_node? (found : g.node? id = some node) : id.index < g.size :=
  (List.getElem?_eq_some_iff.mp found).1

theorem node?_of_index_lt (lt : id.index < g.size) : ∃ node, g.node? id = some node :=
  ⟨_, List.getElem?_eq_getElem lt⟩

/-! ## Types of operands -/

theorem operandTypes_eq_ok_iff : g.operandTypes ids = .ok types ↔
    List.Forall₂ (fun id type => (g.node? id).map Node.type = some type) ids types := by
  induction ids generalizing types with
  | nil =>
    rw [operandTypes, List.forall₂_nil_left_iff]
    exact ⟨fun h => (Except.ok.inj h).symm, fun h => h ▸ rfl⟩
  | cons id rest ih =>
    rw [operandTypes, List.forall₂_cons_left_iff]
    cases found : g.node? id with
    | none => exact ⟨nofun, fun ⟨_, _, h, _⟩ => nomatch h⟩
    | some node =>
      dsimp only
      constructor
      · intro h
        match later : g.operandTypes rest with
        | .error e =>
          rw [later] at h
          cases h
        | .ok types =>
          rw [later] at h
          cases h
          exact ⟨_, _, rfl, ih.mp later, rfl⟩
      · rintro ⟨type, types, h, later, rfl⟩
        rw [ih.mpr later]
        cases h
        rfl

theorem index_lt_of_operandTypes (h : g.operandTypes ids = .ok types) :
    ∀ id ∈ ids, id.index < g.size := by
  intro id mem
  obtain ⟨i, lt, rfl⟩ := List.getElem_of_mem mem
  rw [operandTypes_eq_ok_iff, List.forall₂_iff_get] at h
  obtain ⟨node, found, -⟩ := Option.map_eq_some_iff.mp (h.2 i lt (h.1 ▸ lt))
  exact index_lt_of_node? found

/-- Inputs that are nodes have types. -/
theorem exists_operandTypes (h : ∀ id ∈ ids, id.index < g.size) :
    ∃ types, g.operandTypes ids = .ok types := by
  induction ids with
  | nil => exact ⟨[], rfl⟩
  | cons id rest ih =>
    rw [List.forall_mem_cons] at h
    obtain ⟨types, later⟩ := ih h.2
    obtain ⟨node, found⟩ := node?_of_index_lt h.1
    refine ⟨node.type :: types, operandTypes_eq_ok_iff.mpr (.cons ?_ (operandTypes_eq_ok_iff.mp later))⟩
    rw [found]
    rfl

theorem operandTypes_append (h : g.operandTypes ids = .ok types) :
    (Graph.mk (g.nodes ++ more) outputs).operandTypes ids = .ok types := by
  rw [operandTypes_eq_ok_iff] at h ⊢
  refine h.imp fun id type known => ?_
  obtain ⟨node, found, eq⟩ := Option.map_eq_some_iff.mp known
  rw [node?_append found, ← eq]
  rfl

/-! ## Nodes -/

/-- A node is right behind the nodes of a graph. -/
inductive Right (before : Graph) : Node → Prop
  | placeholder (name : String) (type : ValueType) : Right before ⟨.placeholder name, [], type⟩
  | const {value : Tensor} (t : ElemType) (fills : value.fills = true) :
      Right before ⟨.const value, [], (t, value.shape)⟩
  | operation {op : Op} {ids : List NodeId} {types : List ValueType} {type : ValueType}
      (computes : op.isLeaf = false) (operands : before.operandTypes ids = .ok types)
      (infer : op.infer types = .ok type) : Right before ⟨op, ids, type⟩

theorem checkNode_iff : checkNode g node = .ok () ↔ Right g node := by
  obtain ⟨op, ids, type⟩ := node
  constructor
  · intro h
    unfold checkNode at h
    dsimp only at h
    split at h
    · cases h
    · rename_i length
      rw [not_not] at length
      split at h
      · cases h
      · rename_i types operands
        have none : op.arity = 0 → ids = [] := fun leaf =>
          List.length_eq_zero_iff.mp (length.trans leaf)
        cases op with
        | placeholder name =>
          obtain rfl := none rfl
          exact .placeholder name type
        | const value =>
          obtain rfl := none rfl
          dsimp only at h
          split at h
          · cases h
          · rename_i fills
            split at h
            · cases h
            · rename_i shape
              obtain ⟨t, s⟩ := type
              obtain rfl : value.shape = s := not_not.mp shape
              exact .const t (by simpa using fills)
        | _ =>
          dsimp only at h
          split at h
          · cases h
          · rename_i found infer
            split at h
            · cases h
            · rename_i same
              exact .operation rfl operands (not_not.mp same ▸ infer)
  · intro h
    cases h with
    | placeholder => rfl
    | @const value t fills =>
      unfold checkNode
      simp [operandTypes, Op.arity, fills]
    | @operation _ _ types _ computes operands infer =>
      have length : ids.length = op.arity :=
        (operandTypes_eq_ok_iff.mp operands).length_eq.trans (Op.length_of_infer infer)
      unfold checkNode
      dsimp only
      rw [if_neg (not_not.mpr length), operands]
      cases op with
      | placeholder name => cases computes
      | const value => cases computes
      | _ =>
        dsimp only
        rw [infer]
        exact if_neg (not_not.mpr rfl)

theorem Right.index_lt (h : Right g node) : ∀ id ∈ node.inputs, id.index < g.size := by
  cases h with
  | placeholder => nofun
  | const => nofun
  | operation _ operands _ => exact index_lt_of_operandTypes operands

/-- A constant that is right fills its shape, which is the declared one. -/
theorem Right.of_const (h : Right g node) {value : Tensor} (op : node.op = .const value) :
    value.fills = true ∧ node.type.2 = value.shape := by
  cases h with
  | placeholder => cases op
  | const t fills =>
    cases op
    exact ⟨fills, rfl⟩
  | operation computes =>
    cases op
    cases computes

theorem Right.append (h : Right g node) : Right ⟨g.nodes ++ more, outputs⟩ node := by
  cases h with
  | placeholder => exact .placeholder ..
  | const t fills => exact .const t fills
  | operation computes operands infer =>
    exact .operation computes (operandTypes_append operands) infer

/-- The outputs do not matter. -/
theorem Right.anyOutputs (h : Right g node) : Right ⟨g.nodes, outputs⟩ node := by
  have same : Right ⟨g.nodes ++ [], outputs⟩ node := h.append
  rw [List.append_nil] at same
  exact same

/-! ## Graphs -/

theorem checkNodes_cons {before : List Node} :
    checkNodes before (node :: nodes) = .ok () ↔
      Right ⟨before, []⟩ node ∧ checkNodes (before ++ [node]) nodes = .ok () := by
  rw [checkNodes, ← checkNode_iff]
  cases checkNode ⟨before, []⟩ node with
  | error e => exact ⟨nofun, nofun⟩
  | ok _ => exact ⟨fun h => ⟨rfl, h⟩, fun h => h.2⟩

theorem checkNodes_append {before : List Node} :
    checkNodes before (nodes ++ more) = .ok () ↔
      checkNodes before nodes = .ok () ∧ checkNodes (before ++ nodes) more = .ok () := by
  induction nodes generalizing before with
  | nil =>
    rw [List.nil_append, List.append_nil]
    exact ⟨fun h => ⟨rfl, h⟩, fun h => h.2⟩
  | cons node rest ih =>
    rw [List.cons_append, checkNodes_cons, checkNodes_cons, ih, List.append_assoc, and_assoc]
    rfl

theorem checkOutputs_iff : g.checkOutputs ids = .ok () ↔ ∀ id ∈ ids, id.index < g.size := by
  induction ids with
  | nil => exact ⟨fun _ => nofun, fun _ => rfl⟩
  | cons id rest ih =>
    rw [checkOutputs, List.forall_mem_cons, ← ih]
    split
    · exact ⟨fun h => ⟨‹_›, h⟩, fun h => h.2⟩
    · exact ⟨nofun, fun h => absurd h.1 ‹_›⟩

theorem validate_iff : g.validate = .ok () ↔
    checkNodes [] g.nodes = .ok () ∧ ∀ id ∈ g.outputs, id.index < g.size := by
  rw [← checkOutputs_iff, validate]
  cases checkNodes [] g.nodes with
  | error e => exact ⟨nofun, nofun⟩
  | ok _ => exact ⟨fun h => ⟨rfl, h⟩, fun h => h.2⟩

/-- Every node of a checked list is right behind the nodes before it. -/
theorem right_of_checkNodes (h : checkNodes [] nodes = .ok ()) {i : Nat}
    (found : nodes[i]? = some node) : Right ⟨nodes.take i, []⟩ node := by
  obtain ⟨lt, rfl⟩ := List.getElem?_eq_some_iff.mp found
  rw [← List.take_append_drop i nodes, checkNodes_append, List.drop_eq_getElem_cons lt,
    checkNodes_cons] at h
  exact h.2.1

/-- Every node of a checked graph is right in the graph, and its inputs precede it. -/
theorem right_of_checked (h : checkNodes [] g.nodes = .ok ()) (found : g.node? id = some node) :
    Right g node ∧ ∀ input ∈ node.inputs, input.index < id.index := by
  have right := right_of_checkNodes h found
  constructor
  · have whole : Right ⟨g.nodes.take id.index ++ g.nodes.drop id.index, g.outputs⟩ node :=
      right.append
    rw [List.take_append_drop] at whole
    exact whole
  · intro input mem
    have lt : input.index < (g.nodes.take id.index).length := right.index_lt input mem
    rw [List.length_take] at lt
    omega

end Graph

/-! ## Interfaces -/

variable {g : Graph} {types : List ValueType} {id : NodeId} {node : Node}

theorem mem_placeholders_iff {name : String} : (id, name, node) ∈ g.placeholders ↔
    g.node? id = some node ∧ node.op = .placeholder name := by
  unfold Graph.placeholders
  rw [List.mem_filterMap]
  constructor
  · rintro ⟨⟨found, i⟩, mem, eq⟩
    have place := List.mem_zipIdx_iff_getElem?.mp mem
    dsimp only at eq
    split at eq
    · rename_i name' op
      cases eq
      exact ⟨place, op⟩
    · cases eq
  · rintro ⟨place, op⟩
    refine ⟨(node, id.index), List.mem_zipIdx_iff_getElem?.mpr place, ?_⟩
    dsimp only
    rw [op]

namespace Graph

/-- The name and the type of a placeholder. -/
def placeholderType? (node : Node) : Option (String × ValueType) :=
  match node.op with
  | .placeholder name => some (name, node.type)
  | _ => none

theorem contract_inputs (g : Graph) : g.contract.inputs = g.nodes.filterMap placeholderType? := by
  have places : g.nodes.filterMap placeholderType? =
      g.nodes.zipIdx.filterMap fun p => placeholderType? p.1 := by
    conv_lhs => rw [← List.zipIdx_map_fst 0 g.nodes]
    exact List.filterMap_map
  unfold contract placeholders
  dsimp only
  rw [places, List.map_filterMap]
  refine List.filterMap_congr fun ⟨node, i⟩ _ => ?_
  unfold placeholderType?
  dsimp only
  cases node.op <;> rfl

theorem mem_contract_inputs {name : String} {type : ValueType} :
    (name, type) ∈ g.contract.inputs ↔
      ∃ id node, g.node? id = some node ∧ node.op = .placeholder name ∧ node.type = type := by
  show _ ∈ g.placeholders.map _ ↔ _
  rw [List.mem_map]
  constructor
  · rintro ⟨⟨id, name, node⟩, mem, eq⟩
    cases eq
    exact ⟨id, node, (mem_placeholders_iff.mp mem).1, (mem_placeholders_iff.mp mem).2, rfl⟩
  · rintro ⟨id, node, found, op, rfl⟩
    exact ⟨(id, name, node), mem_placeholders_iff.mpr ⟨found, op⟩, rfl⟩

theorem contract_outputs (h : g.outputs.mapM (fun id => (g.node? id).map Node.type) = some types) :
    g.contract.outputs = types := by
  unfold contract
  dsimp only
  rw [mapM_eq_some_iff] at h
  generalize g.outputs = ids at h
  induction h with
  | nil => rfl
  | cons first _ ih => rw [List.filterMap_cons, first, ih]

/-- The outputs of a checked graph have types. -/
theorem length_contract_outputs (inside : ∀ id ∈ g.outputs, id.index < g.size) :
    g.contract.outputs.length = g.outputs.length := by
  obtain ⟨types, ok⟩ := exists_operandTypes inside
  rw [operandTypes_eq_ok_iff] at ok
  rw [contract_outputs (mapM_eq_some_iff.mpr ok), ok.length_eq]

theorem placeholderType?_of_computes (h : node.op.isLeaf = false) : placeholderType? node = none := by
  unfold placeholderType?
  split
  · rename_i op
    rw [op] at h
    cases h
  · rfl

end Graph

end Regraft
