import Regraft.Proofs.Graph.Check

/-
  Building and checking agree. A graph is built by calls, and a call that fails leaves it as it is
  (`build`). Each call appends a node that is right behind the others, only that a constant may be given a
  tensor that does not fill its shape; so a graph that is built is valid when all its constants fill their
  shapes (`validate_build_iff`). The nodes and outputs of a valid graph are calls themselves, which build
  the same graph again (`replay_eq`).
-/

namespace Regraft.Graph

variable {g g' : Graph} {node : Node} {nodes before : List Node} {outputs : List NodeId}

/-- A call that extends a graph. -/
inductive Call
  | placeholder (name : String) (type : ValueType)
  | constant (value : Tensor) (t : ElemType)
  | scalar (x : Float)
  | apply (op : Op) (inputs : List NodeId)
  | addOutput (id : NodeId)

namespace Call

/-- The graph that a call makes of a graph. -/
def run (g : Graph) : Call → Except GraphError Graph
  | placeholder name type => .ok (g.placeholder name type).1
  | constant value t => .ok (g.constant value t).1
  | scalar x => .ok (g.scalar x).1
  | apply op inputs => (g.apply op inputs).map (·.1)
  | addOutput id => g.addOutput id

/-- A constant is given a tensor that fills its shape. -/
def Fills : Call → Prop
  | constant value _ => value.fills = true
  | _ => True

end Call

/-- The graph after a call, which changes nothing if it fails. -/
def after (g : Graph) (c : Call) : Graph :=
  match c.run g with
  | .ok g' => g'
  | .error _ => g

/-- The graph that some calls build. -/
def build (calls : List Call) : Graph := calls.foldl after empty

/-! ## Calls -/

theorem apply_eq_ok_iff {op : Op} {ids : List NodeId} : (Call.apply op ids).run g = .ok g' ↔
    ∃ types type, g.operandTypes ids = .ok types ∧ op.infer types = .ok type ∧
      g' = ⟨g.nodes ++ [⟨op, ids, type⟩], g.outputs⟩ := by
  constructor
  · intro h
    match made : g.apply op ids with
    | .error e =>
      rw [Call.run, made] at h
      cases h
    | .ok p =>
      rw [Call.run, made] at h
      obtain ⟨types, operands, made⟩ := bind_eq_ok made
      obtain ⟨type, infer, made⟩ := bind_eq_ok made
      cases made
      cases h
      exact ⟨types, type, operands, infer, rfl⟩
  · rintro ⟨types, type, operands, infer, rfl⟩
    have made : g.apply op ids = .ok (g.push ⟨op, ids, type⟩) := by
      unfold apply
      rw [operands]
      dsimp only [bind, Except.bind]
      rw [infer]
    rw [Call.run, made]
    rfl

/-- An operation of which a type is inferred computes. -/
theorem computes_of_infer {op : Op} {types : List ValueType} {type : ValueType}
    (h : op.infer types = .ok type) : op.isLeaf = false := by
  cases op with
  | placeholder name => cases types <;> cases h
  | const value => cases types <;> cases h
  | _ => rfl

/-- A call adds an output that is a node, or a node that is right if it is a constant that fills its
    shape or anything else. -/
theorem Call.run_cases {c : Call} (h : c.run g = .ok g') :
    (∃ node, g' = ⟨g.nodes ++ [node], g.outputs⟩ ∧ (Right g node ↔ c.Fills)) ∨
      ∃ id, id.index < g.size ∧ g' = ⟨g.nodes, g.outputs ++ [id]⟩ ∧ c.Fills := by
  cases c with
  | placeholder name type =>
    cases h
    exact .inl ⟨_, rfl, iff_of_true (.placeholder name type) trivial⟩
  | constant value t =>
    cases h
    refine .inl ⟨_, rfl, fun right => ?_, fun fills => .const t fills⟩
    cases right with
    | const _ fills => exact fills
    | operation computes => cases computes
  | scalar x =>
    cases h
    exact .inl ⟨_, rfl, iff_of_true (.const _ rfl) trivial⟩
  | apply op ids =>
    obtain ⟨types, type, operands, infer, rfl⟩ := apply_eq_ok_iff.mp h
    exact .inl ⟨_, rfl, iff_of_true (.operation (computes_of_infer infer) operands infer) trivial⟩
  | addOutput id =>
    have h : (if id.index < g.size then _ else _) = _ := h
    split at h
    · rename_i lt
      cases h
      exact .inr ⟨id, lt, rfl, trivial⟩
    · cases h

/-- A constant is added whatever it is. -/
theorem Call.fills_of_error {c : Call} {e : GraphError} (h : c.run g = .error e) : c.Fills := by
  cases c with
  | constant value t => cases h
  | _ => trivial

theorem checked_after_iff {c : Call} : checkNodes [] (g.after c).nodes = .ok () ↔
    checkNodes [] g.nodes = .ok () ∧ c.Fills := by
  unfold after
  split
  · rename_i g' h
    obtain ⟨node, rfl, right⟩ | ⟨id, -, rfl, fills⟩ := Call.run_cases h
    · rw [checkNodes_append, checkNodes_cons, ← right]
      refine and_congr_right fun _ => ⟨fun h => ?_, fun h => ⟨h.anyOutputs, rfl⟩⟩
      exact h.1.anyOutputs
    · exact ⟨fun h => ⟨h, fills⟩, fun h => h.1⟩
  · rename_i e h
    exact ⟨fun checked => ⟨checked, Call.fills_of_error h⟩, fun h => h.1⟩

/-- Outputs stay nodes. -/
theorem inside_after {c : Call} (h : ∀ id ∈ g.outputs, id.index < g.size) :
    ∀ id ∈ (g.after c).outputs, id.index < (g.after c).size := by
  unfold after
  split
  · rename_i g' run
    obtain ⟨node, rfl, -⟩ | ⟨id, lt, rfl, -⟩ := Call.run_cases run
    · intro id mem
      show id.index < (g.nodes ++ [node]).length
      rw [List.length_append]
      exact Nat.lt_succ_of_lt (h id mem)
    · intro id' mem
      rcases List.mem_append.mp mem with mem | mem
      · exact h id' mem
      · rw [List.mem_singleton.mp mem]
        exact lt
  · exact h

/-! ## Sequences of calls -/

theorem checked_foldl_iff (calls : List Call) : checkNodes [] (calls.foldl after g).nodes = .ok () ↔
    checkNodes [] g.nodes = .ok () ∧ ∀ c ∈ calls, c.Fills := by
  induction calls generalizing g with
  | nil => exact ⟨fun h => ⟨h, nofun⟩, fun h => h.1⟩
  | cons c rest ih => rw [List.foldl_cons, ih, checked_after_iff, List.forall_mem_cons, and_assoc]

theorem inside_foldl (calls : List Call) (h : ∀ id ∈ g.outputs, id.index < g.size) :
    ∀ id ∈ (calls.foldl after g).outputs, id.index < (calls.foldl after g).size := by
  induction calls generalizing g with
  | nil => exact h
  | cons c rest ih => exact ih (inside_after h)

/-- A graph that is built is valid when its constants fill their shapes. -/
theorem validate_build_iff (calls : List Call) :
    (build calls).validate = .ok () ↔ ∀ c ∈ calls, c.Fills := by
  rw [validate_iff, build, checked_foldl_iff]
  exact ⟨fun h => h.1.2, fun h => ⟨⟨rfl, h⟩, inside_foldl calls nofun⟩⟩

/-! ## Replay -/

/-- The call that appends a node. -/
def Node.call (node : Node) : Call :=
  match node.op with
  | .placeholder name => .placeholder name node.type
  | .const value => .constant value node.type.1
  | op => .apply op node.inputs

/-- The calls that append the nodes of a graph and then its outputs. -/
def calls (g : Graph) : List Call := g.nodes.map Node.call ++ g.outputs.map .addOutput

/-- Build the nodes and outputs of a graph again, up to the first call that fails. -/
def replay (g : Graph) : Except GraphError Graph := g.calls.foldlM Call.run empty

theorem run_call (h : Right g node) :
    (Node.call node).run g = .ok ⟨g.nodes ++ [node], g.outputs⟩ := by
  cases h with
  | placeholder name type => rfl
  | const t fills => rfl
  | @operation op ids types type computes operands infer =>
    have same : Node.call ⟨op, ids, type⟩ = .apply op ids := by
      cases op with
      | placeholder name => cases computes
      | const value => cases computes
      | _ => rfl
    rw [same]
    exact apply_eq_ok_iff.mpr ⟨types, type, operands, infer, rfl⟩

theorem run_nodes (h : checkNodes before nodes = .ok ()) :
    (nodes.map Node.call).foldlM Call.run ⟨before, []⟩ = .ok ⟨before ++ nodes, []⟩ := by
  induction nodes generalizing before with
  | nil => rw [List.append_nil]; rfl
  | cons node rest ih =>
    obtain ⟨right, later⟩ := checkNodes_cons.mp h
    rw [List.map_cons, List.foldlM_cons, run_call right]
    refine (ih later).trans ?_
    rw [List.append_assoc]
    rfl

theorem run_outputs {ids : List NodeId} (h : ∀ id ∈ ids, id.index < nodes.length) :
    (ids.map Call.addOutput).foldlM Call.run ⟨nodes, outputs⟩ = .ok ⟨nodes, outputs ++ ids⟩ := by
  induction ids generalizing outputs with
  | nil => rw [List.append_nil]; rfl
  | cons id rest ih =>
    rw [List.forall_mem_cons] at h
    have first : (Call.addOutput id).run ⟨nodes, outputs⟩ = .ok ⟨nodes, outputs ++ [id]⟩ :=
      if_pos h.1
    rw [List.map_cons, List.foldlM_cons, first]
    refine (ih h.2).trans ?_
    rw [List.append_assoc]
    rfl

/-- A valid graph is what its calls build. -/
theorem replay_eq (valid : g.validate = .ok ()) : g.replay = .ok g := by
  obtain ⟨checked, inside⟩ := validate_iff.mp valid
  unfold replay calls
  rw [List.foldlM_append]
  have nodes : (g.nodes.map Node.call).foldlM Call.run empty = .ok ⟨g.nodes, []⟩ := run_nodes checked
  rw [nodes]
  exact run_outputs inside

/-- Calls of which none fails build the same whether failures are ignored or not. -/
theorem foldl_after {calls : List Call} (h : calls.foldlM Call.run g = .ok g') :
    calls.foldl after g = g' := by
  induction calls generalizing g with
  | nil => exact Except.ok.inj h
  | cons c rest ih =>
    rw [List.foldlM_cons] at h
    obtain ⟨next, run, later⟩ := bind_eq_ok h
    have step : g.after c = next := by
      rw [after, run]
    rw [List.foldl_cons, step]
    exact ih later

/-- The graphs that pass the check are those that are built with constants that fill their shapes. The
    calls for the nodes and outputs of such a graph all succeed and build it again. A graph that is built
    with other constants does not pass. -/
theorem validate_iff_built (g : Graph) (calls : List Call) :
    (g.validate = .ok () ↔ ∃ calls, (∀ c ∈ calls, c.Fills) ∧ build calls = g) ∧
      (g.validate = .ok () → g.replay = .ok g) ∧
      ((build calls).validate = .ok () ↔ ∀ c ∈ calls, c.Fills) := by
  refine ⟨⟨fun valid => ?_, ?_⟩, replay_eq, validate_build_iff calls⟩
  · have same : build g.calls = g := foldl_after (replay_eq valid)
    refine ⟨g.calls, ?_, same⟩
    rw [← validate_build_iff, same]
    exact valid
  · rintro ⟨calls, fills, rfl⟩
    exact (validate_build_iff calls).mpr fills

/-- The square of an input and a constant of two elements. -/
def squareAndPair : Graph where
  nodes := [⟨.placeholder "x", [], (.i32, ⟨[3]⟩)⟩, ⟨.unary .square, [⟨0⟩], (.i32, ⟨[3]⟩)⟩,
    ⟨.const ⟨⟨[2]⟩, [1.0, 2.0]⟩, [], (.f32, ⟨[2]⟩)⟩]
  outputs := [⟨1⟩, ⟨2⟩, ⟨1⟩]

theorem validate_squareAndPair :
    squareAndPair.validate = .ok () ∧ squareAndPair.replay = .ok squareAndPair ∧
      (∃ calls, build calls = squareAndPair) ∧
      (build [.placeholder "x" (.f64, .scalar), .apply (.unary .exp) [⟨1⟩], .addOutput ⟨0⟩]).validate =
        .ok () := by
  obtain ⟨built, replays, builds⟩ := validate_iff_built squareAndPair
    [.placeholder "x" (.f64, .scalar), .apply (.unary .exp) [⟨1⟩], .addOutput ⟨0⟩]
  have valid : squareAndPair.validate = .ok () := rfl
  obtain ⟨calls, -, same⟩ := built.mp valid
  exact ⟨valid, replays valid, ⟨calls, same⟩, builds.mpr (by simp [Call.Fills])⟩

/-- A constant of shape `[2]` with one value is added, and the graph is not valid. -/
theorem validate_build_shortConstant :
    (build [.constant ⟨⟨[2]⟩, [1.0]⟩ .f64]).nodes.length = 1 ∧
      (build [.constant ⟨⟨[2]⟩, [1.0]⟩ .f64]).validate = .error (.valueShape ⟨[2]⟩ 1) := ⟨rfl, rfl⟩

end Regraft.Graph
