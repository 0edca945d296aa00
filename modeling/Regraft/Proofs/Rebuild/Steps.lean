import Regraft.Graph.Rebuild
import Regraft.Proofs.Graph.Terms
import Mathlib.Logic.Relation

/-
  Rebuilding, step by step. A visit does five kinds of things (`Step`): it makes the node of a constant,
  it takes the node of an operation that is there already, it takes a node of the base graph over, it
  makes a new node, or it notes an output. Whatever the steps of a run keep holds of the graph that is
  rebuilt (`rebuildFrom_run`). What has a node keeps it (`Grows`).
-/

namespace Regraft

theorem lookup_cons_cases {α β : Type} [BEq α] [LawfulBEq α] {k k' : α} {b b' : β}
    {l : List (α × β)} (h : ((k, b) :: l).lookup k' = some b') :
    (k' = k ∧ b' = b) ∨ l.lookup k' = some b' := by
  rw [List.lookup_cons] at h
  split at h
  · rename_i eq
    cases h
    exact .inl ⟨beq_iff_eq.mp eq, rfl⟩
  · exact .inr h

/-- A key that was not there hides no other. -/
theorem lookup_cons_of_new {α β : Type} [BEq α] [LawfulBEq α] {k k' : α} {b b' : β}
    {l : List (α × β)} (new : l.lookup k = none) (h : l.lookup k' = some b') :
    ((k, b) :: l).lookup k' = some b' := by
  rw [List.lookup_cons]
  split
  · rename_i eq
    rw [beq_iff_eq.mp eq, new] at h
    cases h
  · exact h

theorem lookup_cons_of_ne {α β : Type} [BEq α] [LawfulBEq α] {k k' : α} (b : β)
    (l : List (α × β)) (ne : k' ≠ k) : ((k, b) :: l).lookup k' = l.lookup k' := by
  rw [List.lookup_cons, beq_eq_false_iff_ne.mpr ne]

/-- A term that is one of some terms, or is an operand below one of them. -/
inductive Store.Below (st : Store) (outputs : List TermId) : TermId → Prop
  | output {t : TermId} (mem : t ∈ outputs) : Below st outputs t
  | operand {t u : TermId} {op : String} {args : List TermId} {attrs : Attrs}
      (term : st.term? t = some (.app op args attrs)) (below : Below st outputs t) (mem : u ∈ args) :
      Below st outputs u

/-- The node of a constant: the one it stands for in the base graph, or a new one. -/
def Source.constantNode (src : Source) (t : TermId) (c : Constant) : Node :=
  (src.origin? t).getD ⟨.const c.toTensor, [], (c.elem, c.shape)⟩

namespace Rebuild

variable {src : Source} {below : TermId → Prop} {r r' r'' : Rebuild} {t : TermId} {id : NodeId}
  {args : List TermId} {ids : List NodeId}

theorem addConstant_eq (r : Rebuild) (src : Source) (t : TermId) (c : Constant) :
    r.addConstant src t c = r.push (src.constantNode t c) := by
  unfold addConstant Source.constantNode
  cases src.origin? t <;> rfl

/-- A new node of an application, known by its term and by its inputs. -/
def put (r : Rebuild) (t : TermId) (op : String) (node : Node) : Rebuild where
  graph := { r.graph with nodes := r.graph.nodes ++ [node] }
  memo := (t, ⟨r.graph.size⟩) :: r.memo
  operations := ((op, node.inputs), ⟨r.graph.size⟩) :: r.operations
  reused := r.reused
  created := r.created

/-- Nodes that operands have. -/
def Found (r : Rebuild) : List TermId → List NodeId → Prop :=
  List.Forall₂ fun t id => r.memo.lookup t = some id

/-- An application whose operands have nodes and that has none itself. -/
structure Due (src : Source) (below : TermId → Prop) (r : Rebuild) (t : TermId) (op : String)
    (args : List TermId) (attrs : Attrs) (ids : List NodeId) : Prop where
  here : below t
  new : r.memo.lookup t = none
  term : src.store.term? t = some (.app op args attrs)
  operands : r.Found args ids

/-- One thing that happens to a graph on its way, with terms of some kind. -/
inductive Step (src : Source) (below : TermId → Prop) : Rebuild → Rebuild → Prop
  | constant {r : Rebuild} {t : TermId} {c : Constant} (here : below t)
      (new : r.memo.lookup t = none) (term : src.store.term? t = some (.leaf (.const c))) :
      Step src below r ((r.push (src.constantNode t c)).2.remember t ⟨r.graph.size⟩)
  | shared {r : Rebuild} {t : TermId} {op : String} {args : List TermId} {attrs : Attrs}
      {ids : List NodeId} {id : NodeId} (due : Due src below r t op args attrs ids)
      (known : r.operations.lookup (op, ids) = some id) : Step src below r (r.remember t id)
  | reused {r : Rebuild} {t : TermId} {op : String} {args : List TermId} {attrs : Attrs}
      {ids : List NodeId} {node : Node} (due : Due src below r t op args attrs ids)
      (unknown : r.operations.lookup (op, ids) = none) (output : checkOutput op attrs = .ok ())
      (origin : src.origin? t = some node) :
      Step src below r { r.put t op { node with inputs := ids } with reused := r.reused + 1 }
  | created {r : Rebuild} {t : TermId} {op : String} {args : List TermId} {attrs : Attrs}
      {ids : List NodeId} {o : Op} {types : List ValueType} {type : ValueType}
      (due : Due src below r t op args attrs ids) (unknown : r.operations.lookup (op, ids) = none)
      (output : checkOutput op attrs = .ok ()) (origin : src.origin? t = none)
      (named : Op.ofName? op = some o) (operands : r.graph.operandTypes ids = .ok types)
      (infer : o.infer types = .ok type) (agree : checkAttrs op attrs type = .ok ()) :
      Step src below r { r.put t op ⟨o, ids, type⟩ with created := r.created + 1 }
  | output {r : Rebuild} {t : TermId} {id : NodeId} (here : below t)
      (found : r.memo.lookup t = some id) (lt : id.index < r.graph.size) :
      Step src below r { r with graph := { r.graph with outputs := r.graph.outputs ++ [id] } }

/-! ## Growth -/

/-- Nodes are only appended, and what has a node keeps it. -/
structure Grows (r r' : Rebuild) : Prop where
  nodes : ∃ more, r'.graph.nodes = r.graph.nodes ++ more
  memo : ∀ t id, r.memo.lookup t = some id → r'.memo.lookup t = some id
  operations : ∀ key id, r.operations.lookup key = some id → r'.operations.lookup key = some id

namespace Grows

theorem refl (r : Rebuild) : r.Grows r :=
  ⟨⟨[], (List.append_nil _).symm⟩, fun _ _ h => h, fun _ _ h => h⟩

theorem trans (h : r.Grows r') (h' : r'.Grows r'') : r.Grows r'' where
  nodes := by
    obtain ⟨more, eq⟩ := h.nodes
    obtain ⟨more', eq'⟩ := h'.nodes
    exact ⟨more ++ more', by rw [eq', eq, List.append_assoc]⟩
  memo t id found := h'.memo t id (h.memo t id found)
  operations key id found := h'.operations key id (h.operations key id found)

theorem node? (h : r.Grows r') {node : Node} (found : r.graph.node? id = some node) :
    r'.graph.node? id = some node := by
  obtain ⟨more, eq⟩ := h.nodes
  have later : (Graph.mk (r.graph.nodes ++ more) r'.graph.outputs).node? id = some node :=
    Graph.node?_append found
  rw [← eq] at later
  exact later

theorem found (h : r.Grows r') (all : r.Found args ids) : r'.Found args ids :=
  List.Forall₂.imp h.memo all

end Grows

/-- Counts do not matter. -/
theorem Grows.counts (h : r.Grows r') (reused created : Nat) :
    r.Grows { r' with reused, created } := ⟨h.nodes, h.memo, h.operations⟩

theorem put_grows {op : String} (node : Node) (new : r.memo.lookup t = none)
    (unknown : r.operations.lookup (op, node.inputs) = none) : r.Grows (r.put t op node) where
  nodes := ⟨[node], rfl⟩
  memo _ _ := lookup_cons_of_new new
  operations _ _ := lookup_cons_of_new unknown

theorem Step.grows (h : Step src below r r') : r.Grows r' := by
  cases h with
  | constant _ new _ =>
    exact ⟨⟨[_], rfl⟩, fun _ _ => lookup_cons_of_new new, fun _ _ h => h⟩
  | shared due _ => exact ⟨(Grows.refl r).nodes, fun _ _ => lookup_cons_of_new due.new, fun _ _ h => h⟩
  | reused due unknown _ _ => exact (put_grows ⟨_, _, _⟩ due.new unknown).counts ..
  | created due unknown _ _ _ _ _ _ => exact (put_grows ⟨_, _, _⟩ due.new unknown).counts ..
  | output => exact ⟨(Grows.refl r).nodes, fun _ _ h => h, fun _ _ h => h⟩

theorem grows_of_steps (h : Relation.ReflTransGen (Step src below) r r') : r.Grows r' := by
  induction h with
  | refl => exact .refl r
  | tail _ step ih => exact ih.trans step.grows

/-! ## Visits -/

/-- A visit goes in steps to where the term has its node. Terms that are stored later have the nodes
    that they had. -/
structure Visited (src : Source) (below : TermId → Prop) (r : Rebuild) (t : TermId) (id : NodeId)
    (r' : Rebuild) : Prop where
  steps : Relation.ReflTransGen (Step src below) r r'
  found : r'.memo.lookup t = some id
  outputs : r'.graph.outputs = r.graph.outputs
  later : ∀ u : TermId, t.index < u.index → r'.memo.lookup u = r.memo.lookup u

theorem addOperation_step {op : String} {attrs : Attrs} (due : Due src below r t op args attrs ids)
    (ok : r.addOperation src t op ids attrs = .ok (id, r')) :
    Step src below r (r'.remember t id) ∧ r'.graph.outputs = r.graph.outputs ∧ r'.memo = r.memo := by
  unfold addOperation at ok
  split at ok
  · rename_i known
    cases ok
    exact ⟨.shared due known, rfl, rfl⟩
  · rename_i unknown
    obtain ⟨⟨⟩, output, ok⟩ := bind_eq_ok ok
    dsimp only at ok
    split at ok
    · rename_i node origin
      cases ok
      exact ⟨.reused due unknown output origin, rfl, rfl⟩
    · rename_i origin
      obtain ⟨⟨id', r₁⟩, made, ok⟩ := bind_eq_ok ok
      cases ok
      unfold create at made
      split at made
      · cases made
      · rename_i o named
        split at made
        · cases made
        · split at made
          · cases made
          · rename_i graph id' applied
            obtain ⟨types, operands, applied⟩ := bind_eq_ok applied
            obtain ⟨type, infer, applied⟩ := bind_eq_ok applied
            cases applied
            have here : (Graph.mk (r.graph.nodes ++ [⟨o, ids, type⟩]) r.graph.outputs).node?
                ⟨r.graph.size⟩ = some ⟨o, ids, type⟩ := List.getElem?_concat_length
            dsimp only [Graph.push] at made
            rw [here] at made
            obtain ⟨⟨⟩, agree, made⟩ := bind_eq_ok made
            cases made
            exact ⟨.created due unknown output origin named operands infer agree, rfl, rfl⟩

theorem visitOperands_steps
    {visit : TermId → Rebuild → Except RebuildError (NodeId × Rebuild)}
    (each : ∀ t ∈ args, ∀ {r id r'}, visit t r = .ok (id, r') → Visited src below r t id r')
    (ok : visitOperands visit args r = .ok (ids, r')) :
    Relation.ReflTransGen (Step src below) r r' ∧ r'.Found args ids ∧
      r'.graph.outputs = r.graph.outputs ∧
      ∀ u : TermId, (∀ t ∈ args, t.index < u.index) → r'.memo.lookup u = r.memo.lookup u := by
  induction args generalizing r ids with
  | nil =>
    cases ok
    exact ⟨.refl, .nil, rfl, fun _ _ => rfl⟩
  | cons t rest ih =>
    rw [List.forall_mem_cons] at each
    obtain ⟨⟨id, r₁⟩, first, ok⟩ := bind_eq_ok ok
    obtain ⟨⟨ids', r₂⟩, behind, ok⟩ := bind_eq_ok ok
    cases ok
    have visited := each.1 first
    obtain ⟨steps, found, outputs, later⟩ := ih each.2 behind
    refine ⟨visited.steps.trans steps, .cons ?_ found, outputs.trans visited.outputs, fun u above => ?_⟩
    · exact (grows_of_steps steps).memo _ _ visited.found
    · rw [List.forall_mem_cons] at above
      exact (later u above.2).trans (visited.later u above.1)

theorem addOutputs_cons {rest : List TermId} {graph : Graph} (visited : visit src t r = .ok (id, r'))
    (added : r'.graph.addOutput id = .ok graph) :
    addOutputs src (t :: rest) r = addOutputs src rest { r' with graph } := by
  rw [addOutputs, visited]
  dsimp only [bind, Except.bind]
  rw [added]

variable (below) (valid : src.store.Valid)
  (closed : ∀ {t op args attrs}, src.store.term? t = some (.app op args attrs) → below t →
    ∀ u ∈ args, below u)

include valid closed

theorem visitWithin_steps {n : Nat} (here : below t) (ok : visitWithin src n t r = .ok (id, r')) :
    Visited src below r t id r' := by
  induction n generalizing t r id r' with
  | zero => cases ok
  | succ n ih =>
    unfold visitWithin at ok
    split at ok
    · rename_i found
      cases ok
      exact ⟨.refl, found, rfl, fun _ _ => rfl⟩
    · rename_i new
      have apart : ∀ {u : TermId}, t.index < u.index → u ≠ t := by
        rintro u lt rfl
        exact Nat.lt_irrefl _ lt
      split at ok
      · cases ok
      · cases ok
      · cases ok
      · rename_i c term
        rw [addConstant_eq] at ok
        cases ok
        exact ⟨.single (.constant here new term), List.lookup_cons_self, rfl,
          fun u lt => lookup_cons_of_ne _ _ (apart lt)⟩
      · rename_i op args attrs term
        obtain ⟨⟨ids, r₁⟩, visited, ok⟩ := bind_eq_ok ok
        obtain ⟨⟨id', r₂⟩, made, ok⟩ := bind_eq_ok ok
        cases ok
        have before := valid t op args attrs term
        obtain ⟨steps, operands, outputs, later⟩ := visitOperands_steps
          (fun u mem _ _ _ => ih (closed term here u mem)) visited
        have due : Due src below r₁ t op args attrs ids :=
          ⟨here, (later t before).trans new, term, operands⟩
        obtain ⟨step, kept, memo⟩ := addOperation_step due made
        refine ⟨steps.tail step, List.lookup_cons_self, kept.trans outputs, fun u lt => ?_⟩
        rw [remember, memo]
        refine (lookup_cons_of_ne _ _ (apart lt)).trans (later u fun w mem => ?_)
        exact Nat.lt_trans (before w mem) lt

/-- The outputs are added in steps; they are the nodes of the terms. -/
theorem addOutputs_steps {outputs : List TermId} (here : ∀ t ∈ outputs, below t)
    (ok : addOutputs src outputs r = .ok r') :
    Relation.ReflTransGen (Step src below) r r' ∧ ∃ ids, r'.Found outputs ids ∧
      r'.graph.outputs = r.graph.outputs ++ ids := by
  induction outputs generalizing r with
  | nil =>
    cases ok
    exact ⟨.refl, [], .nil, (List.append_nil _).symm⟩
  | cons t rest ih =>
    rw [List.forall_mem_cons] at here
    obtain ⟨⟨id, r₁⟩, visited, ok⟩ := bind_eq_ok ok
    have first := visitWithin_steps below valid closed here.1 visited
    dsimp only at ok
    split at ok
    · cases ok
    · rename_i graph added
      unfold Graph.addOutput at added
      split at added
      · rename_i lt
        cases added
        obtain ⟨steps, ids, found, outputs⟩ := ih here.2 ok
        refine ⟨(first.steps.tail (.output here.1 first.found lt)).trans steps, id :: ids, .cons ?_ found, ?_⟩
        · exact (grows_of_steps steps).memo _ _ first.found
        · rw [outputs]
          show (r₁.graph.outputs ++ [id]) ++ ids = _
          rw [first.outputs, List.append_assoc, List.singleton_append]
      · cases added

/-! ## Runs -/

/-- A run that ends with the nodes of some outputs, and with the interface of the base graph. All terms
    that it has visited are below the outputs. -/
structure Run (src : Source) (outputs : List TermId) (r : Rebuild) : Prop where
  steps : Relation.ReflTransGen (Step src (src.store.Below outputs)) (empty.addPlaceholders src) r
  found : r.Found outputs r.graph.outputs
  contract : src.base.contract = r.graph.contract

end Rebuild

namespace Graph

theorem rebuildFrom_eq_ok {src : Source} {outputs : List TermId} {b : Rebuilt}
    (ok : rebuildFrom src outputs = .ok b) : ∃ r,
      (Rebuild.empty.addPlaceholders src).addOutputs src outputs = .ok r ∧
        src.base.contract = r.graph.contract ∧ b = ⟨r.graph, r.reused, r.created⟩ := by
  obtain ⟨r, made, ok⟩ := bind_eq_ok ok
  dsimp only at ok
  split at ok
  · rename_i same
    cases ok
    exact ⟨r, made, same, rfl⟩
  · cases ok

/-- Adding the outputs is a run, if the interface is that of the base graph. -/
theorem run_of_addOutputs {src : Source} {outputs : List TermId} {r : Rebuild}
    (valid : src.store.Valid) (start : (Rebuild.empty.addPlaceholders src).graph.outputs = [])
    (made : (Rebuild.empty.addPlaceholders src).addOutputs src outputs = .ok r)
    (contract : src.base.contract = r.graph.contract) : Rebuild.Run src outputs r := by
  obtain ⟨steps, ids, found, outputs⟩ := Rebuild.addOutputs_steps (src.store.Below outputs) valid
    (fun term below u mem => .operand term below mem) (fun t mem => .output mem) made
  rw [start, List.nil_append] at outputs
  exact ⟨steps, outputs ▸ found, contract⟩

theorem rebuildFrom_run {src : Source} {outputs : List TermId} {b : Rebuilt}
    (valid : src.store.Valid) (start : (Rebuild.empty.addPlaceholders src).graph.outputs = [])
    (ok : rebuildFrom src outputs = .ok b) :
    ∃ r, Rebuild.Run src outputs r ∧ b = ⟨r.graph, r.reused, r.created⟩ := by
  obtain ⟨r, made, contract, eq⟩ := rebuildFrom_eq_ok ok
  exact ⟨r, run_of_addOutputs valid start made contract, eq⟩

theorem outputTerms_eq_ok {st : Store} {root : TermId} {outputs : List TermId}
    (h : outputTerms st root = .ok outputs) :
    ∃ attrs, st.term? root = some (.app outputsTag outputs attrs) := by
  unfold outputTerms at h
  split at h
  · cases h
  · split at h
    · cases h
    · rename_i tag outputs' attrs app
      split at h
      · rename_i eq
        cases h
        exact ⟨attrs, eq ▸ Store.app?_eq_some_iff.mp app⟩
      · cases h

theorem ofTerm_apply (root : TermId) (base : Graph) (ses : Session) :
    ofTerm root base ses = match outputTerms ses.store root with
      | .error e => (.error e, ses)
      | .ok outputs =>
        if outputs.length ≠ base.outputs.length then
          (.error (.contractMismatch (.outputs base.outputs.length outputs.length)), ses)
        else
          (rebuildFrom ⟨(base.toTerms ses).2.store, base, (base.toTerms ses).1.nodes⟩ outputs,
            (base.toTerms ses).2) := by
  unfold ofTerm
  rw [SessionM.bind_apply]
  show (match outputTerms ses.store root with
    | .error e => _
    | .ok outputs => _ : SessionM _) ses = _
  cases outputTerms ses.store root with
  | error e => rfl
  | ok outputs =>
    dsimp only
    split <;> rfl

theorem ofTerm_grows {root : TermId} {base : Graph} {ses : Session} (hv : ses.store.Valid)
    (valid : base.validate = .ok ()) : ses.Grows (ofTerm root base ses).2 := by
  rw [ofTerm_apply]
  split
  · exact .refl ses
  · split
    · exact .refl ses
    · exact (toTerms_mirrors hv valid).1

end Graph

end Regraft
