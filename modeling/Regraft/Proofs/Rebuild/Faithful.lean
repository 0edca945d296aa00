import Regraft.Proofs.Graph.Check
import Regraft.Proofs.Rebuild.Steps

/-
  A graph that is rebuilt computes its term. While it grows, the node of every term is one layer of the
  term over the nodes of its operands, and the node of every operation that is looked up is the operation
  on the inputs it is looked up by (`Faithful`). Each step keeps this, so that every node unfolds to the
  expression of its term (`Faithful.unfold_eq`), in particular every output (`unfold_ofTerm`).
-/

namespace Regraft

variable {src : Source} {below : TermId → Prop} {r r' : Rebuild} {t : TermId} {id : NodeId}
  {node : Node} {outputs : List TermId}

/-! ## Nodes of the base graph -/

/-- Where terms mirror the nodes of the base graph. -/
def Source.Fits (src : Source) : Prop := Graph.Mirrors src.store src.base src.terms

theorem Source.mem_of_origin? (found : src.origin? t = some node) :
    ∃ id : NodeId, src.base.node? id = some node ∧ src.terms[id.index]? = some t := by
  obtain ⟨i, place, found⟩ := Option.bind_eq_some_iff.mp found
  obtain ⟨lt, eq, -⟩ := List.idxOf?_eq_some_iff.mp place
  exact ⟨⟨i⟩, found, List.getElem?_eq_some_iff.mpr ⟨lt, eq⟩⟩

namespace Source.Fits

/-- A term has the layer of the node that it stands for. -/
theorem origin_layer (fits : src.Fits) (found : src.origin? t = some node) :
    Graph.Layered src.store src.terms node t := by
  obtain ⟨id, here, term⟩ := mem_of_origin? found
  exact Graph.Mirrors.layer fits here term

theorem right (fits : src.Fits) (found : src.origin? t = some node) :
    Graph.Right src.base node := by
  obtain ⟨id, here, -⟩ := mem_of_origin? found
  exact (Graph.right_of_checked fits.checked here).1

/-- The node of a constant is the constant, whether it is new or not. -/
theorem constantNode (fits : src.Fits) {c : Constant}
    (term : src.store.term? t = some (.leaf (.const c))) :
    ∃ value, src.constantNode t c = ⟨.const value, [], (c.elem, c.shape)⟩ ∧
      .ofTensor value c.elem = c.canonicalized := by
  unfold Source.constantNode
  cases found : src.origin? t with
  | none => exact ⟨c.toTensor, rfl, rfl⟩
  | some node =>
    obtain ⟨value, op, rfl⟩ :=
      Node.layer_eq_const (Option.some.inj (term.symm.trans (fits.origin_layer found).term)).symm
    have right := fits.right found
    obtain ⟨nodeOp, inputs, type⟩ := node
    dsimp only at op
    subst op
    cases right with
    | const elem fills => exact ⟨value, rfl, (Constant.canonicalized_ofTensor value elem).symm⟩
    | operation computes _ _ => cases computes

theorem placeholder (fits : src.Fits) {name : String} (mem : (id, name, node) ∈ src.base.placeholders) :
    node.op = .placeholder name ∧ node.inputs = [] ∧ ∀ {t}, src.terms[id.index]? = some t →
      src.store.term? t = some (.leaf (.input name)) := by
  obtain ⟨found, op⟩ := mem_placeholders_iff.mp mem
  refine ⟨op, ?_, fun term => ?_⟩
  · have right := (Graph.right_of_checked fits.checked found).1
    obtain ⟨nodeOp, inputs, type⟩ := node
    dsimp only at op
    subst op
    cases right with
    | placeholder => rfl
    | operation computes _ _ => cases computes
  · rw [(Graph.Mirrors.layer fits found term).term, Node.layer_placeholder op]

end Source.Fits

namespace Graph

theorem Ordered.push {g : Graph} {outputs : List NodeId} (h : g.Ordered)
    (inputs : ∀ input ∈ node.inputs, input.index < g.size) :
    (Graph.mk (g.nodes ++ [node]) outputs).Ordered := by
  intro id found here
  rcases node?_push_cases here with before | ⟨place, rfl⟩
  · exact h id found before
  · rw [place]
    exact inputs

end Graph

namespace Rebuild

/-! ## The placeholders -/

/-- Take one placeholder over. -/
def addPlaceholder (src : Source) (r : Rebuild) (p : NodeId × String × Node) : Rebuild :=
  match src.terms[p.1.index]? with
  | some t => (r.push p.2.2).2.remember t (r.push p.2.2).1
  | none => (r.push p.2.2).2

theorem addPlaceholders_eq_foldl (r : Rebuild) :
    r.addPlaceholders src = src.base.placeholders.foldl (addPlaceholder src) r := rfl

/-- Some placeholders are there, each known by its term, and nothing else. -/
structure Started (src : Source) (ps : List (NodeId × String × Node)) (r : Rebuild) : Prop where
  nodes : r.graph.nodes = ps.map fun p => p.2.2
  outputs : r.graph.outputs = []
  operations : r.operations = []
  memo : ∀ t id, r.memo.lookup t = some id →
    ∃ p ∈ ps, src.terms[p.1.index]? = some t ∧ r.graph.node? id = some p.2.2
  known : ∀ p ∈ ps, ∀ t, src.terms[p.1.index]? = some t → ∃ id, r.memo.lookup t = some id

theorem Started.add {ps : List (NodeId × String × Node)} (h : Started src ps r)
    (p : NodeId × String × Node) : Started src (ps ++ [p]) (addPlaceholder src r p) := by
  have here : (r.push p.2.2).2.graph.node? ⟨r.graph.size⟩ = some p.2.2 :=
    List.getElem?_concat_length
  have earlier : ∀ t id, r.memo.lookup t = some id → ∃ q ∈ ps ++ [p],
      src.terms[q.1.index]? = some t ∧ (r.push p.2.2).2.graph.node? id = some q.2.2 := by
    intro t id found
    obtain ⟨q, mem, term, node⟩ := h.memo t id found
    exact ⟨q, List.mem_append_left _ mem, term, Graph.node?_append node⟩
  have nodes : (r.push p.2.2).2.graph.nodes = (ps ++ [p]).map fun p => p.2.2 := by
    rw [List.map_append, ← h.nodes]
    rfl
  unfold addPlaceholder
  split
  · rename_i t term
    refine ⟨nodes, h.outputs, h.operations, fun u id found => ?_, fun q mem u known => ?_⟩
    · rcases lookup_cons_cases found with ⟨rfl, rfl⟩ | found
      · exact ⟨p, List.mem_append_right _ (.head _), term, here⟩
      · exact earlier u id found
    · by_cases same : u = t
      · subst same
        exact ⟨_, List.lookup_cons_self⟩
      · obtain ⟨id, found⟩ : ∃ id, r.memo.lookup u = some id := by
          rcases List.mem_append.mp mem with mem | mem
          · exact h.known q mem u known
          · rw [List.mem_singleton.mp mem, term] at known
            exact absurd (Option.some.inj known).symm same
        exact ⟨id, (lookup_cons_of_ne _ _ same).trans found⟩
  · rename_i none
    refine ⟨nodes, h.outputs, h.operations, earlier, fun q mem u known => ?_⟩
    rcases List.mem_append.mp mem with mem | mem
    · exact h.known q mem u known
    · rw [List.mem_singleton.mp mem, none] at known
      cases known

theorem started (src : Source) : Started src src.base.placeholders (empty.addPlaceholders src) := by
  rw [addPlaceholders_eq_foldl]
  induction src.base.placeholders using List.reverseRecOn with
  | nil => exact ⟨rfl, rfl, rfl, nofun, nofun⟩
  | append_singleton ps p ih =>
    rw [List.foldl_append]
    exact ih.add p

/-! ## Layers -/

/-- A node is one layer of a term. -/
inductive Stands (r : Rebuild) (node : Node) : Term → Prop
  | input {name : String} (op : node.op = .placeholder name) : Stands r node (.leaf (.input name))
  | const {c : Constant} {value : Tensor} (op : node.op = .const value)
      (same : .ofTensor value node.type.1 = c.canonicalized) : Stands r node (.leaf (.const c))
  | app {op : String} {args : List TermId} {attrs : Attrs} (named : Op.ofName? op = some node.op)
      (operands : r.Found args node.inputs) : Stands r node (.app op args attrs)

theorem Stands.grows {x : Term} (h : Stands r node x) (g : r.Grows r') : Stands r' node x := by
  cases h with
  | input op => exact .input op
  | const op same => exact .const op same
  | app named operands => exact .app named (g.found operands)

/-- Nodes are layers of their terms, and operations have the inputs that they are looked up by. -/
structure Faithful (src : Source) (r : Rebuild) : Prop where
  ordered : r.graph.Ordered
  memo : ∀ t id, r.memo.lookup t = some id → ∃ x node, src.store.term? t = some x ∧
    r.graph.node? id = some node ∧ Stands r node x
  operations : ∀ op ids id, r.operations.lookup (op, ids) = some id → ∃ node,
    r.graph.node? id = some node ∧ Op.ofName? op = some node.op ∧ node.inputs = ids

namespace Faithful

theorem started (fits : src.Fits) : Faithful src (empty.addPlaceholders src) := by
  obtain ⟨nodes, -, operations, memo, -⟩ := Rebuild.started src
  refine ⟨fun id node found => ?_, fun t id found => ?_, fun op ids id found => ?_⟩
  · unfold Graph.node? at found
    rw [nodes] at found
    obtain ⟨⟨i, name, node⟩, mem, rfl⟩ := List.mem_map.mp (List.mem_of_getElem? found)
    rw [(fits.placeholder mem).2.1]
    nofun
  · obtain ⟨⟨i, name, node⟩, mem, term, here⟩ := memo t id found
    obtain ⟨op, -, layer⟩ := fits.placeholder mem
    exact ⟨_, node, layer term, here, .input op⟩
  · rw [operations] at found
    cases found

/-- Nodes of operands are there. -/
theorem index_lt (h : Faithful src r) {args : List TermId} {ids : List NodeId}
    (found : r.Found args ids) : ∀ id ∈ ids, id.index < r.graph.size := by
  intro id mem
  obtain ⟨t, -, lookup⟩ := exists_of_forall₂_right found mem
  obtain ⟨-, node, -, here, -⟩ := h.memo t id lookup
  exact Graph.index_lt_of_node? here

/-- A node that is appended for a term is one layer of it. -/
theorem push (h : Faithful src r) {x : Term} (g : r.Grows r')
    (nodes : r'.graph.nodes = r.graph.nodes ++ [node]) (memo : r'.memo = (t, ⟨r.graph.size⟩) :: r.memo)
    (term : src.store.term? t = some x) (stands : Stands r node x)
    (inputs : ∀ input ∈ node.inputs, input.index < r.graph.size)
    (operations : ∀ op ids id, r'.operations.lookup (op, ids) = some id →
      (id = ⟨r.graph.size⟩ ∧ Op.ofName? op = some node.op ∧ node.inputs = ids) ∨
      r.operations.lookup (op, ids) = some id) : Faithful src r' := by
  have here : r'.graph.node? ⟨r.graph.size⟩ = some node := by
    unfold Graph.node?
    rw [nodes]
    exact List.getElem?_concat_length
  refine ⟨?_, fun u id found => ?_, fun op ids id found => ?_⟩
  · have ordered : (Graph.mk (r.graph.nodes ++ [node]) r'.graph.outputs).Ordered :=
      h.ordered.push inputs
    rw [← nodes] at ordered
    exact ordered
  · rw [memo] at found
    rcases lookup_cons_cases found with ⟨rfl, rfl⟩ | found
    · exact ⟨x, node, term, here, stands.grows g⟩
    · obtain ⟨y, other, layer, there, stands⟩ := h.memo u id found
      exact ⟨y, other, layer, g.node? there, stands.grows g⟩
  · rcases operations op ids id found with ⟨rfl, named, same⟩ | found
    · exact ⟨node, here, named, same⟩
    · obtain ⟨other, there, named, same⟩ := h.operations op ids id found
      exact ⟨other, g.node? there, named, same⟩

theorem put (h : Faithful src r) {op : String} {args : List TermId} {attrs : Attrs}
    {ids : List NodeId} (due : Due src below r t op args attrs ids) (g : r.Grows r')
    (made : r'.graph.nodes = r.graph.nodes ++ [node] ∧ r'.memo = (t, ⟨r.graph.size⟩) :: r.memo ∧
      r'.operations = ((op, ids), ⟨r.graph.size⟩) :: r.operations)
    (named : Op.ofName? op = some node.op) (inputs : node.inputs = ids) : Faithful src r' := by
  obtain ⟨nodes, memo, operations⟩ := made
  refine h.push g nodes memo due.term (.app named (inputs ▸ due.operands)) ?_ fun op' ids' id found => ?_
  · rw [inputs]
    exact h.index_lt due.operands
  · rw [operations] at found
    rcases lookup_cons_cases found with ⟨same, rfl⟩ | found
    · cases same
      exact .inl ⟨rfl, named, inputs⟩
    · exact .inr found

theorem step (fits : src.Fits) (h : Faithful src r) (step : Step src below r r') : Faithful src r' := by
  have g := step.grows
  cases step with
  | @constant t c _ new term =>
    obtain ⟨value, made, same⟩ := fits.constantNode term
    rw [made] at g ⊢
    refine h.push g rfl rfl term (.const rfl same) nofun fun _ _ _ found => .inr found
  | @shared t op args attrs ids id due known =>
    obtain ⟨node, here, named, inputs⟩ := h.operations op ids id known
    refine ⟨h.ordered, fun u id' found => ?_, h.operations⟩
    rcases lookup_cons_cases found with ⟨rfl, rfl⟩ | found
    · exact ⟨_, node, due.term, here, (Stands.app named (inputs ▸ due.operands)).grows g⟩
    · obtain ⟨x, other, layer, there, stands⟩ := h.memo u id' found
      exact ⟨x, other, layer, there, stands.grows g⟩
  | reused due _ _ origin =>
    obtain ⟨computes, name, -, -⟩ := Node.layer_eq_app
      (Option.some.inj (due.term.symm.trans (fits.origin_layer origin).term)).symm
    refine h.put due g ⟨rfl, rfl, rfl⟩ ?_ rfl
    rw [← name]
    exact Op.ofName?_name computes
  | created due _ _ _ named _ _ _ => exact h.put due g ⟨rfl, rfl, rfl⟩ named rfl
  | output =>
    refine ⟨h.ordered, fun u id found => ?_, h.operations⟩
    obtain ⟨x, node, layer, here, stands⟩ := h.memo u id found
    exact ⟨x, node, layer, here, stands.grows g⟩

/-- The node of a term unfolds to the expression of the term. -/
theorem unfold_eq (h : Faithful src r) (valid : src.store.Valid) (found : r.memo.lookup t = some id) :
    r.graph.unfold id = (src.store.tree t).expr := by
  induction place : t.index using Nat.strongRecOn generalizing t id with
  | ind n ih =>
    obtain ⟨x, node, term, here, stands⟩ := h.memo t id found
    cases stands with
    | input op =>
      rw [valid.tree_leaf term, Graph.unfold_placeholder here op]
      rfl
    | const op same =>
      rw [valid.tree_leaf term, Graph.unfold_const here op, same]
      rfl
    | @app op args attrs named operands =>
      rw [valid.tree_app term, h.ordered.unfold_operation here (Op.not_isLeaf_of_ofName? named),
        Tree.expr_app, named, Option.bind_some, List.mapM_map]
      congr 1
      refine mapM_eq_of_forall₂ (forall₂_imp_mem operands fun u mem i _ lookup => ?_).flip
      exact ih u.index (place ▸ valid t op args attrs term u mem) lookup rfl

/-- Everything below a term that has a node has a node. -/
theorem exists_of_sub (h : Faithful src r) (valid : src.store.Valid)
    (found : r.memo.lookup t = some id) {u : Tree} (sub : u.Sub (src.store.tree t)) :
    ∃ t' id', r.memo.lookup t' = some id' ∧ src.store.tree t' = u := by
  generalize tree : src.store.tree t = w at sub
  induction sub generalizing t id with
  | refl => exact ⟨t, id, found, tree⟩
  | operand mem _ ih =>
    obtain ⟨x, node, term, -, stands⟩ := h.memo t id found
    cases stands with
    | input =>
      rw [valid.tree_leaf term] at tree
      cases tree
    | const =>
      rw [valid.tree_leaf term] at tree
      cases tree
    | app named operands =>
      rw [valid.tree_app term] at tree
      cases tree
      obtain ⟨arg, below, rfl⟩ := List.mem_map.mp mem
      obtain ⟨id', -, found⟩ := exists_of_forall₂_right operands.flip below
      exact ih found rfl

/-- Outputs that are found have the expressions of their terms. -/
theorem unfold_outputs (h : Faithful src r) (valid : src.store.Valid) {ids : List NodeId}
    (found : r.Found outputs ids) : ∃ es, ids.mapM r.graph.unfold = some es ∧
      (outputs.map src.store.tree).mapM Tree.expr = some es := by
  obtain ⟨es, unfolded⟩ := exists_mapM fun id mem =>
    h.ordered.exists_unfold (h.index_lt found id mem)
  refine ⟨es, unfolded, ?_⟩
  rw [List.mapM_map, ← unfolded]
  exact mapM_eq_of_forall₂ (found.imp fun t id lookup => (h.unfold_eq valid lookup).symm)

end Faithful

/-- What holds of the placeholders, and is kept by every step from nodes that are layers of their terms,
    holds in the end. -/
theorem Run.induct {P : Rebuild → Prop} (h : Run src outputs r) (fits : src.Fits)
    (start : P (empty.addPlaceholders src))
    (step : ∀ {r r'}, Faithful src r → P r → Step src (src.store.Below outputs) r r' → P r') : P r := by
  have keeps : Faithful src r ∧ P r := by
    have steps := h.steps
    clear h
    induction steps with
    | refl => exact ⟨.started fits, start⟩
    | tail _ next ih => exact ⟨ih.1.step fits next, step ih.1 ih.2 next⟩
  exact keeps.2

/-- The nodes of a run are layers of their terms. -/
theorem Run.faithful (h : Run src outputs r) (fits : src.Fits) : Faithful src r :=
  h.induct fits (.started fits) fun _ faithful next => faithful.step fits next

end Rebuild

namespace Graph

variable {root : TermId} {base : Graph} {ses : Session} {b : Rebuilt}

/-- A graph that is rebuilt comes from a run on the operands of the root, with the terms of the base
    graph. -/
theorem run_of_ofTerm (hv : ses.store.Valid) (valid : base.validate = .ok ())
    (ok : (ofTerm root base ses).1 = .ok b) : ∃ (src : Source) (outputs : List TermId) (attrs : Attrs)
      (r : Rebuild), src = ⟨(base.toTerms ses).2.store, base, (base.toTerms ses).1.nodes⟩ ∧
      src.Fits ∧ Rebuild.Run src outputs r ∧ b = ⟨r.graph, r.reused, r.created⟩ ∧
      ses.store.tree root = .app outputsTag (outputs.map src.store.tree) attrs := by
  obtain ⟨g, mirrors, -⟩ := toTerms_mirrors hv valid
  rw [ofTerm_apply] at ok
  split at ok
  · cases ok
  · rename_i outputs rooted
    split at ok
    · cases ok
    · obtain ⟨attrs, term⟩ := outputTerms_eq_ok rooted
      obtain ⟨r, run, made⟩ := rebuildFrom_run mirrors.valid (Rebuild.started _).outputs ok
      refine ⟨_, outputs, attrs, r, rfl, mirrors, run, made, ?_⟩
      rw [← g.store.tree_eq hv (Store.stored_of_term? term)]
      exact mirrors.valid.tree_app (g.store.keeps _ _ term)

theorem ofTerm_run (hv : ses.store.Valid) (valid : base.validate = .ok ())
    (ok : (ofTerm root base ses).1 = .ok b) : ∃ (src : Source) (outputs : List TermId) (attrs : Attrs)
      (r : Rebuild), src.base = base ∧ src.Fits ∧ Rebuild.Run src outputs r ∧
      b = ⟨r.graph, r.reused, r.created⟩ ∧
      ses.store.tree root = .app outputsTag (outputs.map src.store.tree) attrs := by
  obtain ⟨src, outputs, attrs, r, here, rest⟩ := run_of_ofTerm hv valid ok
  exact ⟨src, outputs, attrs, r, congrArg Source.base here, rest⟩

/-- The outputs of a graph that is rebuilt from a term unfold to the operands of the term. -/
theorem unfold_ofTerm (hv : ses.store.Valid) (valid : base.validate = .ok ())
    (ok : (ofTerm root base ses).1 = .ok b) : ∃ ts attrs es,
      ses.store.tree root = .app outputsTag ts attrs ∧ ts.mapM Tree.expr = some es ∧
        b.graph.outputs.mapM b.graph.unfold = some es := by
  obtain ⟨src, outputs, attrs, r, -, fits, run, rfl, tree⟩ := ofTerm_run hv valid ok
  obtain ⟨es, unfolded, exprs⟩ := (run.faithful fits).unfold_outputs fits.valid run.found
  exact ⟨_, attrs, es, tree, exprs, unfolded⟩

/-! ## A sum for a product -/

/-- The graph of `2 x`. -/
def doubled : Graph where
  nodes := [⟨.placeholder "x", [], (.f64, .scalar)⟩, ⟨.const (.scalar 2.0), [], (.f64, .scalar)⟩,
    ⟨.binary .mul, [⟨0⟩, ⟨1⟩], (.f64, .scalar)⟩]
  outputs := [⟨2⟩]

/-- A session with a bundle of `x + x`, last. -/
def doubledAsSum : Session := .holding .none [.leaf (.input "x"),
  .app "add" [⟨0⟩, ⟨0⟩] .unspecified, .app outputsTag [⟨1⟩] .unspecified]

theorem doubledAsSum_valid : doubledAsSum.store.Valid := by decide

theorem doubledAsSum_tree : doubledAsSum.store.tree ⟨2⟩ =
    .app outputsTag [.app "add" [.leaf (.input "x"), .leaf (.input "x")] .unspecified] .unspecified := by
  have x : doubledAsSum.store.term? ⟨0⟩ = some (.leaf (.input "x")) := by decide
  have sum : doubledAsSum.store.term? ⟨1⟩ = some (.app "add" [⟨0⟩, ⟨0⟩] .unspecified) := by
    decide
  have root : doubledAsSum.store.term? ⟨2⟩ = some (.app outputsTag [⟨1⟩] .unspecified) := by
    decide
  rw [doubledAsSum_valid.tree_app root, List.map_singleton, doubledAsSum_valid.tree_app sum,
    List.map_cons, List.map_singleton, doubledAsSum_valid.tree_leaf x]

theorem exists_ofTerm_doubledAsSum : ∃ b, (ofTerm ⟨2⟩ doubled doubledAsSum).1 = .ok b :=
  exists_eq_ok (by decide)

theorem exists_unfold_doubledAsSum : ∃ b ts attrs es,
    (ofTerm ⟨2⟩ doubled doubledAsSum).1 = .ok b ∧
      doubledAsSum.store.tree ⟨2⟩ = .app outputsTag ts attrs ∧ ts.mapM Tree.expr = some es ∧
        b.graph.outputs.mapM b.graph.unfold = some es := by
  obtain ⟨b, ok⟩ := exists_ofTerm_doubledAsSum
  obtain ⟨ts, attrs, es, unfolded⟩ := unfold_ofTerm doubledAsSum_valid (by decide) ok
  exact ⟨b, ts, attrs, es, ok, unfolded⟩

end Graph

end Regraft
