import Regraft.Proofs.Rebuild.Accepts

/-
  A graph rebuilt from its own terms. Nodes of typed graphs that unfold alike have one term
  (`Mirrors.term_eq`), the terms of nodes are well typed, and the terms below the root are those of the
  nodes that the outputs reach (`Mirrors.below_iff`). All of them stand for nodes already, and terms with
  one operator and the same operands are one term, so a run makes no node and confuses no terms: what it
  knows of its nodes is a list of different terms that mirrors them (`Lists`).
-/

namespace Regraft

variable {st st' : Store} {src : Source} {inputs : String → Option ValueType} {r r' : Rebuild}
  {t u : TermId} {id i j : NodeId} {node : Node} {terms ts outputs : List TermId} {op : String}
  {args : List TermId} {attrs : Attrs} {ids : List NodeId} {g h : Graph}

/-- Two lists that go with a third go with each other. -/
theorem forall₂_meet {α β γ : Type*} {R : α → γ → Prop} {S : β → γ → Prop} {xs : List α}
    {ys : List β} {zs : List γ} (left : List.Forall₂ R xs zs) (right : List.Forall₂ S ys zs) :
    List.Forall₂ (fun x y => ∃ z ∈ zs, R x z ∧ S y z) xs ys := by
  induction left generalizing ys with
  | nil =>
    cases right
    exact .nil
  | cons first _ ih =>
    cases right with
    | cons first' rest =>
      refine .cons ⟨_, .head _, first, first'⟩ ((ih rest).imp fun x y => ?_)
      rintro ⟨z, mem, meet⟩
      exact ⟨z, .tail _ mem, meet⟩

theorem exists_getElem?_of_forall₂ {α β : Type*} {R : α → β → Prop} {xs : List α} {ys : List β}
    (h : List.Forall₂ R xs ys) {k : Nat} {x : α} (place : xs[k]? = some x) :
    ∃ y, ys[k]? = some y ∧ R x y := by
  obtain ⟨lt, rfl⟩ := List.getElem?_eq_some_iff.mp place
  have lt' : k < ys.length := h.length_eq ▸ lt
  exact ⟨ys[k], List.getElem?_eq_getElem lt', h.get lt lt'⟩

/-- Names of operations name no output. -/
theorem Op.output_name {op : Op} (computes : op.isLeaf = false) :
    ∀ i, (OpName.normalize op.name).output = some i → i = 0 := by
  have none : (OpName.normalize op.name).output = none := by
    cases op with
    | placeholder => cases computes
    | const => cases computes
    | binary f => cases f <;> decide
    | unary f => cases f <;> decide
    | sum => decide
  rw [none]
  nofun

/-! ## Terms of nodes -/

namespace Graph

/-- Outputs are reached, and so are the inputs of nodes that are reached. -/
inductive Reachable (g : Graph) : NodeId → Prop
  | output {id : NodeId} (mem : id ∈ g.outputs) : Reachable g id
  | input {id i : NodeId} {node : Node} (user : Reachable g id) (found : g.node? id = some node)
      (mem : i ∈ node.inputs) : Reachable g i

theorem unfold_eq_input_iff {name : String} (ordered : g.Ordered) (found : g.node? id = some node) :
    g.unfold id = some (.input name) ↔ node.op = .placeholder name := by
  obtain ⟨name', op⟩ | ⟨value, op⟩ | computes := node.op.kinds
  · rw [unfold_placeholder found op, op]
    simp
  · rw [unfold_const found op, op]
    simp
  · rw [ordered.unfold_operation found computes]
    constructor
    · intro unfolded
      obtain ⟨es, -, eq⟩ := Option.map_eq_some_iff.mp unfolded
      cases eq
    · intro op
      rw [op] at computes
      cases computes

theorem unfold_eq_const_iff {c : Constant} (ordered : g.Ordered) (found : g.node? id = some node) :
    g.unfold id = some (.const c) ↔
      ∃ value, node.op = .const value ∧ c = .ofTensor value node.type.1 := by
  obtain ⟨name, op⟩ | ⟨value, op⟩ | computes := node.op.kinds
  · rw [unfold_placeholder found op, op]
    simp
  · rw [unfold_const found op, op]
    simp [eq_comm]
  · rw [ordered.unfold_operation found computes]
    constructor
    · intro unfolded
      obtain ⟨es, -, eq⟩ := Option.map_eq_some_iff.mp unfolded
      cases eq
    · rintro ⟨value, op, -⟩
      rw [op] at computes
      cases computes

theorem unfold_eq_op_iff {o : Op} {es : List Expr} (ordered : g.Ordered)
    (found : g.node? id = some node) : g.unfold id = some (.op o es) ↔
      node.op.isLeaf = false ∧ node.op = o ∧ node.inputs.mapM g.unfold = some es := by
  obtain ⟨name, op⟩ | ⟨value, op⟩ | computes := node.op.kinds
  · rw [unfold_placeholder found op, op]
    simp [Op.isLeaf, Op.arity]
  · rw [unfold_const found op, op]
    simp [Op.isLeaf, Op.arity]
  · rw [ordered.unfold_operation found computes]
    simp only [Option.map_eq_some_iff, computes, true_and]
    constructor
    · rintro ⟨es', operands, eq⟩
      cases eq
      exact ⟨rfl, operands⟩
    · rintro ⟨rfl, operands⟩
      exact ⟨es, operands, rfl⟩

theorem termsAt_eq (at_ids : List.Forall₂ (fun (i : NodeId) u => terms[i.index]? = some u) ids args) :
    termsAt terms ids = args := by
  unfold termsAt
  induction at_ids with
  | nil => rfl
  | cons first _ ih => rw [List.filterMap_cons, first, ih]

namespace Mirrors

theorem exists_term (m : Mirrors st g terms) (found : g.node? id = some node) :
    ∃ t, terms[id.index]? = some t := by
  have lt : id.index < terms.length := by
    rw [← m.layered.length_eq]
    exact index_lt_of_node? found
  exact ⟨_, List.getElem?_eq_getElem lt⟩

theorem exists_node (m : Mirrors st g terms) (term : terms[id.index]? = some t) :
    ∃ node, g.node? id = some node := by
  obtain ⟨lt, -⟩ := List.getElem?_eq_some_iff.mp term
  rw [← m.layered.length_eq] at lt
  exact node?_of_index_lt lt

theorem at_nodes (m : Mirrors st g terms) (inside : ∀ id ∈ ids, id.index < g.size) :
    List.Forall₂ (fun (i : NodeId) u => terms[i.index]? = some u) ids (termsAt terms ids) :=
  forall₂_termsAt fun id mem => m.layered.length_eq ▸ inside id mem

theorem later (m : Mirrors st g terms) (grown : st.Grows st') : Mirrors st' g terms where
  valid := grown.valid m.valid
  checked := m.checked
  layered := by
    have later := m.layered.imp fun node t (layer : Layered st terms node t) =>
      (layer.later grown : Layered _ (terms ++ []) node t)
    rw [List.append_nil] at later
    exact later

/-- Operands of an application that a node stands for are the terms of the inputs of the node. -/
theorem operands (m : Mirrors st g terms) (found : g.node? id = some node)
    (term : terms[id.index]? = some t) (app : st.term? t = some (.app op args attrs)) :
    node.op.isLeaf = false ∧ node.op.name = op ∧ .ofType node.type = attrs ∧
      List.Forall₂ (fun (i : NodeId) u => terms[i.index]? = some u) node.inputs args := by
  have layer := m.layer found term
  obtain ⟨computes, name, operands, said⟩ :=
    Node.layer_eq_app (Option.some.inj (app.symm.trans layer.term)).symm
  exact ⟨computes, name, said, operands ▸ forall₂_termsAt layer.inputs⟩

/-- The terms below the outputs are those of the nodes that are reached. -/
theorem below_iff (m : Mirrors st g terms) (inside : ∀ id ∈ g.outputs, id.index < g.size) :
    st.Below (termsAt terms g.outputs) t ↔ ∃ id, g.Reachable id ∧ terms[id.index]? = some t := by
  have outputs := m.at_nodes inside
  constructor
  · intro below
    induction below with
    | output mem =>
      obtain ⟨id, out, term⟩ := exists_of_forall₂_right outputs mem
      exact ⟨id, .output out, term⟩
    | operand app _ mem ih =>
      obtain ⟨id, reached, term⟩ := ih
      obtain ⟨node, found⟩ := m.exists_node term
      obtain ⟨i, input, here⟩ :=
        exists_of_forall₂_right (m.operands found term app).2.2.2 mem
      exact ⟨i, .input reached found input, here⟩
  · rintro ⟨id, reached, term⟩
    induction reached generalizing t with
    | output mem =>
      obtain ⟨u, out, term'⟩ := exists_of_forall₂_right outputs.flip mem
      rw [Option.some.inj (term.symm.trans term')]
      exact .output out
    | @input user i node _ found mem ih =>
      obtain ⟨u, above⟩ := m.exists_term found
      have layer := m.layer found above
      have computes : node.op.isLeaf = false := by
        have right := (right_of_checked m.checked found).1
        cases right with
        | placeholder => cases mem
        | const => cases mem
        | operation computes _ _ => exact computes
      have app := layer.term
      rw [Node.layer_operation computes] at app
      obtain ⟨v, operand, term'⟩ := exists_of_forall₂_right (forall₂_termsAt layer.inputs).flip mem
      rw [Option.some.inj (term.symm.trans term')]
      exact .operand app (ih above) operand

/-- Nodes of typed graphs that unfold alike have one term. -/
theorem term_eq (typed : Typed inputs g) (typed' : Typed inputs h) (m : Mirrors st g terms)
    (m' : Mirrors st h ts) (same : g.unfold i = h.unfold j) (term : terms[i.index]? = some t)
    (term' : ts[j.index]? = some u) : t = u := by
  obtain ⟨n, found⟩ := m.exists_node term
  refine m.ordered.induct
    (P := fun i => ∀ j t u, g.unfold i = h.unfold j → terms[i.index]? = some t →
      ts[j.index]? = some u → t = u)
    (fun i n found each j t u same term term' => ?_) (index_lt_of_node? found) j t u same term term'
  obtain ⟨n', found'⟩ := m'.exists_node term'
  have layer := (m.layer found term).term
  have layer' := (m'.layer found' term').term
  suffices n.layer terms = n'.layer ts from Store.term?_inj layer (this ▸ layer')
  obtain ⟨name, op⟩ | ⟨value, op⟩ | computes := n.op.kinds
  · rw [unfold_placeholder found op] at same
    rw [Node.layer_placeholder op,
      Node.layer_placeholder ((unfold_eq_input_iff m'.ordered found').mp same.symm)]
  · rw [unfold_const found op] at same
    obtain ⟨value', op', eq⟩ := (unfold_eq_const_iff m'.ordered found').mp same.symm
    rw [Node.layer_const op, Node.layer_const op', eq]
  · obtain ⟨e, unfolded⟩ := m.ordered.exists_unfold (index_lt_of_node? found)
    have types := (typed.type_of_unfold found unfolded).symm.trans
      (typed'.type_of_unfold found' (same ▸ unfolded))
    rw [m.ordered.unfold_operation found computes] at same unfolded
    obtain ⟨es, operands, rfl⟩ := Option.map_eq_some_iff.mp unfolded
    rw [operands] at same
    obtain ⟨computes', ops, operands'⟩ := (unfold_eq_op_iff m'.ordered found').mp same.symm
    rw [Node.layer_operation computes, Node.layer_operation computes', ops, Option.some.inj types]
    congr 1
    have inside := forall₂_termsAt (m.layer found term).inputs
    have inside' := forall₂_termsAt (m'.layer found' term').inputs
    have exprs := forall₂_meet inside.flip (mapM_eq_some_iff.mp operands).flip
    have exprs' := forall₂_meet inside'.flip (mapM_eq_some_iff.mp operands').flip
    rw [← List.forall₂_eq_eq_eq]
    refine (forall₂_meet exprs exprs').imp fun t u => ?_
    rintro ⟨e, -, ⟨i, mem, term, unfolded⟩, j, -, term', unfolded'⟩
    exact each i mem j t u (unfolded.trans unfolded'.symm) term term'

/-- The term of a node has the type of the node. -/
theorem type_eq (typed : Typed inputs g) (m : Mirrors st g terms) (found : g.node? id = some node)
    (term : terms[id.index]? = some t) : (st.tree t).type? inputs = some node.type := by
  obtain ⟨e, unfolded⟩ := m.ordered.exists_unfold (index_lt_of_node? found)
  rw [Tree.type?, m.expr_eq (index_lt_of_node? found) term, unfolded]
  exact typed.type_of_unfold found unfolded

/-- The terms of nodes are well typed. -/
theorem wellTyped (typed : Typed inputs g) (m : Mirrors st g terms) (found : g.node? id = some node)
    (term : terms[id.index]? = some t) : (st.tree t).WellTyped inputs := by
  refine m.ordered.induct
    (P := fun id => ∀ t, terms[id.index]? = some t → (st.tree t).WellTyped inputs)
    (fun id node found each t term => ?_) (index_lt_of_node? found) t term
  have layer := m.layer found term
  have stored := layer.term
  have right := (right_of_checked m.checked found).1
  obtain ⟨op, ids, type⟩ := node
  cases right with
  | placeholder name =>
    rw [Node.layer_placeholder rfl] at stored
    rw [m.valid.tree_leaf stored]
    exact .input (typed.placeholder id _ name found rfl)
  | @const value elem fills =>
    rw [Node.layer_const rfl] at stored
    rw [m.valid.tree_leaf stored]
    refine .const ?_
    show value.shape.numel = (value.data.map canonical).length
    rw [List.length_map]
    exact of_decide_eq_true fills
  | @operation _ _ types _ computes operands infer =>
    rw [Node.layer_operation computes] at stored
    rw [m.valid.tree_app stored]
    have inside := forall₂_termsAt layer.inputs
    dsimp only at inside
    refine .app ?_ (Op.ofName?_name computes) ?_ (?_ : _ = some types) infer (Attrs.agree_ofType _)
      (Op.output_name computes)
    · intro u mem
      obtain ⟨v, operand, rfl⟩ := List.mem_map.mp mem
      obtain ⟨i, input, here⟩ := exists_of_forall₂_right inside operand
      exact each i input v here
    · rw [List.length_map, ← inside.length_eq, ← Op.length_of_infer infer]
      exact (operandTypes_eq_ok_iff.mp operands).length_eq
    · rw [List.mapM_map, mapM_eq_some_iff]
      refine (forall₂_meet inside.flip (operandTypes_eq_ok_iff.mp operands).flip).imp fun u ty => ?_
      rintro ⟨i, -, here, known⟩
      obtain ⟨n, found, rfl⟩ := Option.map_eq_some_iff.mp known
      exact type_eq typed m found here

end Mirrors

end Graph

/-! ## Runs -/

namespace Source.Fits

/-- A term of a node has a first node that it stands for. -/
theorem exists_origin (fits : src.Fits) (term : src.terms[id.index]? = some t) :
    ∃ node, src.origin? t = some node := by
  obtain ⟨k, first⟩ := Option.isSome_iff_exists.mp
    (List.isSome_idxOf?.mpr (List.mem_of_getElem? term))
  obtain ⟨lt, eq, -⟩ := List.idxOf?_eq_some_iff.mp first
  have place : src.terms[(NodeId.mk k).index]? = some t := List.getElem?_eq_some_iff.mpr ⟨lt, eq⟩
  obtain ⟨node, found⟩ := Graph.Mirrors.exists_node fits place
  refine ⟨node, ?_⟩
  unfold origin?
  rw [first]
  exact found

/-- Applications of one operator to the same operands that nodes stand for are one term. -/
theorem app_inj (fits : src.Fits) (base : Graph.Typed inputs src.base) {attrs' : Attrs}
    (term : src.terms[i.index]? = some t) (app : src.store.term? t = some (.app op args attrs))
    (term' : src.terms[j.index]? = some u) (app' : src.store.term? u = some (.app op args attrs')) :
    t = u := by
  obtain ⟨n, found⟩ := Graph.Mirrors.exists_node fits term
  obtain ⟨n', found'⟩ := Graph.Mirrors.exists_node fits term'
  refine Graph.Mirrors.term_eq base base fits fits ?_ term term'
  rw [← Graph.Mirrors.expr_eq fits (Graph.index_lt_of_node? found) term,
    ← Graph.Mirrors.expr_eq fits (Graph.index_lt_of_node? found') term', fits.valid.tree_app app,
    fits.valid.tree_app app', Tree.expr_app, Tree.expr_app]

end Source.Fits

namespace Rebuild

/-- The nodes mirror different terms, and this is what is known of them. The applications among the terms
    are below the outputs and were taken over. -/
structure Lists (src : Source) (outputs : List TermId) (r : Rebuild) (ts : List TermId) : Prop where
  distinct : ts.Nodup
  mirrors : Graph.Mirrors src.store r.graph ts
  memo : ∀ t id, r.memo.lookup t = some id ↔ ts[id.index]? = some t
  operations : ∀ op ids id, r.operations.lookup (op, ids) = some id → ∃ t args attrs,
    r.memo.lookup t = some id ∧ src.store.term? t = some (.app op args attrs) ∧ r.Found args ids
  own : ∀ t ∈ ts, ∃ id : NodeId, src.terms[id.index]? = some t
  below : ∀ t ∈ ts, (src.store.app? t).isSome → src.store.Below outputs t
  reused : r.reused = (ts.filter fun t => (src.store.app? t).isSome).length
  created : r.created = 0

theorem addPlaceholders_counts (src : Source) : (empty.addPlaceholders src).reused = 0 ∧
    (empty.addPlaceholders src).created = 0 := by
  rw [addPlaceholders_eq_foldl]
  induction src.base.placeholders using List.reverseRecOn with
  | nil => exact ⟨rfl, rfl⟩
  | append_singleton ps p ih =>
    rw [List.foldl_append]
    unfold List.foldl addPlaceholder
    split <;> exact ih

namespace Lists

theorem found_iff (l : Lists src outputs r ts) : r.Found args ids ↔
    List.Forall₂ (fun (i : NodeId) u => ts[i.index]? = some u) ids args := by
  constructor
  · exact fun found => (found.imp fun t id => (l.memo t id).mp).flip
  · exact fun found => (found.imp fun id t => (l.memo t id).mpr).flip

/-- The placeholders have different terms when they have different names. -/
theorem started (fits : src.Fits) (distinct : (src.base.contract.inputs.map Prod.fst).Nodup)
    (base : Graph.Typed inputs src.base) :
    ∃ ts, Lists src outputs (empty.addPlaceholders src) ts := by
  have started := Rebuild.started src
  have typed := started.typed fits base fun _ mem => mem
  have names : (src.base.placeholders.map fun p => p.2.1).Nodup := by
    unfold Graph.contract at distinct
    rw [List.map_map] at distinct
    exact distinct
  obtain ⟨ts, places⟩ : ∃ ts, List.Forall₂ (fun p t => src.terms[p.1.index]? = some t)
      src.base.placeholders ts := by
    obtain ⟨ts, places⟩ := exists_mapM fun p (mem : p ∈ src.base.placeholders) =>
      Graph.Mirrors.exists_term fits (mem_placeholders_iff.mp mem).1
    exact ⟨ts, mapM_eq_some_iff.mp places⟩
  have leaf : List.Forall₂ (fun (p : NodeId × String × Node) t =>
      src.store.term? t = some (.leaf (.input p.2.1))) src.base.placeholders ts :=
    forall₂_imp_mem places fun p mem t _ term => (fits.placeholder mem).2.2 term
  have nodup : ts.Nodup := by
    have terms : ts.map src.store.term? =
        (src.base.placeholders.map fun p => p.2.1).map fun name => some (.leaf (.input name)) := by
      rw [List.map_map, ← List.forall₂_eq_eq_eq, List.forall₂_map_left_iff,
        List.forall₂_map_right_iff]
      exact leaf.flip
    refine List.Nodup.of_map src.store.term? ?_
    rw [terms]
    refine names.map fun name name' same => ?_
    cases same
    rfl
  have memo : ∀ t id, (empty.addPlaceholders src).memo.lookup t = some id →
      ts[id.index]? = some t := by
    intro t id found
    obtain ⟨p, mem, term, here⟩ := started.memo t id found
    unfold Graph.node? at here
    rw [started.nodes, List.getElem?_map, Option.map_eq_some_iff] at here
    obtain ⟨q, place, same⟩ := here
    have mem' := List.mem_of_getElem? place
    obtain rfl : q = p := by
      refine List.inj_on_of_nodup_map names mem' mem ?_
      have op := (fits.placeholder mem).1
      rw [← same, (fits.placeholder mem').1] at op
      exact Op.placeholder.inj op
    obtain ⟨u, place, term'⟩ := exists_getElem?_of_forall₂ places place
    rw [place, ← term', term]
  have plain : ∀ t ∈ ts, src.store.app? t = none := by
    intro t mem
    obtain ⟨p, -, term⟩ := exists_of_forall₂_right leaf mem
    rw [Store.app?, term]
  refine ⟨ts, nodup, ⟨fits.valid, typed.checked, ?_⟩, fun t id => ⟨memo t id, fun place => ?_⟩, ?_,
    fun t mem => ?_, fun t mem app => ?_, ?_, (addPlaceholders_counts src).2⟩
  · rw [started.nodes, List.forall₂_map_left_iff]
    refine forall₂_imp_mem leaf fun p mem t _ term => ⟨?_, ?_⟩
    · rw [term, Node.layer_placeholder (fits.placeholder mem).1]
    · rw [(fits.placeholder mem).2.1]
      nofun
  · obtain ⟨p, found, term⟩ := exists_getElem?_of_forall₂ places.flip place
    obtain ⟨id', known⟩ := started.known p (List.mem_of_getElem? found) t term
    have same := (List.getElem?_inj (List.getElem?_eq_some_iff.mp place).1 nodup).mp
      (place.trans (memo t id' known).symm)
    rw [known]
    exact congrArg (fun k => some (NodeId.mk k)) same.symm
  · intro op ids id found
    rw [started.operations] at found
    cases found
  · obtain ⟨p, -, place⟩ := exists_of_forall₂_right places mem
    exact ⟨p.1, place⟩
  · rw [plain t mem] at app
    cases app
  · rw [(addPlaceholders_counts src).1, eq_comm, List.length_eq_zero_iff, List.filter_eq_nil_iff]
    intro t mem
    rw [plain t mem]
    exact Bool.false_ne_true

/-- A node that is appended for a term without one. -/
theorem push (l : Lists src outputs r ts) (grown : r.Grows r') (new : r.memo.lookup t = none)
    (nodes : r'.graph.nodes = r.graph.nodes ++ [node])
    (memo : r'.memo = (t, ⟨r.graph.size⟩) :: r.memo)
    (checked : Graph.checkNodes [] r'.graph.nodes = .ok ())
    (term : src.store.term? t = some (node.layer ts))
    (inside : ∀ i ∈ node.inputs, i.index < r.graph.size)
    (operations : ∀ op ids id, r'.operations.lookup (op, ids) = some id →
      r.operations.lookup (op, ids) = some id ∨ id = ⟨r.graph.size⟩ ∧ ∃ args attrs,
        src.store.term? t = some (.app op args attrs) ∧ r.Found args ids)
    (own : ∃ id : NodeId, src.terms[id.index]? = some t)
    (below : (src.store.app? t).isSome → src.store.Below outputs t)
    (reused : r'.reused = r.reused + if (src.store.app? t).isSome then 1 else 0)
    (created : r'.created = r.created) : Lists src outputs r' (ts ++ [t]) := by
  have size : r.graph.size = ts.length := l.mirrors.layered.length_eq
  have missing : t ∉ ts := by
    intro mem
    obtain ⟨k, lt, rfl⟩ := List.getElem_of_mem mem
    rw [(l.memo _ ⟨k⟩).mpr (List.getElem?_eq_getElem lt)] at new
    cases new
  refine ⟨?_, ⟨l.mirrors.valid, checked, ?_⟩, fun u id => ?_, fun op ids id found => ?_,
    fun u mem => ?_, fun u mem app => ?_, ?_, created.trans l.created⟩
  · rw [List.nodup_append]
    refine ⟨l.distinct, List.nodup_singleton t, fun u mem v mem' => ?_⟩
    rw [List.mem_singleton.mp mem']
    rintro rfl
    exact missing mem
  · rw [nodes]
    refine List.rel_append (l.mirrors.layered.imp fun n u layer => layer.later (.refl _)) (.cons ?_ .nil)
    exact Graph.Layered.later ⟨term, fun i mem => size ▸ inside i mem⟩ (.refl _)
  · rw [memo]
    constructor
    · intro found
      rcases lookup_cons_cases found with ⟨rfl, rfl⟩ | found
      · rw [size]
        exact List.getElem?_concat_length
      · have place := (l.memo u id).mp found
        rw [List.getElem?_append_left (List.getElem?_eq_some_iff.mp place).1]
        exact place
    · intro place
      rcases Nat.lt_trichotomy id.index ts.length with lt | eq | gt
      · rw [List.getElem?_append_left lt] at place
        exact lookup_cons_of_new new ((l.memo u id).mpr place)
      · rw [eq, List.getElem?_concat_length] at place
        obtain rfl := Option.some.inj place
        obtain rfl : id = ⟨r.graph.size⟩ := congrArg NodeId.mk (eq.trans size.symm)
        exact List.lookup_cons_self
      · rw [List.getElem?_eq_none (by rw [List.length_append]; exact gt)] at place
        cases place
  · rcases operations op ids id found with found | ⟨rfl, args, attrs, app, operands⟩
    · obtain ⟨u, args, attrs, known, app, operands⟩ := l.operations op ids id found
      exact ⟨u, args, attrs, grown.memo u id known, app, grown.found operands⟩
    · refine ⟨t, args, attrs, ?_, app, grown.found operands⟩
      rw [memo]
      exact List.lookup_cons_self
  · rcases List.mem_append.mp mem with mem | mem
    · exact l.own u mem
    · obtain rfl := List.mem_singleton.mp mem
      exact own
  · rcases List.mem_append.mp mem with mem | mem
    · exact l.below u mem app
    · obtain rfl := List.mem_singleton.mp mem
      exact below app
  · rw [reused, l.reused, List.filter_append, List.length_append, List.filter_singleton]
    cases (src.store.app? t).isSome <;> rfl

/-- Where all terms below the outputs are terms of nodes of the base graph, nodes are taken over, each
    for a term of its own. -/
theorem step (l : Lists src outputs r ts) (fits : src.Fits) (base : Graph.Typed inputs src.base)
    (own : ∀ t, src.store.Below outputs t → ∃ id : NodeId, src.terms[id.index]? = some t)
    (faithful : Faithful src r) (checked : Graph.checkNodes [] r'.graph.nodes = .ok ())
    (step : Step src (src.store.Below outputs) r r') : ∃ ts', Lists src outputs r' ts' := by
  have grown := step.grows
  cases step with
  | @constant t c here new term =>
    obtain ⟨id, place⟩ := own t here
    obtain ⟨node, origin⟩ := fits.exists_origin place
    have layer := (fits.origin_layer origin).term
    obtain ⟨value, op, -⟩ := Node.layer_eq_const (Option.some.inj (term.symm.trans layer)).symm
    have plain : src.store.app? t = none := by rw [Store.app?, term]
    have made : src.constantNode t c = node := by rw [Source.constantNode, origin, Option.getD_some]
    rw [made] at grown checked ⊢
    refine ⟨_, l.push grown new rfl rfl checked ?_ ?_ (fun op ids id found => .inl found)
      ⟨id, place⟩ ?_ ?_ rfl⟩
    · rw [layer, Node.layer_const op, Node.layer_const op]
    · have right := fits.right origin
      obtain ⟨nodeOp, inputs, type⟩ := node
      dsimp only at op
      subst op
      cases right with
      | const => nofun
      | operation computes _ _ => cases computes
    · rw [plain]
      nofun
    · rw [plain]
      rfl
  | @shared t op args attrs ids id due known =>
    -- two terms with these operands are one, and this one is new
    obtain ⟨u, args', attrs', found, app, operands⟩ := l.operations op ids id known
    have same : args' = args := by
      rw [← Graph.termsAt_eq (l.found_iff.mp operands), ← Graph.termsAt_eq (l.found_iff.mp due.operands)]
    subst same
    have mem := List.mem_of_getElem? ((l.memo u id).mp found)
    have isApp : (src.store.app? u).isSome := by
      rw [Store.app?_eq_some_iff.mpr app]
      rfl
    obtain ⟨i, place⟩ := own t due.here
    obtain ⟨j, place'⟩ := own u (l.below u mem isApp)
    obtain rfl := fits.app_inj base place due.term place' app
    rw [due.new] at found
    cases found
  | @reused t op args attrs ids node due unknown output origin =>
    obtain ⟨computes, name, -, said⟩ := Node.layer_eq_app
      (Option.some.inj (due.term.symm.trans (fits.origin_layer origin).term)).symm
    have isApp : (src.store.app? t).isSome := by
      rw [Store.app?_eq_some_iff.mpr due.term]
      rfl
    obtain ⟨i, -, place⟩ := Source.mem_of_origin? origin
    have nodes : (r.put t op { node with inputs := ids }).graph.nodes =
        r.graph.nodes ++ [{ node with inputs := ids }] := rfl
    refine ⟨_, l.push grown due.new nodes rfl checked ?_
      (faithful.index_lt due.operands) (fun op' ids' id found => ?_) ⟨i, place⟩ (fun _ => due.here) ?_
      rfl⟩
    · have layer : ({ node with inputs := ids } : Node).layer ts = _ := Node.layer_operation computes
      rw [layer, Graph.termsAt_eq (l.found_iff.mp due.operands), due.term, name, said]
    · rcases lookup_cons_cases found with ⟨same, rfl⟩ | found
      · cases same
        exact .inr ⟨rfl, args, attrs, due.term, due.operands⟩
      · exact .inl found
    · rw [if_pos isApp]
  | @created t _ _ _ _ _ _ _ due _ _ origin =>
    obtain ⟨id, place⟩ := own t due.here
    obtain ⟨node, found⟩ := fits.exists_origin place
    rw [origin] at found
    cases found
  | output =>
    exact ⟨ts, l.distinct, ⟨l.mirrors.valid, l.mirrors.checked, l.mirrors.layered⟩, l.memo,
      l.operations, l.own, l.below, l.reused, l.created⟩

end Lists

/-- A run of own terms ends with a list of different terms. -/
theorem Run.lists (run : Run src outputs r) (fits : src.Fits) (base : Graph.Typed inputs src.base)
    (distinct : (src.base.contract.inputs.map Prod.fst).Nodup)
    (own : ∀ t, src.store.Below outputs t → ∃ id : NodeId, src.terms[id.index]? = some t) :
    Graph.Typed inputs r.graph ∧ ∃ ts, Lists src outputs r ts := by
  have filled : ∀ t c, src.store.Below outputs t → src.store.term? t = some (.leaf (.const c)) →
      c.Fills := by
    intro t c below term
    obtain ⟨id, place⟩ := own t below
    obtain ⟨node, found⟩ := Graph.Mirrors.exists_node fits place
    have well := Graph.Mirrors.wellTyped base fits found place
    rw [fits.valid.tree_leaf term] at well
    cases well with
    | const fills => exact fills
  refine run.induct (P := fun r => Graph.Typed inputs r.graph ∧ ∃ ts, Lists src outputs r ts) fits
    ⟨(started src).typed fits base fun _ mem => mem, Lists.started fits distinct base⟩ ?_
  rintro r r' faithful ⟨typed, ts, l⟩ next
  have typed' := Typed.step fits base filled faithful typed next
  exact ⟨typed', l.step fits base own faithful typed'.checked next⟩

end Rebuild

end Regraft
