import Regraft.Proofs.Graph.Unfold
import Regraft.Proofs.Session.Grows
import Regraft.Proofs.Subst.Reify
import Regraft.Proofs.Term.Pairs

/-
  The terms of a graph. Every node of a checked graph becomes one layer of a term over the terms of its
  inputs (`toTerms_mirrors`), so its term is the expression that the node unfolds to
  (`Mirrors.expr_eq`).
-/

namespace Regraft

/-- The term of a node, from the terms of the nodes of its graph. -/
def Node.layer (terms : List TermId) (node : Node) : Term :=
  match node.op with
  | .placeholder name => .leaf (.input name)
  | .const value => .leaf (.const (.ofTensor value node.type.1))
  | op => .app op.name (Graph.termsAt terms node.inputs) (.ofType node.type)

namespace Op

/-- Operations that compute are found by their own names. -/
theorem ofName?_name {op : Op} (h : op.isLeaf = false) : ofName? op.name = some op := by
  cases op with
  | placeholder name => cases h
  | const value => cases h
  | binary f => cases f <;> decide
  | unary f => cases f <;> decide
  | sum => decide

/-- No leaf has a name of its own. -/
theorem not_isLeaf_of_ofName? {raw : String} {op : Op} (h : ofName? raw = some op) :
    op.isLeaf = false := by
  have none : ∀ p ∈ aliases, p.1.isLeaf = false := by decide
  obtain ⟨p, found, rfl⟩ := Option.map_eq_some_iff.mp h
  exact none p (List.mem_of_find?_eq_some found)

end Op

namespace Node

variable {node : Node} {terms args : List TermId}

theorem layer_placeholder {name : String} (op : node.op = .placeholder name) :
    node.layer terms = .leaf (.input name) := by
  unfold layer
  rw [op]

theorem layer_const {value : Tensor} (op : node.op = .const value) :
    node.layer terms = .leaf (.const (.ofTensor value node.type.1)) := by
  unfold layer
  rw [op]

theorem layer_operation (computes : node.op.isLeaf = false) :
    node.layer terms =
      .app node.op.name (Graph.termsAt terms node.inputs) (.ofType node.type) := by
  obtain ⟨op, inputs, type⟩ := node
  cases op with
  | placeholder name => cases computes
  | const value => cases computes
  | _ => rfl

theorem layer_eq_const {c : Constant} (h : node.layer terms = .leaf (.const c)) :
    ∃ value, node.op = .const value ∧ c = .ofTensor value node.type.1 := by
  obtain ⟨name, op⟩ | ⟨value, op⟩ | computes := node.op.kinds
  · rw [layer_placeholder op] at h
    cases h
  · rw [layer_const op] at h
    cases h
    exact ⟨value, op, rfl⟩
  · rw [layer_operation computes] at h
    cases h

theorem layer_eq_app {op : String} {attrs : Attrs} (h : node.layer terms = .app op args attrs) :
    node.op.isLeaf = false ∧ node.op.name = op ∧ Graph.termsAt terms node.inputs = args ∧
      .ofType node.type = attrs := by
  obtain ⟨name, eq⟩ | ⟨value, eq⟩ | computes := node.op.kinds
  · rw [layer_placeholder eq] at h
    cases h
  · rw [layer_const eq] at h
    cases h
  · rw [layer_operation computes] at h
    cases h
    exact ⟨computes, rfl, rfl, rfl⟩

end Node

namespace Graph

variable {st st' : Store} {terms more : List TermId} {node : Node} {nodes : List Node} {t : TermId}
  {ids : List NodeId} {ses : Session} {g : Graph}

/-! ## Terms at positions -/

theorem forall₂_termsAt (inside : ∀ id ∈ ids, id.index < terms.length) :
    List.Forall₂ (fun id t => terms[id.index]? = some t) ids (termsAt terms ids) := by
  induction ids with
  | nil => exact .nil
  | cons id rest ih =>
    rw [List.forall_mem_cons] at inside
    unfold termsAt at ih ⊢
    have here := List.getElem?_eq_getElem inside.1
    rw [List.filterMap_cons, here]
    exact .cons here (ih inside.2)

theorem mem_of_mem_termsAt (h : t ∈ termsAt terms ids) : t ∈ terms := by
  obtain ⟨id, -, found⟩ := List.mem_filterMap.mp h
  exact List.mem_of_getElem? found

theorem termsAt_append (inside : ∀ id ∈ ids, id.index < terms.length) :
    termsAt (terms ++ more) ids = termsAt terms ids :=
  List.filterMap_congr fun id mem => List.getElem?_append_left (inside id mem)

/-! ## Layers -/

/-- A term of the layer of a node, whose inputs have terms. -/
structure Layered (st : Store) (terms : List TermId) (node : Node) (t : TermId) : Prop where
  term : st.term? t = some (node.layer terms)
  inputs : ∀ id ∈ node.inputs, id.index < terms.length

theorem layer_append (inside : ∀ id ∈ node.inputs, id.index < terms.length) :
    node.layer (terms ++ more) = node.layer terms := by
  unfold Node.layer
  rw [termsAt_append inside]

theorem Layered.later (h : Layered st terms node t) (g : st.Grows st') :
    Layered st' (terms ++ more) node t where
  term := by
    rw [layer_append h.inputs]
    exact g.keeps t _ h.term
  inputs id mem := by
    rw [List.length_append]
    exact Nat.lt_add_right _ (h.inputs id mem)

theorem nodeTerm_spec (node : Node) (stored : ∀ t ∈ terms, ses.store.Stored t) :
    ses.Grows (nodeTerm terms node ses).2 ∧
      (nodeTerm terms node ses).2.store.term? (nodeTerm terms node ses).1 =
        some (node.layer terms) := by
  have closed : ses.store.Closed (node.layer terms) := by
    unfold Node.layer
    split
    · trivial
    · trivial
    · exact fun t mem => stored t (mem_of_mem_termsAt mem)
  have made : (nodeTerm terms node ses).1 = (Store.intern (node.layer terms) ses.store).1 ∧
      (nodeTerm terms node ses).2.store = (Store.intern (node.layer terms) ses.store).2 ∧
      (nodeTerm terms node ses).2.facts = ses.facts := by
    obtain ⟨op, inputs, type⟩ := node
    cases op <;> exact ⟨rfl, rfl, rfl⟩
  rw [made.1, made.2.1]
  refine ⟨⟨made.2.2, ?_⟩, Store.term?_intern _ _⟩
  rw [made.2.1]
  exact Store.intern_grows closed

/-- The terms of checked nodes, behind the terms of the nodes before them. -/
theorem nodeTerms_layered {earlier : List Node}
    (layered : List.Forall₂ (Layered ses.store terms) earlier terms)
    (checked : checkNodes earlier nodes = .ok ()) :
    ses.Grows (nodeTerms terms nodes ses).2 ∧
      List.Forall₂ (Layered (nodeTerms terms nodes ses).2.store (nodeTerms terms nodes ses).1)
        (earlier ++ nodes) (nodeTerms terms nodes ses).1 := by
  induction nodes generalizing earlier terms ses with
  | nil =>
    rw [List.append_nil]
    exact ⟨.refl ses, layered⟩
  | cons node rest ih =>
    rw [checkNodes_cons] at checked
    have stored : ∀ t ∈ terms, ses.store.Stored t := by
      intro t mem
      obtain ⟨node, -, layer⟩ := exists_of_forall₂_right layered mem
      exact Store.stored_of_term? layer.term
    have made : nodeTerms terms (node :: rest) ses = nodeTerms (terms ++
        [(nodeTerm terms node ses).1]) rest (nodeTerm terms node ses).2 := rfl
    obtain ⟨g, term⟩ := nodeTerm_spec node stored
    rw [made]
    generalize nodeTerm terms node ses = r at g term ⊢
    have inputs : ∀ id ∈ node.inputs, id.index < terms.length := by
      rw [← layered.length_eq]
      exact checked.1.index_lt
    have layered' : List.Forall₂ (Layered r.2.store (terms ++ [r.1])) (earlier ++ [node])
        (terms ++ [r.1]) := by
      refine List.rel_append (layered.imp fun node t layer => layer.later g.store) (.cons ?_ .nil)
      exact Layered.later ⟨term, inputs⟩ (.refl _)
    obtain ⟨g', all⟩ := ih layered' checked.2
    rw [List.append_assoc] at all
    exact ⟨g.trans g', all⟩

/-- The terms of a store that mirror the nodes of a checked graph. -/
structure Mirrors (st : Store) (g : Graph) (terms : List TermId) : Prop where
  valid : st.Valid
  checked : checkNodes [] g.nodes = .ok ()
  layered : List.Forall₂ (Layered st terms) g.nodes terms

/-- A checked graph is mirrored by its terms, and the root bundles the terms of the outputs. -/
theorem toTerms_mirrors (hv : ses.store.Valid) (valid : g.validate = .ok ()) :
    ses.Grows (g.toTerms ses).2 ∧ Mirrors (g.toTerms ses).2.store g (g.toTerms ses).1.nodes ∧
      (g.toTerms ses).2.store.term? (g.toTerms ses).1.root =
        some (.app outputsTag (termsAt (g.toTerms ses).1.nodes g.outputs) .unspecified) := by
  obtain ⟨checked, -⟩ := validate_iff.mp valid
  have spec : ses.Grows (nodeTerms [] g.nodes ses).2 ∧ _ := nodeTerms_layered .nil checked
  have made : g.toTerms ses =
      (⟨(Session.tagged outputsTag (termsAt (nodeTerms [] g.nodes ses).1 g.outputs) .unspecified
        (nodeTerms [] g.nodes ses).2).1, (nodeTerms [] g.nodes ses).1⟩,
      (Session.tagged outputsTag (termsAt (nodeTerms [] g.nodes ses).1 g.outputs) .unspecified
        (nodeTerms [] g.nodes ses).2).2) := rfl
  rw [made]
  generalize nodeTerms [] g.nodes ses = r at spec ⊢
  obtain ⟨grown, layered⟩ := spec
  rw [List.nil_append] at layered
  have stored : ∀ t ∈ termsAt r.1 g.outputs, r.2.store.Stored t := by
    intro t mem
    obtain ⟨node, -, layer⟩ := exists_of_forall₂_right layered (mem_of_mem_termsAt mem)
    exact Store.stored_of_term? layer.term
  have bundled : r.2.store.Grows
      (Store.app outputsTag (termsAt r.1 g.outputs) .unspecified r.2.store).2 :=
    Store.app_grows stored
  refine ⟨grown.trans ⟨rfl, bundled⟩, ⟨bundled.valid (grown.store.valid hv), checked, ?_⟩,
    Store.term?_app ..⟩
  have later := layered.imp fun node t (layer : Layered r.2.store r.1 node t) =>
    (layer.later bundled : Layered _ (r.1 ++ []) node t)
  rw [List.append_nil] at later
  exact later

/-! ## Expressions -/

namespace Mirrors

variable {id : NodeId}

theorem layer (h : Mirrors st g terms) (found : g.node? id = some node)
    (term : terms[id.index]? = some t) : Layered st terms node t := by
  obtain ⟨lt, rfl⟩ := List.getElem?_eq_some_iff.mp found
  obtain ⟨lt', rfl⟩ := List.getElem?_eq_some_iff.mp term
  exact h.layered.get lt lt'

theorem ordered (h : Mirrors st g terms) : g.Ordered := .of_checked h.checked

/-- The term of a node is the expression of the node. -/
theorem expr_eq (h : Mirrors st g terms) (lt : id.index < g.size) (term : terms[id.index]? = some t) :
    (st.tree t).expr = g.unfold id := by
  refine h.ordered.induct
    (P := fun id => ∀ t, terms[id.index]? = some t → (st.tree t).expr = g.unfold id)
    (fun id node found inputs t term => ?_) lt t term
  have layer := h.layer found term
  have stored := layer.term
  obtain ⟨name, op⟩ | ⟨value, op⟩ | computes := node.op.kinds
  · rw [Node.layer_placeholder op] at stored
    rw [h.valid.tree_leaf stored, unfold_placeholder found op]
    rfl
  · rw [Node.layer_const op] at stored
    rw [h.valid.tree_leaf stored, unfold_const found op, Tree.expr_leaf, Leaf.expr,
      Constant.canonicalized_ofTensor]
  · rw [Node.layer_operation computes] at stored
    rw [h.valid.tree_app stored, h.ordered.unfold_operation found computes, Tree.expr_app,
      Op.ofName?_name computes, Option.bind_some, List.mapM_map]
    congr 1
    refine mapM_eq_of_forall₂ (forall₂_imp_mem (forall₂_termsAt layer.inputs) ?_).flip
    exact fun input mem t _ term => inputs input mem t term

end Mirrors

end Graph

end Regraft
