import Regraft.Proofs.Meaning.Identities
import Regraft.Proofs.Rebuild.Faithful

/-
  What graphs mean. A graph denotes the values of its outputs, computed node by node in an interpretation
  of the operations; types and rounding do not count. These are the values of the expressions that the
  outputs unfold to (`Ordered.denote_eq`). So the term that a checked graph becomes bundles the values it
  denotes (`toTerms_bundles`), and a graph that is rebuilt from a bundle denotes the bundled values
  (`ofTerm_denotes`).
-/

namespace Regraft

variable {M : Type*} (I : Interpretation M) (input : String → M)

/-- The values at some positions. -/
def valuesAt (values : List M) (ids : List NodeId) : Option (List M) :=
  ids.mapM fun id => values[id.index]?

/-- The value of a node, from the values of the nodes before it. -/
def Node.denote (values : List M) (node : Node) : Option M :=
  match node.op with
  | .placeholder name => some (input name)
  | .const value => some (I.const value.shape (value.data.map canonical))
  | op => (valuesAt values node.inputs).map (I.op op.name)

namespace Graph

/-- The values of nodes, behind the values of those before them. -/
def denoteNodes : List M → List Node → Option (List M)
  | values, [] => some values
  | values, node :: rest =>
    (node.denote I input values).bind fun x => denoteNodes (values ++ [x]) rest

/-- The values of the outputs. -/
def denote (g : Graph) : Option (List M) :=
  (denoteNodes I input [] g.nodes).bind fun values => valuesAt values g.outputs

end Graph

/-! ## Expressions -/

/-- The value of an expression. -/
def Expr.value : Expr → M :=
  fold input (fun c => I.const c.shape (c.values.map canonical)) fun o xs => I.op o.name xs

variable {I input} {values xs : List M} {node : Node} {nodes : List Node} {g : Graph}

theorem Expr.value_op (o : Op) (es : List Expr) :
    (Expr.op o es).value I input = I.op o.name (es.map (value I input)) := fold_op ..

/-- A tree of operations by their own names has the value of its expression. -/
theorem Tree.value_eq_of_expr {t : Tree} {e : Expr} (labels : t.Over operationLabel)
    (h : t.expr = some e) {ρ : Valuation M} (hρ : ρ.input = input) :
    I.value ρ t = e.value I input := by
  induction t generalizing e with
  | var v => cases h
  | leaf l =>
    cases h
    cases l with
    | const c =>
      show _ = I.const c.shape ((c.values.map canonical).map canonical)
      rw [map_canonical]
      rfl
    | input name =>
      rw [← hρ]
      rfl
  | app op args attrs ih =>
    obtain ⟨o, es, named, operands, rfl⟩ := expr_app_eq_some_iff.mp h
    obtain ⟨label, labels⟩ := over_app.mp labels
    have name : o.name = op := by
      rcases label with rfl | ⟨o', named', name⟩
      · have none : Op.ofName? outputsTag = none := by decide
        rw [none] at named
        cases named
      · rw [named] at named'
        cases named'
        exact name
    rw [Interpretation.value_app, Expr.value_op, name]
    congr 1
    rw [← List.forall₂_eq_eq_eq, List.forall₂_map_left_iff, List.forall₂_map_right_iff]
    exact forall₂_imp_mem (mapM_eq_some_iff.mp operands) fun t mem e _ he => ih t mem (labels t mem) he
  | unknown id => cases h

theorem Tree.map_value_of_expr {ts : List Tree} {es : List Expr}
    (labels : ∀ t ∈ ts, t.Over operationLabel) (h : ts.mapM expr = some es) {ρ : Valuation M}
    (hρ : ρ.input = input) : ts.map (I.value ρ) = es.map (Expr.value I input) := by
  rw [← List.forall₂_eq_eq_eq, List.forall₂_map_left_iff, List.forall₂_map_right_iff]
  exact forall₂_imp_mem (mapM_eq_some_iff.mp h) fun t mem e _ he =>
    value_eq_of_expr (labels t mem) he hρ

/-! ## Values of nodes -/

theorem Node.denote_operation (computes : node.op.isLeaf = false) :
    node.denote I input values = (valuesAt values node.inputs).map (I.op node.op.name) := by
  obtain ⟨op, inputs, type⟩ := node
  cases op with
  | placeholder name => cases computes
  | const value => cases computes
  | _ => rfl

/-- Values stand at the positions of expressions that have them. -/
theorem valuesAt_of_unfold {ids : List NodeId} {es : List Expr}
    (each : ∀ id e, g.unfold id = some e → values[id.index]? = some (e.value I input))
    (h : ids.mapM g.unfold = some es) : valuesAt values ids = some (es.map (Expr.value I input)) := by
  unfold valuesAt
  rw [mapM_eq_some_iff, List.forall₂_map_right_iff]
  exact (mapM_eq_some_iff.mp h).imp fun id e he => each id e he

namespace Graph

theorem denoteNodes_append (more : List Node) :
    denoteNodes I input values (nodes ++ more) =
      (denoteNodes I input values nodes).bind fun values => denoteNodes I input values more := by
  induction nodes generalizing values with
  | nil => rfl
  | cons node rest ih =>
    rw [List.cons_append, denoteNodes, denoteNodes]
    cases node.denote I input values with
    | none => rfl
    | some x => exact ih

variable (I input) in
/-- The nodes of an ordered graph have the values of their expressions. -/
theorem Ordered.exists_denoteNodes {outputs : List NodeId} (h : (Graph.mk nodes outputs).Ordered) :
    ∃ values : List M, denoteNodes I input [] nodes = some values ∧ values.length = nodes.length ∧
      ∀ id e, (Graph.mk nodes outputs).unfold id = some e →
        values[id.index]? = some (e.value I input) := by
  induction nodes using List.reverseRecOn with
  | nil => exact ⟨[], rfl, rfl, nofun⟩
  | append_singleton earlier node ih =>
    have before : (Graph.mk earlier outputs).Ordered := h.of_append
    have same : ∀ id : NodeId, id.index < earlier.length →
        (Graph.mk (earlier ++ [node]) outputs).unfold id = (Graph.mk earlier outputs).unfold id :=
      fun id lt => Ordered.unfold_append (g := ⟨earlier, outputs⟩) h lt
    obtain ⟨values, denotes, length, each⟩ := ih before
    have here : (Graph.mk (earlier ++ [node]) outputs).node? ⟨earlier.length⟩ = some node :=
      List.getElem?_concat_length
    obtain ⟨x, hx, value⟩ : ∃ x, node.denote I input values = some x ∧
        ∀ e, (Graph.mk (earlier ++ [node]) outputs).unfold ⟨earlier.length⟩ = some e →
          x = e.value I input := by
      obtain ⟨name, op⟩ | ⟨v, op⟩ | computes := node.op.kinds
      · refine ⟨input name, by rw [Node.denote, op], fun e he => ?_⟩
        rw [unfold_placeholder here op] at he
        cases he
        rfl
      · refine ⟨_, by rw [Node.denote, op], fun e he => ?_⟩
        rw [unfold_const here op] at he
        cases he
        show _ = I.const v.shape ((v.data.map canonical).map canonical)
        rw [map_canonical]
      · obtain ⟨es, operands⟩ := exists_mapM fun id mem =>
          before.exists_unfold (h _ node here id mem)
        refine ⟨_, by rw [Node.denote_operation computes, valuesAt_of_unfold each operands]; rfl,
          fun e he => ?_⟩
        rw [h.unfold_operation here computes,
          mapM_congr fun id mem => same id (h _ node here id mem), operands] at he
        cases he
        exact (Expr.value_op ..).symm
    refine ⟨values ++ [x], ?_, ?_, fun id e he => ?_⟩
    · rw [denoteNodes_append, denotes, Option.bind_some, denoteNodes, hx]
      rfl
    · rw [List.length_append, List.length_append, length]
      rfl
    · obtain ⟨found, there, -⟩ := Option.bind_eq_some_iff.mp he
      rcases node?_push_cases (g := ⟨earlier, outputs⟩) there with before | ⟨place, -⟩
      · have lt : id.index < earlier.length := index_lt_of_node? before
        rw [List.getElem?_append_left (length ▸ lt)]
        exact each id e (same id lt ▸ he)
      · obtain rfl : id = ⟨earlier.length⟩ := congrArg NodeId.mk place
        rw [← value e he, ← length]
        exact List.getElem?_concat_length

/-- An ordered graph denotes the values of the expressions of its outputs. -/
theorem Ordered.denote_eq (h : g.Ordered) {es : List Expr}
    (unfolded : g.outputs.mapM g.unfold = some es) :
    g.denote I input = some (es.map (Expr.value I input)) := by
  obtain ⟨values, denotes, -, each⟩ : ∃ values : List M, denoteNodes I input [] g.nodes = _ ∧ _ :=
    Ordered.exists_denoteNodes I input h
  rw [denote, denotes]
  exact valuesAt_of_unfold each unfolded

/-! ## Bundles -/

/-- A tree bundles outputs with some values. -/
def Bundles (I : Interpretation M) (input : String → M) (xs : List M) (t : Tree) : Prop :=
  t.Over operationLabel ∧ ∃ ts attrs, t = .app outputsTag ts attrs ∧
    ∀ ρ : Valuation M, ρ.input = input → ts.map (I.value ρ) = xs

/-- The labels of the terms of a graph are names of operations. -/
theorem Mirrors.over {st : Store} {terms : List TermId} {id : NodeId} {t : TermId}
    (h : Mirrors st g terms) (lt : id.index < g.size) (term : terms[id.index]? = some t) :
    (st.tree t).Over operationLabel := by
  refine h.ordered.induct
    (P := fun id => ∀ t, terms[id.index]? = some t → (st.tree t).Over operationLabel)
    (fun id node found inputs t term => ?_) lt t term
  have layer := h.layer found term
  have stored := layer.term
  obtain ⟨name, op⟩ | ⟨value, op⟩ | computes := node.op.kinds
  · rw [Node.layer_placeholder op] at stored
    rw [h.valid.tree_leaf stored]
    exact .leaf trivial
  · rw [Node.layer_const op] at stored
    rw [h.valid.tree_leaf stored]
    have right := (right_of_checked h.checked found).1
    obtain ⟨nodeOp, ids, type⟩ := node
    dsimp only at op
    subst op
    cases right with
    | const t fills =>
      refine .leaf (?_ : value.shape.numel = (value.data.map canonical).length)
      rw [List.length_map]
      exact of_decide_eq_true fills
    | operation computes _ _ => cases computes
  · rw [Node.layer_operation computes] at stored
    rw [h.valid.tree_app stored]
    refine .app (.inr ⟨node.op, Op.ofName?_name computes, rfl⟩) fun u mem => ?_
    obtain ⟨u, arg, rfl⟩ := List.mem_map.mp mem
    obtain ⟨i, input, term⟩ := exists_of_forall₂_right (forall₂_termsAt layer.inputs) arg
    exact inputs i input u term

/-- A checked graph denotes something, and becomes a bundle of outputs with the values it denotes. -/
theorem toTerms_bundles (I : Interpretation M) (input : String → M) {ses : Session}
    (hv : ses.store.Valid) (valid : g.validate = .ok ()) :
    ses.Grows (g.toTerms ses).2 ∧ ∃ xs, g.denote I input = some xs ∧
      Holds (Bundles I input xs) (g.toTerms ses).2 (g.toTerms ses).1.root := by
  obtain ⟨grown, mirrors, root⟩ := toTerms_mirrors hv valid
  generalize g.toTerms ses = r at grown mirrors root ⊢
  obtain ⟨-, inside⟩ := validate_iff.mp valid
  obtain ⟨es, unfolded⟩ := exists_mapM fun id mem => mirrors.ordered.exists_unfold (inside id mem)
  have terms : List.Forall₂ _ g.outputs (termsAt r.1.nodes g.outputs) :=
    forall₂_termsAt fun id mem => mirrors.layered.length_eq ▸ inside id mem
  have tree := mirrors.valid.tree_app root
  have labels : ∀ t ∈ (termsAt r.1.nodes g.outputs).map r.2.store.tree, t.Over operationLabel := by
    intro t mem
    obtain ⟨u, here, rfl⟩ := List.mem_map.mp mem
    obtain ⟨id, out, term⟩ := exists_of_forall₂_right terms here
    exact mirrors.over (inside id out) term
  have exprs : ((termsAt r.1.nodes g.outputs).map r.2.store.tree).mapM Tree.expr = some es := by
    rw [List.mapM_map, ← unfolded]
    refine mapM_eq_of_forall₂ (forall₂_imp_mem terms fun id mem t _ term => ?_).flip
    exact mirrors.expr_eq (inside id mem) term
  refine ⟨grown, es.map (Expr.value I input), mirrors.ordered.denote_eq unfolded, mirrors.valid,
    Store.stored_of_term? root, ?_⟩
  rw [tree]
  exact ⟨.app (.inl rfl) labels, _, _, rfl, fun ρ hρ => Tree.map_value_of_expr labels exprs hρ⟩

/-- A graph that is rebuilt denotes the values that its term bundles. -/
theorem ofTerm_denotes {base : Graph} {root : TermId} {ses : Session}
    (h : Holds (Bundles I input xs) ses root) (valid : base.validate = .ok ()) :
    ses.Grows (ofTerm root base ses).2 ∧ ∀ b, (ofTerm root base ses).1 = .ok b →
      b.graph.denote I input = some xs := by
  refine ⟨ofTerm_grows h.valid valid, fun b ok => ?_⟩
  obtain ⟨src, outputs, attrs, r, -, fits, run, rfl, tree⟩ := ofTerm_run h.valid valid ok
  have faithful := run.faithful fits
  obtain ⟨es, unfolded, exprs⟩ := faithful.unfold_outputs fits.valid run.found
  obtain ⟨labels, us, attrs', bundle, value⟩ := h.tree
  rw [tree] at labels bundle
  cases bundle
  let ρ : Valuation M := ⟨fun _ => I.const .scalar [], input, fun _ => I.const .scalar []⟩
  rw [faithful.ordered.denote_eq unfolded, ← value ρ rfl,
    Tree.map_value_of_expr (Tree.over_app.mp labels).2 exprs rfl]

end Graph

end Regraft
