import Regraft.Proofs.Graph.Types
import Regraft.Proofs.Rebuild.Faithful

/-
  When a graph that is rebuilt passes its check. A node that is taken over keeps its type, while its
  inputs are looked up anew; the type is still right when terms that are equal have one type, which is so
  when placeholders of one name have one type. Then every step leaves a checked graph
  (`Typed.step`), and so does a rebuild from a term whose constants fill their shapes
  (`validate_ofTerm`). Placeholders of one name with two types are confused (`retyped`).
-/

namespace Regraft

variable {src : Source} {below : TermId → Prop} {inputs : String → Option ValueType}
  {r r' : Rebuild} {t : TermId} {id : NodeId} {node : Node} {outputs : List TermId}

namespace Graph

/-- Placeholders of one name have one type. -/
def Consistent (g : Graph) : Prop :=
  ∀ p ∈ g.placeholders, ∀ q ∈ g.placeholders, p.2.1 = q.2.1 → p.2.2.type = q.2.2.type

instance (g : Graph) : Decidable g.Consistent :=
  inferInstanceAs (Decidable (∀ p ∈ g.placeholders, ∀ q ∈ g.placeholders, _ → _))

variable {base : Graph}

theorem Consistent.inputType?_eq (h : base.Consistent) {p : NodeId × String × Node}
    (mem : p ∈ base.placeholders) : base.inputType? p.2.1 = some p.2.2.type := by
  unfold inputType?
  cases found : base.placeholders.find? fun q => q.2.1 = p.2.1 with
  | none =>
    have differs := List.find?_eq_none.mp found p mem
    simp at differs
  | some q =>
    have same : q.2.1 = p.2.1 := of_decide_eq_true (List.find?_some found :)
    rw [Option.map_some, h q (List.mem_of_find?_eq_some found) p mem same]

theorem Consistent.typed (h : base.Consistent) (checked : checkNodes [] base.nodes = .ok ()) :
    Typed base.inputType? base where
  checked := checked
  placeholder _ _ _ found op := h.inputType?_eq (mem_placeholders_iff.mpr ⟨found, op⟩)

end Graph

/-- What holds of the labels of some terms holds of the labels of all terms below them. -/
theorem Store.Below.over {st : Store} {has : Tree.Label → Prop} (below : st.Below outputs t)
    (valid : st.Valid) (labels : ∀ t ∈ outputs, (st.tree t).Over has) : (st.tree t).Over has := by
  induction below with
  | output mem => exact labels _ mem
  | operand term _ mem ih =>
    rw [valid.tree_app term, Tree.over_app] at ih
    exact ih.2 _ (List.mem_map_of_mem mem)

namespace Rebuild

/-- Where a node of the base graph stands for an application, the nodes of the operands unfold as the
    inputs of the node do. -/
theorem Faithful.unfold_operands (h : Faithful src r) (fits : src.Fits) {op : String}
    {args : List TermId} {attrs : Attrs} {ids : List NodeId}
    (due : Due src below r t op args attrs ids) (origin : src.origin? t = some node) :
    node.op.isLeaf = false ∧ ids.mapM r.graph.unfold = node.inputs.mapM src.base.unfold := by
  have layer := fits.origin_layer origin
  obtain ⟨computes, -, operands, -⟩ :=
    Node.layer_eq_app (Option.some.inj (due.term.symm.trans layer.term)).symm
  have inside := Graph.forall₂_termsAt layer.inputs
  rw [operands] at inside
  have unfolded : args.mapM (fun u => (src.store.tree u).expr) = node.inputs.mapM src.base.unfold := by
    refine mapM_eq_of_forall₂ (forall₂_imp_mem inside fun input mem u _ term => ?_).flip
    exact Graph.Mirrors.expr_eq fits ((fits.right origin).index_lt input mem) term
  refine ⟨computes, ?_⟩
  rw [← unfolded]
  exact mapM_eq_of_forall₂ (due.operands.imp fun u id found => h.unfold_eq fits.valid found).flip

/-- The placeholders of a typed graph are a typed graph. -/
theorem Started.typed {ps : List (NodeId × String × Node)} (h : Started src ps r) (fits : src.Fits)
    (base : Graph.Typed inputs src.base) (sub : ∀ p ∈ ps, p ∈ src.base.placeholders) :
    Graph.Typed inputs r.graph := by
  have each : ∀ p ∈ ps, p.2.2.inputs = [] ∧ ∃ name, p.2.2.op = .placeholder name ∧
      inputs name = some p.2.2.type := by
    rintro ⟨i, name, node⟩ mem
    obtain ⟨op, none, -⟩ := fits.placeholder (sub _ mem)
    exact ⟨none, name, op, base.placeholder i node name (mem_placeholders_iff.mp (sub _ mem)).1 op⟩
  refine ⟨?_, fun id node name found op => ?_⟩
  · rw [h.nodes]
    suffices ∀ before, Graph.checkNodes before (ps.map fun p => p.2.2) = .ok () from this []
    clear h sub
    induction ps with
    | nil => exact fun before => rfl
    | cons p rest ih =>
      intro before
      rw [List.forall_mem_cons] at each
      obtain ⟨⟨none, name, op, -⟩, each⟩ := each
      rw [List.map_cons, Graph.checkNodes_cons]
      refine ⟨?_, ih each _⟩
      obtain ⟨i, name', ⟨nodeOp, ids, type⟩⟩ := p
      dsimp only at none op
      subst none op
      exact .placeholder name type
  · unfold Graph.node? at found
    rw [h.nodes] at found
    obtain ⟨p, mem, rfl⟩ := List.mem_map.mp (List.mem_of_getElem? found)
    obtain ⟨-, name', op', known⟩ := each p mem
    rw [op] at op'
    cases op'
    exact known

/-- A step keeps a graph typed. -/
theorem Typed.step (fits : src.Fits) (base : Graph.Typed inputs src.base)
    (filled : ∀ t c, below t → src.store.term? t = some (.leaf (.const c)) → c.Fills)
    (faithful : Faithful src r) (h : Graph.Typed inputs r.graph) (step : Step src below r r') :
    Graph.Typed inputs r'.graph := by
  cases step with
  | @constant t c here _ term =>
    obtain ⟨value, made, same⟩ := fits.constantNode term
    rw [made]
    have shape : value.shape = c.shape := congrArg Constant.shape same
    have length : value.data.length = c.values.length := by
      have values : value.data.map canonical = c.values.map canonical := congrArg Constant.values same
      simpa using congrArg List.length values
    have fills : value.fills = true := by
      have fills : c.shape.numel = c.values.length := filled t c here term
      unfold Tensor.fills
      rw [shape, length]
      exact decide_eq_true fills
    have right : Graph.Right r.graph ⟨.const value, [], (c.elem, c.shape)⟩ := by
      rw [← shape]
      exact .const c.elem fills
    exact h.push right nofun
  | shared => exact h
  | @reused t op args attrs ids node due _ _ origin =>
    obtain ⟨computes, unfolded⟩ := faithful.unfold_operands fits due origin
    have right := fits.right origin
    obtain ⟨nodeOp, inputs, type⟩ := node
    cases right with
    | placeholder => cases computes
    | const => cases computes
    | @operation _ _ types _ _ operands infer =>
      obtain ⟨es, hes⟩ := exists_mapM fun id mem =>
        base.ordered.exists_unfold (Graph.index_lt_of_operandTypes operands id mem)
      have types' := (base.operandTypes_iff hes).mp operands
      have operands' := (h.operandTypes_iff (unfolded.trans hes)).mpr types'
      refine h.push (.operation computes operands' infer) fun name eq => ?_
      dsimp only at eq
      rw [eq] at computes
      cases computes
  | created due _ _ _ named operands infer _ =>
    have computes := Op.not_isLeaf_of_ofName? named
    refine h.push (.operation computes operands infer) fun name eq => ?_
    dsimp only at eq
    rw [eq] at computes
    cases computes
  | output => exact ⟨h.checked, h.placeholder⟩

theorem Run.typed (run : Run src outputs r) (fits : src.Fits) (base : Graph.Typed inputs src.base)
    (filled : ∀ t ∈ outputs, (src.store.tree t).Filled) : Graph.Typed inputs r.graph := by
  have below : ∀ t c, src.store.Below outputs t → src.store.term? t = some (.leaf (.const c)) →
      c.Fills := by
    intro t c below term
    have label := below.over fits.valid filled
    rw [fits.valid.tree_leaf term] at label
    exact Tree.over_leaf.mp label
  exact run.induct (P := fun r => Graph.Typed inputs r.graph) fits
    ((started src).typed fits base fun _ mem => mem)
    fun faithful typed next => Typed.step fits base below faithful typed next

end Rebuild

namespace Graph

/-- Where placeholders of one name have one type, a graph that is rebuilt from a term whose constants
    fill their shapes passes its check. -/
theorem validate_ofTerm {root : TermId} {base : Graph} {ses : Session} {b : Rebuilt}
    (hv : ses.store.Valid) (valid : base.validate = .ok ()) (consistent : base.Consistent)
    (filled : (ses.store.tree root).Filled) (ok : (ofTerm root base ses).1 = .ok b) :
    b.graph.validate = .ok () := by
  obtain ⟨src, outputs, attrs, r, rfl, fits, run, rfl, tree⟩ := ofTerm_run hv valid ok
  rw [tree, Tree.Filled, Tree.over_app] at filled
  have typed := run.typed fits (consistent.typed fits.checked) fun t mem =>
    filled.2 _ (List.mem_map_of_mem mem)
  exact validate_iff.mpr ⟨typed.checked, (run.faithful fits).index_lt run.found⟩

theorem exists_validate_doubledAsSum : ∃ b, (ofTerm ⟨2⟩ doubled doubledAsSum).1 = .ok b ∧
    b.graph.validate = .ok () := by
  obtain ⟨b, ok⟩ := exists_ofTerm_doubledAsSum
  refine ⟨b, ok, validate_ofTerm doubledAsSum_valid (by decide) (by decide) ?_ ok⟩
  rw [doubledAsSum_tree]
  refine .app trivial fun t mem => ?_
  rw [List.mem_singleton.mp mem]
  exact Tree.over_pair trivial (.leaf trivial) (.leaf trivial)

/-- Two placeholders `x`, and the negation of the first. -/
def retyped : Graph where
  nodes := [⟨.placeholder "x", [], (.f64, .scalar)⟩, ⟨.placeholder "x", [], (.f32, .scalar)⟩,
    ⟨.unary .neg, [⟨0⟩], (.f64, .scalar)⟩]
  outputs := [⟨2⟩]

/-- Rebuilt from its own root, the negation is taken over with its type, but not with its operand. -/
theorem exists_ofTerm_retyped : retyped.validate = .ok () ∧ ∃ b,
    (ofTerm (retyped.toTerms .bare).1.root retyped (retyped.toTerms .bare).2).1 = .ok b ∧
      b.graph.validate = .error (.typeMismatch 2 (.operands (.f64, .scalar) (.f32, .scalar))) := by
  refine ⟨by decide, ⟨⟨[⟨.placeholder "x", [], (.f64, .scalar)⟩,
    ⟨.placeholder "x", [], (.f32, .scalar)⟩, ⟨.unary .neg, [⟨1⟩], (.f64, .scalar)⟩], [⟨2⟩]⟩, 1, 0⟩, ?_⟩
  decide

end Graph

end Regraft
