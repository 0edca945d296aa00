import Regraft.Proofs.Rebuild.Faithful

/-
  What attributes are checked. An operation that is looked up by its operator and inputs was made for an
  application whose attributes agree with it (`Checked`). An application that comes later with the same
  operator and operands is given this node as well, and what it says itself is not looked at
  (`exists_overlooked_secondOutput`). So an application is represented by a node that agrees with some
  application of its operator to the same operands (`agree_ofTerm`).
-/

namespace Regraft

variable {src : Source} {r r' : Rebuild} {t : TermId} {id : NodeId} {node : Node}
  {outputs : List TermId} {op : String} {attrs : Attrs} {type : ValueType}

/-- Attributes say nothing of a value that is not so. -/
structure Attrs.Agree (attrs : Attrs) (type : ValueType) : Prop where
  elem : ∀ t, attrs.elem = some t → t = type.1
  shape : ∀ s, attrs.shape = some s → s = type.2
  output : ∀ i, attrs.output = some i → i = 0

theorem Attrs.agree_ofType (type : ValueType) : (Attrs.ofType type).Agree type where
  elem _ h := (Option.some.inj h).symm
  shape _ h := (Option.some.inj h).symm
  output _ h := (Option.some.inj h).symm

/-- Everything below one of some terms is a subtree of one of them. -/
theorem Store.Below.exists_sub {st : Store} (below : st.Below outputs t) (valid : st.Valid) :
    ∃ o ∈ outputs, (st.tree t).Sub (st.tree o) := by
  induction below with
  | output mem => exact ⟨_, mem, .refl⟩
  | operand term _ mem ih =>
    obtain ⟨o, out, sub⟩ := ih
    rw [valid.tree_app term] at sub
    exact ⟨o, out, sub.trans (.operand (List.mem_map_of_mem mem) .refl)⟩

namespace Rebuild

theorem checkAttrs_eq_ok_iff : checkAttrs op attrs type = .ok () ↔
    (∀ t, attrs.elem = some t → t = type.1) ∧ ∀ s, attrs.shape = some s → s = type.2 := by
  have shape : checkAttrs.checkShape op attrs type = .ok () ↔
      ∀ s, attrs.shape = some s → s = type.2 := by
    unfold checkAttrs.checkShape
    cases attrs.shape with
    | none => exact ⟨fun _ => nofun, fun _ => rfl⟩
    | some s => by_cases same : s = type.2 <;> simp [same]
  unfold checkAttrs
  cases attrs.elem with
  | none => exact ⟨fun h => ⟨nofun, shape.mp h⟩, fun h => shape.mpr h.2⟩
  | some t => by_cases same : t = type.1 <;> simp [same, shape]

theorem checkOutput_eq_ok_iff : checkOutput op attrs = .ok () ↔
    (∀ i, attrs.output = some i → i = 0) ∧ ∀ i, (OpName.normalize op).output = some i → i = 0 := by
  have none : checkOutput op attrs = .ok () ↔
      ∀ i ∈ attrs.output.toList ++ (OpName.normalize op).output.toList, i = 0 := by
    unfold checkOutput
    dsimp only
    split
    · rename_i i found
      refine ⟨nofun, fun all => ?_⟩
      have differs := List.find?_some found
      simp [all i (List.mem_of_find?_eq_some found)] at differs
    · rename_i found
      refine ⟨fun _ i mem => ?_, fun _ => rfl⟩
      simpa using List.find?_eq_none.mp found i mem
  rw [none]
  simp only [List.mem_append, Option.mem_toList]
  exact ⟨fun h => ⟨fun i hi => h i (.inl hi), fun i hi => h i (.inr hi)⟩,
    fun h i hi => hi.elim (h.1 i) (h.2 i)⟩

/-- Operations were made for applications whose attributes agree with them, and the node of an
    application is an operation that is looked up by the nodes of its operands. -/
structure Checked (src : Source) (outputs : List TermId) (r : Rebuild) : Prop where
  operations : ∀ op ids id, r.operations.lookup (op, ids) = some id → ∃ t args attrs node,
    src.store.Below outputs t ∧ src.store.term? t = some (.app op args attrs) ∧ r.Found args ids ∧
      r.graph.node? id = some node ∧ attrs.Agree node.type
  memo : ∀ t id op args attrs, r.memo.lookup t = some id →
    src.store.term? t = some (.app op args attrs) →
    ∃ ids, r.Found args ids ∧ r.operations.lookup (op, ids) = some id

namespace Checked

theorem started (fits : src.Fits) : Checked src outputs (empty.addPlaceholders src) := by
  obtain ⟨-, -, operations, memo, -⟩ := Rebuild.started src
  refine ⟨fun op ids id found => ?_, fun t id op args attrs found term => ?_⟩
  · rw [operations] at found
    cases found
  · obtain ⟨⟨i, name, node⟩, mem, here, -⟩ := memo t id found
    rw [(fits.placeholder mem).2.2 here] at term
    cases term

/-- Growth without a new operation. -/
theorem grow (h : Checked src outputs r) (g : r.Grows r') (same : r'.operations = r.operations)
    (new : ∀ t id op args attrs, r'.memo.lookup t = some id →
      src.store.term? t = some (.app op args attrs) → r.memo.lookup t = some id ∨
      ∃ ids, r.Found args ids ∧ r.operations.lookup (op, ids) = some id) :
    Checked src outputs r' := by
  refine ⟨fun op ids id found => ?_, fun t id op args attrs found term => ?_⟩
  · rw [same] at found
    obtain ⟨t, args, attrs, node, below, term, operands, here, agree⟩ := h.operations op ids id found
    exact ⟨t, args, attrs, node, below, term, g.found operands, g.node? here, agree⟩
  · rw [same]
    obtain ⟨ids, operands, known⟩ := (new t id op args attrs found term).elim
      (fun found => h.memo t id op args attrs found term) fun known => known
    exact ⟨ids, g.found operands, known⟩

/-- A new operation whose attributes agree with it. -/
theorem put (h : Checked src outputs r) {args : List TermId} {ids : List NodeId}
    (due : Due src (src.store.Below outputs) r t op args attrs ids) (g : r.Grows r')
    (made : r'.graph.nodes = r.graph.nodes ++ [node] ∧ r'.memo = (t, ⟨r.graph.size⟩) :: r.memo ∧
      r'.operations = ((op, ids), ⟨r.graph.size⟩) :: r.operations)
    (agree : attrs.Agree node.type) : Checked src outputs r' := by
  obtain ⟨nodes, memo, operations⟩ := made
  have here : r'.graph.node? ⟨r.graph.size⟩ = some node := by
    unfold Graph.node?
    rw [nodes]
    exact List.getElem?_concat_length
  refine ⟨fun op' ids' id found => ?_, fun u id op' args' attrs' found term => ?_⟩
  · rw [operations] at found
    rcases lookup_cons_cases found with ⟨same, rfl⟩ | found
    · cases same
      exact ⟨t, args, attrs, node, due.here, due.term, g.found due.operands, here, agree⟩
    · obtain ⟨u, args', attrs', other, below, term, operands, there, agree⟩ :=
        h.operations op' ids' id found
      exact ⟨u, args', attrs', other, below, term, g.found operands, g.node? there, agree⟩
  · rw [memo] at found
    rcases lookup_cons_cases found with ⟨rfl, rfl⟩ | found
    · cases term.symm.trans due.term
      refine ⟨ids, g.found due.operands, ?_⟩
      rw [operations]
      exact List.lookup_cons_self
    · obtain ⟨ids', operands, known⟩ := h.memo u id op' args' attrs' found term
      exact ⟨ids', g.found operands, g.operations _ _ known⟩

theorem step (fits : src.Fits) (h : Checked src outputs r)
    (step : Step src (src.store.Below outputs) r r') : Checked src outputs r' := by
  have g := step.grows
  cases step with
  | constant _ _ term =>
    refine h.grow g rfl fun u id op args attrs found app => ?_
    rcases lookup_cons_cases found with ⟨rfl, -⟩ | found
    · cases app.symm.trans term
    · exact .inl found
  | shared due known =>
    refine h.grow g rfl fun u id op args attrs found app => ?_
    rcases lookup_cons_cases found with ⟨rfl, rfl⟩ | found
    · cases app.symm.trans due.term
      exact .inr ⟨_, due.operands, known⟩
    · exact .inl found
  | @reused t op args attrs ids node due _ _ origin =>
    obtain ⟨-, -, -, rfl⟩ := Node.layer_eq_app
      (Option.some.inj (due.term.symm.trans (fits.origin_layer origin).term)).symm
    exact h.put due g ⟨rfl, rfl, rfl⟩ (Attrs.agree_ofType _)
  | created due _ output _ _ _ _ agree =>
    obtain ⟨elem, shape⟩ := checkAttrs_eq_ok_iff.mp agree
    exact h.put due g ⟨rfl, rfl, rfl⟩ ⟨elem, shape, (checkOutput_eq_ok_iff.mp output).1⟩
  | output => exact h.grow g rfl fun u id op args attrs found app => .inl found

end Checked

theorem Run.checked (run : Run src outputs r) (fits : src.Fits) : Checked src outputs r :=
  run.induct fits (.started fits) fun _ checked next => checked.step fits next

end Rebuild

namespace Graph

variable {root : TermId} {base : Graph} {ses : Session} {b : Rebuilt}

/-- An application below the outputs is represented by a node that agrees with the attributes of some
    application of the same operator to the same operands. -/
theorem agree_ofTerm (hv : ses.store.Valid) (valid : base.validate = .ok ())
    (ok : (ofTerm root base ses).1 = .ok b) : ∃ ts rootAttrs,
      ses.store.tree root = .app outputsTag ts rootAttrs ∧
        ∀ o ∈ ts, ∀ op us attrs, (Tree.app op us attrs).Sub o →
          ∃ id node, b.graph.node? id = some node ∧
            b.graph.unfold id = (Tree.app op us attrs).expr ∧
            ∃ us' attrs', us'.map Tree.expr = us.map Tree.expr ∧
              (∃ o' ∈ ts, (Tree.app op us' attrs').Sub o') ∧ attrs'.Agree node.type := by
  obtain ⟨src, outputs, rootAttrs, r, rfl, fits, run, rfl, tree⟩ := ofTerm_run hv valid ok
  refine ⟨_, rootAttrs, tree, fun o mem op us attrs sub => ?_⟩
  have faithful := run.faithful fits
  have checked := run.checked fits
  obtain ⟨o, out, rfl⟩ := List.mem_map.mp mem
  obtain ⟨i, -, found⟩ := exists_of_forall₂_right run.found.flip out
  obtain ⟨t, id, found, app⟩ := faithful.exists_of_sub fits.valid found sub
  obtain ⟨args, term, rfl⟩ := fits.valid.term?_of_tree_app app
  obtain ⟨ids, operands, known⟩ := checked.memo t id op args attrs found term
  obtain ⟨t', args', attrs', node, below, term', operands', here, agree⟩ :=
    checked.operations op ids id known
  have exprs : ∀ {args}, Rebuild.Found r args ids →
      (args.map src.store.tree).map Tree.expr = ids.map r.graph.unfold := by
    intro args operands
    rw [List.map_map, ← List.forall₂_eq_eq_eq, List.forall₂_map_left_iff, List.forall₂_map_right_iff]
    exact operands.imp fun u id found => (faithful.unfold_eq fits.valid found).symm
  refine ⟨id, node, here, (faithful.unfold_eq fits.valid found).trans (congrArg _ app),
    args'.map src.store.tree, attrs', (exprs operands').trans (exprs operands).symm, ?_, agree⟩
  obtain ⟨o', out', sub'⟩ := below.exists_sub fits.valid
  rw [fits.valid.tree_app term'] at sub'
  exact ⟨_, List.mem_map_of_mem out', sub'⟩

/-! ## Two outputs -/

/-- The negation of `x`, twice. -/
def negations : Graph where
  nodes := [⟨.placeholder "x", [], (.f64, .scalar)⟩, ⟨.unary .neg, [⟨0⟩], (.f64, .scalar)⟩]
  outputs := [⟨1⟩, ⟨1⟩]

/-- A session with a bundle of the negation of `x` and of its output one, last. -/
def secondOutput : Session := .holding .none [.leaf (.input "x"), .app "neg" [⟨0⟩] .unspecified,
  .app "neg" [⟨0⟩] ⟨none, none, some 1⟩, .app outputsTag [⟨1⟩, ⟨2⟩] .unspecified]

theorem secondOutput_valid : secondOutput.store.Valid := by decide

theorem exists_ofTerm_secondOutput : ∃ b, (ofTerm ⟨3⟩ negations secondOutput).1 = .ok b :=
  exists_eq_ok (by decide)

theorem exists_agree_secondOutput : ∃ b ts rootAttrs,
    (ofTerm ⟨3⟩ negations secondOutput).1 = .ok b ∧
      secondOutput.store.tree ⟨3⟩ = .app outputsTag ts rootAttrs ∧
        ∀ o ∈ ts, ∀ op us attrs, (Tree.app op us attrs).Sub o →
          ∃ id node, b.graph.node? id = some node ∧
            b.graph.unfold id = (Tree.app op us attrs).expr ∧
            ∃ us' attrs', us'.map Tree.expr = us.map Tree.expr ∧
              (∃ o' ∈ ts, (Tree.app op us' attrs').Sub o') ∧ attrs'.Agree node.type := by
  obtain ⟨b, ok⟩ := exists_ofTerm_secondOutput
  obtain ⟨ts, rootAttrs, represented⟩ := agree_ofTerm secondOutput_valid (by decide) ok
  exact ⟨b, ts, rootAttrs, ok, represented⟩

/-- Output one is overlooked behind the same operation without attributes. -/
theorem exists_overlooked_secondOutput : negations.validate = .ok () ∧ ∃ b ts rootAttrs,
    (ofTerm ⟨3⟩ negations secondOutput).1 = .ok b ∧
      secondOutput.store.tree ⟨3⟩ = .app outputsTag ts rootAttrs ∧
        ∃ o ∈ ts, ∃ op us attrs, (Tree.app op us attrs).Sub o ∧
          ¬ ∃ id node, b.graph.node? id = some node ∧
            b.graph.unfold id = (Tree.app op us attrs).expr ∧ attrs.Agree node.type := by
  obtain ⟨b, ok⟩ := exists_ofTerm_secondOutput
  have second : secondOutput.store.term? ⟨2⟩ = some (.app "neg" [⟨0⟩] ⟨none, none, some 1⟩) := by
    decide
  have root : secondOutput.store.term? ⟨3⟩ = some (.app outputsTag [⟨1⟩, ⟨2⟩] .unspecified) := by
    decide
  refine ⟨by decide, b, _, _, ok, secondOutput_valid.tree_app root, secondOutput.store.tree ⟨2⟩,
    List.mem_map_of_mem (.tail _ (.head _)), "neg",
    [⟨0⟩].map secondOutput.store.tree, ⟨none, none, some 1⟩, ?_, ?_⟩
  · rw [secondOutput_valid.tree_app second]
    exact .refl
  · rintro ⟨id, node, -, -, agree⟩
    have first := agree.output 1 rfl
    cases first

end Graph

end Regraft
