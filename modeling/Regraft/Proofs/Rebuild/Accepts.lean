import Regraft.Proofs.Rebuild.Attributes
import Regraft.Proofs.Rebuild.Valid

/-
  Which terms are accepted. A tree is well typed when its inputs are known, its constants fill their
  shapes, its operators name operations that give a type on the types of the operands, and its attributes
  say nothing else (`Tree.WellTyped`). While a graph grows from well-typed terms, its nodes have the
  types of their expressions and every known input has a node (`Ready`), so that no visit fails
  (`visitWithin_succeeds`). A bundle of well-typed terms whose types are those of the outputs of the base
  graph is rebuilt, and nodes have the types of the terms that they represent (`exists_ofTerm`).
-/

namespace Regraft

theorem mapM_bind_eq_some_iff {α β γ : Type*} {f : α → Option β} {g : β → Option γ} {ts : List α}
    {xs : List γ} : ts.mapM (fun t => (f t).bind g) = some xs ↔
      ∃ ys, ts.mapM f = some ys ∧ ys.mapM g = some xs := by
  simp only [mapM_eq_some_iff, Option.bind_eq_some_iff]
  constructor
  · intro h
    induction h with
    | nil => exact ⟨[], .nil, .nil⟩
    | cons first _ ih =>
      obtain ⟨y, hy, hx⟩ := first
      obtain ⟨ys, hys, hxs⟩ := ih
      exact ⟨y :: ys, .cons hy hys, .cons hx hxs⟩
  · rintro ⟨ys, hys, hxs⟩
    induction hys generalizing xs with
    | nil =>
      cases hxs
      exact .nil
    | cons hy _ ih =>
      cases hxs with
      | cons hx hxs => exact .cons ⟨_, hy, hx⟩ (ih hxs)

variable {src : Source} {inputs : String → Option ValueType} {r r' : Rebuild} {t : TermId}
  {id : NodeId} {node : Node} {outputs : List TermId} {op : String} {args : List TermId}
  {attrs : Attrs} {ids : List NodeId}

namespace Tree

variable (inputs) in
/-- The type of a tree, from the types of the inputs. -/
def type? (t : Tree) : Option ValueType := t.expr.bind (Expr.type? inputs)

variable (inputs) in
/-- Inputs are known, constants fill their shapes, and applications have a type, which the attributes
    agree with. There is only output zero, also in the tag. -/
inductive WellTyped : Tree → Prop
  | input {name : String} {type : ValueType} (known : inputs name = some type) :
      WellTyped (.leaf (.input name))
  | const {c : Constant} (fills : c.Fills) : WellTyped (.leaf (.const c))
  | app {op : String} {args : List Tree} {attrs : Attrs} {o : Op} {types : List ValueType}
      {type : ValueType} (operands : ∀ t ∈ args, WellTyped t) (named : Op.ofName? op = some o)
      (count : args.length = o.arity) (operandTypes : args.mapM (type? inputs) = some types)
      (infer : o.infer types = .ok type) (agree : attrs.Agree type)
      (output : ∀ i, (OpName.normalize op).output = some i → i = 0) : WellTyped (.app op args attrs)

theorem WellTyped.operands {op : String} {args : List Tree} {attrs : Attrs}
    (h : WellTyped inputs (.app op args attrs)) : ∀ t ∈ args, WellTyped inputs t := by
  cases h with
  | app operands => exact operands

theorem WellTyped.filled {t : Tree} (h : WellTyped inputs t) : t.Filled := by
  induction h with
  | input => exact .leaf trivial
  | const fills => exact .leaf fills
  | app _ _ _ _ _ _ _ ih => exact .app trivial ih

theorem WellTyped.ground {t : Tree} (h : WellTyped inputs t) : t.Ground := by
  induction h with
  | input => exact fun v => not_hasVar_leaf
  | const => exact fun v => not_hasVar_leaf
  | app _ _ _ _ _ _ _ ih =>
    rintro v (_ | ⟨mem, has⟩)
    exact ih _ mem v has

end Tree

/-! ## Ground terms -/

/-- No variable is found in a ground term. -/
theorem Subst.firstUnbound_of_ground {st : Store} (hv : st.Valid) (ground : (st.tree t).Ground) :
    Subst.empty.firstUnbound st t = none := by
  rw [(Sound.empty hv).firstUnbound_eq_head?, tree_empty hv, Tree.vars_eq_nil.mpr ground]
  rfl

namespace Rebuild

/-! ## Progress -/

theorem create_succeeds {o : Op} {types : List ValueType} {type : ValueType}
    (named : Op.ofName? op = some o) (arity : o.arity = ids.length)
    (operands : r.graph.operandTypes ids = .ok types) (infer : o.infer types = .ok type)
    (agree : checkAttrs op attrs type = .ok ()) : ∃ id r', create op ids attrs r = .ok (id, r') := by
  have applied : r.graph.apply o ids = .ok (r.graph.push ⟨o, ids, type⟩) := by
    unfold Graph.apply
    rw [operands]
    show (o.infer types >>= fun type => _) = _
    rw [infer]
    rfl
  have here : (r.graph.push ⟨o, ids, type⟩).1.node? (r.graph.push ⟨o, ids, type⟩).2 =
      some ⟨o, ids, type⟩ := List.getElem?_concat_length
  unfold create
  rw [named]
  dsimp only
  rw [if_neg (not_not.mpr arity), applied]
  dsimp only
  rw [here]
  dsimp only
  rw [agree]
  exact ⟨_, _, rfl⟩

/-- Operands are visited where each visit succeeds and keeps what the next one needs. -/
theorem visitOperands_succeeds {P : Rebuild → Prop}
    {visit : TermId → Rebuild → Except RebuildError (NodeId × Rebuild)}
    (succeeds : ∀ t ∈ args, ∀ r, P r → ∃ id r', visit t r = .ok (id, r'))
    (keeps : ∀ t ∈ args, ∀ r id r', P r → visit t r = .ok (id, r') → P r') (h : P r) :
    ∃ ids r', visitOperands visit args r = .ok (ids, r') := by
  induction args generalizing r with
  | nil => exact ⟨[], r, rfl⟩
  | cons t rest ih =>
    rw [List.forall_mem_cons] at succeeds keeps
    obtain ⟨id, r₁, first⟩ := succeeds.1 r h
    obtain ⟨ids, r₂, behind⟩ := ih succeeds.2 keeps.2 (keeps.1 r id r₁ h first)
    refine ⟨id :: ids, r₂, ?_⟩
    rw [visitOperands, first]
    show (visitOperands visit rest r₁ >>= fun x => _) = _
    rw [behind]
    rfl

/-- Nodes are layers of their terms and have the types of their expressions, and known inputs have
    nodes. -/
structure Ready (src : Source) (inputs : String → Option ValueType) (r : Rebuild) : Prop where
  faithful : Faithful src r
  typed : Graph.Typed inputs r.graph
  known : ∀ t name type, src.store.term? t = some (.leaf (.input name)) →
    inputs name = some type → ∃ id, r.memo.lookup t = some id

/-- The inputs of the base graph have nodes from the start. -/
theorem Ready.started (fits : src.Fits) (base : Graph.Typed inputs src.base)
    (known : ∀ name type, inputs name = some type → ∃ p ∈ src.base.placeholders, p.2.1 = name) :
    Ready src inputs (empty.addPlaceholders src) where
  faithful := .started fits
  typed := (Rebuild.started src).typed fits base fun _ mem => mem
  known t name type term given := by
    obtain ⟨⟨i, name, node⟩, mem, rfl⟩ := known name type given
    have lt : i.index < src.terms.length := by
      rw [← fits.layered.length_eq]
      exact Graph.index_lt_of_node? (mem_placeholders_iff.mp mem).1
    have here := List.getElem?_eq_getElem lt
    obtain rfl : t = src.terms[i.index] := Store.term?_inj term ((fits.placeholder mem).2.2 here)
    exact (Rebuild.started src).known _ mem _ here

section

variable (fits : src.Fits)

include fits

theorem wellTyped_operands (term : src.store.term? t = some (.app op args attrs))
    (well : (src.store.tree t).WellTyped inputs) :
    ∀ u ∈ args, (src.store.tree u).WellTyped inputs := by
  rw [fits.valid.tree_app term] at well
  exact fun u mem => well.operands _ (List.mem_map_of_mem mem)

variable (base : Graph.Typed inputs src.base)

include base

theorem Ready.steps (h : Ready src inputs r) (run : Relation.ReflTransGen
    (Step src fun t => (src.store.tree t).WellTyped inputs) r r') : Ready src inputs r' := by
  induction run with
  | refl => exact h
  | tail _ next ih =>
    have filled : ∀ t c, (src.store.tree t).WellTyped inputs →
        src.store.term? t = some (.leaf (.const c)) → c.Fills := by
      intro t c well term
      rw [fits.valid.tree_leaf term] at well
      cases well with
      | const fills => exact fills
    refine ⟨ih.faithful.step fits next, Typed.step fits base filled ih.faithful ih.typed next, ?_⟩
    intro t name type term given
    obtain ⟨id, found⟩ := ih.known t name type term given
    exact ⟨id, next.grows.memo t id found⟩

theorem Ready.visited {n : Nat} (h : Ready src inputs r)
    (well : (src.store.tree t).WellTyped inputs) (ok : visitWithin src n t r = .ok (id, r')) :
    Ready src inputs r' ∧ r'.memo.lookup t = some id := by
  have visited := visitWithin_steps _ fits.valid (wellTyped_operands fits) well ok
  exact ⟨h.steps fits base visited.steps, visited.found⟩

omit base in
/-- An operation is added where its operands are there and have types that its type is inferred from. -/
theorem Ready.addOperation_succeeds (h : Ready src inputs r)
    (well : (Tree.app op (args.map src.store.tree) attrs).WellTyped inputs)
    (operands : r.Found args ids) :
    ∃ id r', r.addOperation src t op ids attrs = .ok (id, r') := by
  cases well with
  | @app _ _ _ o types type _ named count operandTypes infer agree output =>
    unfold addOperation
    split
    · exact ⟨_, _, rfl⟩
    · have output : checkOutput op attrs = .ok () :=
        checkOutput_eq_ok_iff.mpr ⟨agree.output, output⟩
      rw [output]
      cases origin : src.origin? t with
      | some node => exact ⟨_, _, rfl⟩
      | none =>
        obtain ⟨es, exprs, exprTypes⟩ := mapM_bind_eq_some_iff.mp operandTypes
        rw [List.mapM_map] at exprs
        have unfolded : ids.mapM r.graph.unfold = some es := by
          rw [← exprs]
          exact mapM_eq_of_forall₂
            (operands.imp fun u id found => h.faithful.unfold_eq fits.valid found).flip
        have types' := (h.typed.operandTypes_iff unfolded).mpr exprTypes
        have arity : o.arity = ids.length := by
          rw [← count, List.length_map]
          exact operands.length_eq
        have agree : checkAttrs op attrs type = .ok () :=
          checkAttrs_eq_ok_iff.mpr ⟨agree.elem, agree.shape⟩
        obtain ⟨id, r', made⟩ := create_succeeds named arity types' infer agree
        rw [made]
        exact ⟨_, _, rfl⟩

/-- A visit of a well-typed term succeeds. -/
theorem Ready.visitWithin_succeeds {n : Nat} (h : Ready src inputs r)
    (well : (src.store.tree t).WellTyped inputs) (lt : t.index < n) :
    ∃ id r', visitWithin src n t r = .ok (id, r') := by
  induction n generalizing t r with
  | zero => omega
  | succ n ih =>
    unfold visitWithin
    split
    · exact ⟨_, _, rfl⟩
    · rename_i new
      split
      · rename_i term
        rw [Store.tree, Store.treeWithin, term] at well
        cases well
      · rename_i v term
        rw [fits.valid.tree_var term] at well
        cases well
      · rename_i name term
        rw [fits.valid.tree_leaf term] at well
        cases well with
        | input given =>
          obtain ⟨id, found⟩ := h.known t name _ term given
          rw [new] at found
          cases found
      · exact ⟨_, _, rfl⟩
      · rename_i op args attrs term
        have wells := wellTyped_operands fits term well
        obtain ⟨ids, r₁, visited⟩ := visitOperands_succeeds (P := Ready src inputs) (fun u mem r ready =>
          have before := fits.valid t op args attrs term u mem
          ih ready (wells u mem) (by omega))
          (fun u mem r id r' ready ok => (ready.visited fits base (wells u mem) ok).1) h
        obtain ⟨steps, found, -, -⟩ := visitOperands_steps (fun u mem _ _ _ =>
          visitWithin_steps _ fits.valid (wellTyped_operands fits) (wells u mem)) visited
        rw [fits.valid.tree_app term] at well
        obtain ⟨id, r₂, made⟩ := (h.steps fits base steps).addOperation_succeeds fits well found
        refine ⟨id, r₂.remember t id, ?_⟩
        rw [visited]
        show (r₁.addOperation src t op ids attrs >>= fun x => _) = _
        rw [made]
        rfl

/-- Well-typed outputs are added. -/
theorem Ready.addOutputs_succeeds (h : Ready src inputs r)
    (wells : ∀ t ∈ outputs, (src.store.tree t).WellTyped inputs) :
    ∃ r', addOutputs src outputs r = .ok r' := by
  induction outputs generalizing r with
  | nil => exact ⟨r, rfl⟩
  | cons t rest ih =>
    rw [List.forall_mem_cons] at wells
    obtain ⟨id, r₁, ok⟩ := h.visitWithin_succeeds fits base wells.1 (Nat.lt_succ_self _)
    obtain ⟨ready, found⟩ := h.visited fits base wells.1 ok
    have lt := ready.faithful.index_lt (.cons found .nil) id (.head _)
    have next : Step src (fun t => (src.store.tree t).WellTyped inputs) r₁ _ :=
      .output wells.1 found lt
    obtain ⟨r', later⟩ := ih (ready.steps fits base (.single next)) wells.2
    refine ⟨r', ?_⟩
    rw [addOutputs_cons ok (if_pos lt)]
    exact later

end

end Rebuild

/-! ## Interfaces -/

namespace Graph

variable {g : Graph}

/-- Placeholders of different names are consistent. -/
theorem consistent_of_nodup (distinct : (g.contract.inputs.map Prod.fst).Nodup) : g.Consistent := by
  intro p hp q hq same
  unfold contract at distinct
  rw [List.map_map] at distinct
  exact congrArg (fun p => p.2.2.type) (List.inj_on_of_nodup_map distinct hp hq same)

theorem mem_of_inputType? {name : String} {type : ValueType} (h : g.inputType? name = some type) :
    ∃ p ∈ g.placeholders, p.2.1 = name := by
  obtain ⟨p, found, -⟩ := Option.map_eq_some_iff.mp h
  exact ⟨p, List.mem_of_find?_eq_some found, of_decide_eq_true (List.find?_some found :)⟩

end Graph

namespace Rebuild

/-- Steps leave the placeholders as they are. -/
theorem Step.inputs_eq {below : TermId → Prop} (h : Step src below r r') (fits : src.Fits) :
    r'.graph.contract.inputs = r.graph.contract.inputs := by
  have pushed : ∀ {node : Node}, Graph.placeholderType? node = none →
      (r.graph.nodes ++ [node]).filterMap Graph.placeholderType? =
        r.graph.nodes.filterMap Graph.placeholderType? := by
    intro node none
    rw [List.filterMap_append, List.filterMap_cons, none, List.filterMap_nil, List.append_nil]
  rw [Graph.contract_inputs, Graph.contract_inputs]
  cases h with
  | constant _ _ term =>
    obtain ⟨value, made, -⟩ := fits.constantNode term
    rw [made]
    exact pushed rfl
  | shared => rfl
  | reused due _ _ origin =>
    obtain ⟨computes, -⟩ := Node.layer_eq_app
      (Option.some.inj (due.term.symm.trans (fits.origin_layer origin).term)).symm
    exact pushed (Graph.placeholderType?_of_computes computes)
  | created _ _ _ _ named _ _ _ =>
    exact pushed (Graph.placeholderType?_of_computes (Op.not_isLeaf_of_ofName? named))
  | output => rfl

theorem Started.inputs_eq {ps : List (NodeId × String × Node)} (h : Started src ps r)
    (fits : src.Fits) (sub : ∀ p ∈ ps, p ∈ src.base.placeholders) :
    r.graph.contract.inputs = ps.map fun p => (p.2.1, p.2.2.type) := by
  rw [Graph.contract_inputs, h.nodes, List.filterMap_map, ← List.filterMap_eq_map]
  refine List.filterMap_congr fun ⟨i, name, node⟩ mem => ?_
  show Graph.placeholderType? node = some (name, node.type)
  unfold Graph.placeholderType?
  rw [(fits.placeholder (sub _ mem)).1]

/-- The types of outputs that are found are those of their terms. -/
theorem Ready.outputs_eq (h : Ready src inputs r) (valid : src.store.Valid)
    (found : r.Found outputs r.graph.outputs) {types : List ValueType}
    (known : (outputs.map src.store.tree).mapM (Tree.type? inputs) = some types) :
    r.graph.contract.outputs = types := by
  refine Graph.contract_outputs ?_
  rw [← known, List.mapM_map]
  refine mapM_eq_of_forall₂ (found.imp fun t id lookup => ?_).flip
  obtain ⟨x, node, -, here, -⟩ := h.faithful.memo t id lookup
  obtain ⟨e, unfolded⟩ := h.faithful.ordered.exists_unfold (Graph.index_lt_of_node? here)
  have expr := h.faithful.unfold_eq valid lookup
  show _ = (src.store.tree t).type? inputs
  rw [Tree.type?, ← expr, unfolded, here]
  exact (h.typed.type_of_unfold here unfolded).symm

end Rebuild

/-! ## Accepted terms -/

namespace Graph

variable {base : Graph} {root : TermId} {ses : Session} {b : Rebuilt} {ts : List Tree}

theorem rebuildFrom_succeeds (fits : src.Fits) (base : Typed inputs src.base)
    (known : ∀ name type, inputs name = some type → ∃ p ∈ src.base.placeholders, p.2.1 = name)
    (wells : ∀ t ∈ outputs, (src.store.tree t).WellTyped inputs)
    (types : (outputs.map src.store.tree).mapM (Tree.type? inputs) = some src.base.contract.outputs) :
    ∃ b, rebuildFrom src outputs = .ok b := by
  have started := Rebuild.started src
  have ready := Rebuild.Ready.started fits base known
  obtain ⟨r, ok⟩ := ready.addOutputs_succeeds fits base wells
  obtain ⟨steps, ids, found, added⟩ :=
    Rebuild.addOutputs_steps _ fits.valid (Rebuild.wellTyped_operands fits) wells ok
  rw [started.outputs, List.nil_append] at added
  have outputs := (ready.steps fits base steps).outputs_eq fits.valid (added ▸ found) types
  have inputs : r.graph.contract.inputs = src.base.contract.inputs := by
    clear ok found added outputs
    induction steps with
    | refl => exact started.inputs_eq fits fun _ mem => mem
    | tail _ next ih => exact (next.inputs_eq fits).trans ih
  have same : src.base.contract = r.graph.contract := by
    cases source : src.base.contract with
    | mk sourceInputs sourceOutputs =>
      cases result : r.graph.contract with
      | mk resultInputs resultOutputs =>
        rw [source, result] at inputs outputs
        exact congrArg₂ Contract.mk inputs.symm outputs.symm
  refine ⟨⟨r.graph, r.reused, r.created⟩, ?_⟩
  unfold rebuildFrom
  rw [ok]
  exact if_pos same

theorem outputTerms_succeeds (hv : ses.store.Valid) {attrs : Attrs}
    (tree : ses.store.tree root = .app outputsTag ts attrs) (ground : ∀ t ∈ ts, t.Ground) :
    ∃ outputs, outputTerms ses.store root = .ok outputs ∧ ses.store.term? root =
      some (.app outputsTag outputs attrs) ∧ ts = outputs.map ses.store.tree := by
  obtain ⟨outputs, term, rfl⟩ := hv.term?_of_tree_app tree
  refine ⟨outputs, ?_, term, rfl⟩
  have closed : (ses.store.tree root).Ground := by
    rw [tree]
    rintro v (_ | ⟨mem, has⟩)
    exact ground _ mem v has
  unfold outputTerms
  rw [Subst.firstUnbound_of_ground hv closed]
  dsimp only
  rw [Store.app?_eq_some_iff.mpr term]
  exact if_pos rfl

/-- In a graph that is rebuilt from a bundle of well-typed terms, everything below the outputs is
    represented, by nodes of its type. -/
theorem represented_ofTerm (hv : ses.store.Valid) (valid : base.validate = .ok ())
    (distinct : (base.contract.inputs.map Prod.fst).Nodup) {attrs : Attrs}
    (tree : ses.store.tree root = .app outputsTag ts attrs)
    (wells : ∀ t ∈ ts, t.WellTyped base.inputType?) (ok : (ofTerm root base ses).1 = .ok b) :
    ∀ t ∈ ts, ∀ u : Tree, u.Sub t →
      (∃ id node, b.graph.node? id = some node ∧ b.graph.unfold id = u.expr) ∧
      ∀ id node, b.graph.node? id = some node → b.graph.unfold id = u.expr →
        u.type? base.inputType? = some node.type := by
  obtain ⟨src, outputs, rootAttrs, r, rfl, fits, run, rfl, root⟩ := ofTerm_run hv valid ok
  cases tree.symm.trans root
  have faithful := run.faithful fits
  have typed := run.typed fits ((consistent_of_nodup distinct).typed fits.checked) fun t mem =>
    (wells _ (List.mem_map_of_mem mem)).filled
  intro t mem u sub
  constructor
  · obtain ⟨o, out, rfl⟩ := List.mem_map.mp mem
    obtain ⟨i, -, found⟩ := exists_of_forall₂_right run.found.flip out
    obtain ⟨t, id, found, rfl⟩ := faithful.exists_of_sub fits.valid found sub
    obtain ⟨x, node, -, here, -⟩ := faithful.memo t id found
    exact ⟨id, node, here, faithful.unfold_eq fits.valid found⟩
  · intro id node here unfolded
    obtain ⟨e, known⟩ := faithful.ordered.exists_unfold (index_lt_of_node? here)
    rw [Tree.type?, ← unfolded, known]
    exact typed.type_of_unfold here known

/-- A bundle of well-typed terms that have the types of the outputs of a checked graph with
    placeholders of different names is accepted, and every node that represents a subterm has the type
    of the subterm. -/
theorem exists_ofTerm (hv : ses.store.Valid) (valid : base.validate = .ok ())
    (distinct : (base.contract.inputs.map Prod.fst).Nodup) {attrs : Attrs}
    (tree : ses.store.tree root = .app outputsTag ts attrs)
    (wells : ∀ t ∈ ts, t.WellTyped base.inputType?)
    (types : ts.mapM (Tree.type? base.inputType?) = some base.contract.outputs) :
    ∃ b, (ofTerm root base ses).1 = .ok b ∧ ∀ t ∈ ts, ∀ u : Tree, u.Sub t →
      (∃ id node, b.graph.node? id = some node ∧ b.graph.unfold id = u.expr) ∧
      ∀ id node, b.graph.node? id = some node → b.graph.unfold id = u.expr →
        u.type? base.inputType? = some node.type := by
  suffices ∃ b, (ofTerm root base ses).1 = .ok b by
    obtain ⟨b, ok⟩ := this
    exact ⟨b, ok, represented_ofTerm hv valid distinct tree wells ok⟩
  obtain ⟨outputs, rooted, term, rfl⟩ := outputTerms_succeeds hv tree fun t mem => (wells t mem).ground
  obtain ⟨g, mirrors, -⟩ := toTerms_mirrors hv valid
  have stored : ∀ t ∈ outputs, (base.toTerms ses).2.store.tree t = ses.store.tree t :=
    fun t mem => g.store.tree_eq hv (hv.stored term mem)
  have trees : outputs.map (base.toTerms ses).2.store.tree = outputs.map ses.store.tree :=
    List.map_congr_left stored
  have length : outputs.length = base.outputs.length := by
    rw [← length_contract_outputs (validate_iff.mp valid).2, ← (mapM_eq_some_iff.mp types).length_eq,
      List.length_map]
  rw [ofTerm_apply, rooted]
  dsimp only
  rw [if_neg (not_not.mpr length)]
  have fits : (Source.mk (base.toTerms ses).2.store base (base.toTerms ses).1.nodes).Fits := mirrors
  refine rebuildFrom_succeeds fits ((consistent_of_nodup distinct).typed mirrors.checked)
    (fun _ _ => mem_of_inputType?) ?_ ?_
  · intro t mem
    rw [stored t mem]
    exact wells _ (List.mem_map_of_mem mem)
  · rw [trees]
    exact types

/-- A bundle of `x + x` is accepted for the graph of `2 x`. -/
theorem exists_represented_doubledAsSum : ∃ b ts attrs,
    (ofTerm ⟨2⟩ doubled doubledAsSum).1 = .ok b ∧
      doubledAsSum.store.tree ⟨2⟩ = .app outputsTag ts attrs ∧ ∀ t ∈ ts, ∀ u : Tree, u.Sub t →
        (∃ id node, b.graph.node? id = some node ∧ b.graph.unfold id = u.expr) ∧
        ∀ id node, b.graph.node? id = some node → b.graph.unfold id = u.expr →
          u.type? doubled.inputType? = some node.type := by
  have x : (Tree.leaf (.input "x")).WellTyped doubled.inputType? :=
    .input (show _ = some (.f64, .scalar) by decide)
  have sum : (Tree.app "add" [.leaf (.input "x"), .leaf (.input "x")] .unspecified).WellTyped
      doubled.inputType? := by
    have types : [Tree.leaf (.input "x"), .leaf (.input "x")].mapM (Tree.type? doubled.inputType?) =
        some [(.f64, .scalar), (.f64, .scalar)] := by decide +kernel
    have infer : (Op.binary .add).infer [(.f64, .scalar), (.f64, .scalar)] =
        .ok (.f64, .scalar) := by decide +kernel
    refine .app (fun t mem => ?_) (by decide +kernel) rfl types infer ⟨nofun, nofun, nofun⟩ ?_
    · simp only [List.mem_cons, List.not_mem_nil, or_false, or_self] at mem
      exact mem ▸ x
    · have none : (OpName.normalize "add").output = none := by decide
      rw [none]
      nofun
  obtain ⟨b, ok, represented⟩ := exists_ofTerm doubledAsSum_valid (by decide +kernel)
    (by decide) doubledAsSum_tree (fun t mem => List.mem_singleton.mp mem ▸ sum)
    (by decide +kernel)
  exact ⟨b, _, _, ok, doubledAsSum_tree, represented⟩

end Graph

end Regraft
