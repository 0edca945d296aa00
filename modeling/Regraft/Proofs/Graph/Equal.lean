import Regraft.Proofs.Rebuild.Own
import Regraft.Proofs.Rebuild.Valid

/-
  What it says of two graphs that their terms are equal. Their outputs compute the same expressions, and
  two outputs have the same type unless they are placeholders, whose types are not part of their terms
  (`equivalent_outputs`). So the graphs have one interface where they declare the same placeholders, those
  of one name with one type (`equivalent_contract`); otherwise they may differ in it (`returned`).
-/

namespace Regraft

theorem Attrs.ofType_inj {t u : ValueType} (h : Attrs.ofType t = .ofType u) : t = u :=
  Prod.ext (Option.some.inj (congrArg Attrs.elem h)) (Option.some.inj (congrArg Attrs.shape h))

namespace Graph

variable {a b : Graph} {st : Store} {terms ts : List TermId} {t : TermId} {i j : NodeId} {m n : Node}
  {ses : Session}

/-- Nodes of one term are placeholders of one name or have one type. -/
theorem Mirrors.same_type (ma : Mirrors st a terms) (mb : Mirrors st b ts) (here : a.node? i = some m)
    (there : b.node? j = some n) (term : terms[i.index]? = some t) (term' : ts[j.index]? = some t) :
    (∃ name, m.op = .placeholder name ∧ n.op = .placeholder name) ∨ m.type = n.type := by
  have layer := (ma.layer here term).term
  have same : m.layer terms = n.layer ts :=
    Option.some.inj (layer.symm.trans (mb.layer there term').term)
  obtain ⟨name, op⟩ | ⟨value, op⟩ | computes := m.op.kinds
  · left
    rw [Node.layer_placeholder op] at same
    obtain ⟨name', op'⟩ | ⟨value, op'⟩ | computes := n.op.kinds
    · rw [Node.layer_placeholder op'] at same
      cases same
      exact ⟨name, op, op'⟩
    · rw [Node.layer_const op'] at same
      cases same
    · rw [Node.layer_operation computes] at same
      cases same
  · right
    rw [Node.layer_const op] at same
    obtain ⟨value', op', eq⟩ := Node.layer_eq_const same.symm
    have shape := ((right_of_checked ma.checked here).1.of_const op).2
    have shape' := ((right_of_checked mb.checked there).1.of_const op').2
    rw [Prod.ext_iff, shape, shape']
    exact ⟨congrArg Constant.elem eq, congrArg Constant.shape eq⟩
  · right
    rw [Node.layer_operation computes] at same
    exact (Attrs.ofType_inj (Node.layer_eq_app same.symm).2.2.2).symm

variable (a b) in
/-- Two nodes compute the same, and have the same type unless they are placeholders. -/
structure Alike (i j : NodeId) : Prop where
  unfold : a.unfold i = b.unfold j
  type : ∃ m n, a.node? i = some m ∧ b.node? j = some n ∧
    ((∃ name, m.op = .placeholder name ∧ n.op = .placeholder name) ∨ m.type = n.type)

theorem Mirrors.alike (ma : Mirrors st a terms) (mb : Mirrors st b ts)
    (term : terms[i.index]? = some t) (term' : ts[j.index]? = some t) : Alike a b i j := by
  obtain ⟨m, here⟩ := ma.exists_node term
  obtain ⟨n, there⟩ := mb.exists_node term'
  refine ⟨?_, m, n, here, there, ma.same_type mb here there term term'⟩
  rw [← ma.expr_eq (index_lt_of_node? here) term, mb.expr_eq (index_lt_of_node? there) term']

/-- Outputs of graphs whose terms are equal are alike. -/
theorem equivalent_outputs (hv : ses.store.Valid) (va : a.validate = .ok ())
    (vb : b.validate = .ok ()) (equal : (a.equivalent b ses).1 = true) :
    List.Forall₂ (Alike a b) a.outputs b.outputs := by
  obtain ⟨-, ma, root⟩ := toTerms_mirrors hv va
  obtain ⟨grown, mb, root'⟩ := toTerms_mirrors ma.valid vb
  have same : (a.toTerms ses).1.root = (b.toTerms (a.toTerms ses).2).1.root := of_decide_eq_true equal
  have root := grown.store.keeps _ _ root
  rw [same, root'] at root
  have outputs : termsAt (b.toTerms (a.toTerms ses).2).1.nodes b.outputs =
      termsAt (a.toTerms ses).1.nodes a.outputs := (Term.app.inj (Option.some.inj root)).2.1
  have places := (ma.later grown.store).at_nodes (validate_iff.mp va).2
  have places' := mb.at_nodes (validate_iff.mp vb).2
  rw [outputs] at places'
  refine (forall₂_meet places places').imp fun i j => ?_
  rintro ⟨t, -, term, term'⟩
  exact (ma.later grown.store).alike mb term term'

/-- Outputs that are alike have one type, where placeholders of one name do. -/
theorem Alike.type_eq (h : Alike a b i j) (inputs : a.contract.inputs = b.contract.inputs)
    (consistent : a.Consistent) : (a.node? i).map Node.type = (b.node? j).map Node.type := by
  obtain ⟨m, n, here, there, ⟨name, op, op'⟩ | type⟩ := h.type
  · have declared : (name, n.type) ∈ a.contract.inputs :=
      inputs ▸ mem_contract_inputs.mpr ⟨j, n, there, op', rfl⟩
    obtain ⟨k, p, found, op'', type⟩ := mem_contract_inputs.mp declared
    have same : m.type = p.type := consistent (i, name, m) (mem_placeholders_iff.mpr ⟨here, op⟩)
      (k, name, p) (mem_placeholders_iff.mpr ⟨found, op''⟩) rfl
    rw [here, there, Option.map_some, Option.map_some, same, type]
  · rw [here, there, Option.map_some, Option.map_some, type]

/-- The outputs of two graphs whose terms are equal compute the same, one by one, and have the same types
    but for placeholders of one name. So the graphs have one interface if they declare the same
    placeholders, those of one name with one type. -/
theorem equivalent_contract (hv : ses.store.Valid) (va : a.validate = .ok ())
    (vb : b.validate = .ok ()) (equal : (a.equivalent b ses).1 = true) :
    List.Forall₂ (Alike a b) a.outputs b.outputs ∧
      (a.contract.inputs = b.contract.inputs → a.Consistent → a.contract = b.contract) := by
  have alike := equivalent_outputs hv va vb equal
  refine ⟨alike, fun inputs consistent => ?_⟩
  have outputs : a.contract.outputs = b.contract.outputs := by
    unfold contract
    dsimp only
    generalize a.outputs = ids, b.outputs = ids' at alike
    induction alike with
    | nil => rfl
    | cons first _ ih =>
      rw [List.filterMap_cons, List.filterMap_cons, first.type_eq inputs consistent, ih]
  cases left : a.contract with
  | mk as ao =>
    cases right : b.contract with
    | mk bs bo =>
      rw [left, right] at inputs outputs
      cases inputs
      cases outputs
      rfl

/-- The graph of `2 x` with the nodes of `x` and `2` in the other order. -/
def doubledLater : Graph where
  nodes := [⟨.const (.scalar 2.0), [], (.f64, .scalar)⟩, ⟨.placeholder "x", [], (.f64, .scalar)⟩,
    ⟨.binary .mul, [⟨1⟩, ⟨0⟩], (.f64, .scalar)⟩]
  outputs := [⟨2⟩]

theorem equivalent_doubledLater :
    doubled.validate = .ok () ∧ doubledLater.validate = .ok () ∧
      (doubled.equivalent doubledLater .bare).1 = true ∧ doubled.contract = doubledLater.contract := by
  have valid : doubled.validate = .ok () := rfl
  have valid' : doubledLater.validate = .ok () := rfl
  have equal : (doubled.equivalent doubledLater .bare).1 = true := by decide +kernel
  exact ⟨valid, valid', equal,
    (equivalent_contract Store.valid_empty valid valid' equal).2 rfl (by decide)⟩

/-- The graph that returns its input, of some type. -/
def returned (t : ElemType) : Graph := ⟨[⟨.placeholder "x", [], (t, .scalar)⟩], [⟨0⟩]⟩

theorem equivalent_returned :
    (returned .f64).validate = .ok () ∧ (returned .f32).validate = .ok () ∧
      ((returned .f64).equivalent (returned .f32) .bare).1 = true ∧
      (returned .f64).contract.inputs ≠ (returned .f32).contract.inputs ∧
      (returned .f64).contract.outputs ≠ (returned .f32).contract.outputs :=
  ⟨rfl, rfl, by decide +kernel, by decide, by decide⟩

end Graph

end Regraft
