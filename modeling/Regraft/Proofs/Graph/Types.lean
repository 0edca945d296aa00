import Regraft.Proofs.Graph.Unfold
import Regraft.Proofs.Term.Pairs

/-
  Types of expressions. The type of an expression follows from the types of its inputs
  (`Expr.type?`), and a node of a checked graph has the type of the expression that it unfolds to
  (`Typed.type_of_unfold`). So nodes of two graphs that unfold alike have one type, and what is inferred
  from them is the same.
-/

namespace Regraft

variable {inputs : String → Option ValueType} {e : Expr} {es : List Expr}

variable (inputs) in
/-- The type of an expression, from the types of the inputs. -/
def Expr.type? : Expr → Option ValueType :=
  fold inputs (fun c => some (c.elem, c.shape))
    fun o types => (types.mapM id).bind fun types => (o.infer types).toOption

theorem Expr.type?_op (o : Op) (es : List Expr) : (Expr.op o es).type? inputs =
    (es.mapM (type? inputs)).bind fun types => (o.infer types).toOption := by
  unfold type?
  rw [fold_op]
  simp only [List.mapM_map, Function.id_comp]

theorem Expr.type?_op_eq_some_iff {o : Op} {type : ValueType} :
    (Expr.op o es).type? inputs = some type ↔
      ∃ types, es.mapM (type? inputs) = some types ∧ o.infer types = .ok type := by
  rw [type?_op]
  simp only [Option.bind_eq_some_iff, toOption_eq_some_iff]

namespace Graph

variable {g : Graph} {id : NodeId} {ids : List NodeId} {node : Node} {types : List ValueType}
  {outputs : List NodeId}

/-- The type of the placeholders of a name. -/
def inputType? (g : Graph) (name : String) : Option ValueType :=
  (g.placeholders.find? fun p => p.2.1 = name).map fun p => p.2.2.type

/-- A checked graph whose placeholders have given types. -/
structure Typed (inputs : String → Option ValueType) (g : Graph) : Prop where
  checked : checkNodes [] g.nodes = .ok ()
  placeholder : ∀ id node name, g.node? id = some node → node.op = .placeholder name →
    inputs name = some node.type

namespace Typed

theorem ordered (h : Typed inputs g) : g.Ordered := .of_checked h.checked

/-- Inputs have the types of their expressions. -/
theorem operandTypes_of_each
    (each : ∀ id ∈ ids, ∀ node e, g.node? id = some node → g.unfold id = some e →
      e.type? inputs = some node.type) (unfolded : ids.mapM g.unfold = some es) :
    g.operandTypes ids = .ok types ↔ es.mapM (Expr.type? inputs) = some types := by
  rw [operandTypes_eq_ok_iff, ← mapM_eq_some_iff]
  suffices ids.mapM (fun id => (g.node? id).map Node.type) = es.mapM (Expr.type? inputs) by rw [this]
  refine mapM_eq_of_forall₂ (forall₂_imp_mem (mapM_eq_some_iff.mp unfolded) ?_)
  intro id mem e _ unfolded
  obtain ⟨node, found⟩ : ∃ node, g.node? id = some node := by
    obtain ⟨node, found, -⟩ := Option.bind_eq_some_iff.mp unfolded
    exact ⟨node, found⟩
  rw [found, each id mem node e found unfolded, Option.map_some]

/-- A node has the type of its expression. -/
theorem type_of_unfold (h : Typed inputs g) (found : g.node? id = some node)
    (unfolded : g.unfold id = some e) : e.type? inputs = some node.type := by
  refine h.ordered.induct
    (P := fun id => ∀ node e, g.node? id = some node → g.unfold id = some e →
      e.type? inputs = some node.type)
    (fun id node found each node' e found' unfolded => ?_) (index_lt_of_node? found) node e found
    unfolded
  rw [found, Option.some_inj] at found'
  subst found'
  have right := (right_of_checked h.checked found).1
  obtain ⟨op, ids, type⟩ := node
  cases right with
  | placeholder name =>
    rw [unfold_placeholder found rfl, Option.some_inj] at unfolded
    subst unfolded
    exact h.placeholder id _ name found rfl
  | const t fills =>
    rw [unfold_const found rfl, Option.some_inj] at unfolded
    subst unfolded
    rfl
  | operation computes operands infer =>
    rw [h.ordered.unfold_operation found computes, Option.map_eq_some_iff] at unfolded
    obtain ⟨es, unfolded, rfl⟩ := unfolded
    exact Expr.type?_op_eq_some_iff.mpr
      ⟨_, (operandTypes_of_each each unfolded).mp operands, infer⟩

theorem operandTypes_iff (h : Typed inputs g) (unfolded : ids.mapM g.unfold = some es) :
    g.operandTypes ids = .ok types ↔ es.mapM (Expr.type? inputs) = some types :=
  operandTypes_of_each (fun _ _ _ _ => h.type_of_unfold) unfolded

/-- A node that is right behind the others keeps a graph typed. -/
theorem push (h : Typed inputs g) (right : Right g node)
    (placeholder : ∀ name, node.op = .placeholder name → inputs name = some node.type) :
    Typed inputs ⟨g.nodes ++ [node], outputs⟩ where
  checked := by
    rw [checkNodes_append, checkNodes_cons]
    exact ⟨h.checked, right.anyOutputs, rfl⟩
  placeholder id found name here op := by
    rcases node?_push_cases here with before | ⟨-, rfl⟩
    · exact h.placeholder id found name before op
    · exact placeholder name op

end Typed

end Graph

end Regraft
