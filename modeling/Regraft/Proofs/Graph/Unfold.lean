import Regraft.Graph.Terms
import Regraft.Proofs.Graph.Check
import Regraft.Proofs.Term.Tree

/-
  Expressions: what is computed, without sharing. A node unfolds to the expression below it
  (`Graph.unfold`), and a tree of operators that graphs know is an expression too (`Tree.expr`), its
  attributes left out. Nodes that are appended change no expression of the earlier ones, and in a graph
  whose inputs precede the nodes that use them every node unfolds (`Ordered.exists_unfold`).
-/

namespace Regraft

/-- An expression over named inputs and constants. -/
inductive Expr
  | input (name : String)
  | const (c : Constant)
  | op (o : Op) (operands : List Expr)

namespace Expr

/-- Induction on an expression, with the statement for all operands of an operation. -/
@[elab_as_elim, induction_eliminator]
theorem induct {P : Expr → Prop} (input : ∀ name, P (.input name)) (const : ∀ c, P (.const c))
    (op : ∀ o es, (∀ e ∈ es, P e) → P (.op o es)) (e : Expr) : P e :=
  @Expr.rec P (fun es => ∀ e ∈ es, P e) input const op (fun _ h => nomatch h)
    (fun _ _ hd tl _ h => match h with
      | .head _ => hd
      | .tail _ h => tl _ h) e

section

variable {β : Type*} (input : String → β) (const : Constant → β) (op : Op → List β → β)

mutual

/-- The value of an expression, from the values of its operands. -/
def fold : Expr → β
  | .input name => input name
  | .const c => const c
  | .op o es => op o (foldAll es)

def foldAll : List Expr → List β
  | [] => []
  | e :: rest => fold e :: foldAll rest

end

theorem foldAll_eq_map (es : List Expr) :
    foldAll input const op es = es.map (fold input const op) := by
  induction es with
  | nil => rfl
  | cons e rest ih => rw [foldAll, List.map_cons, ih]

theorem fold_op (o : Op) (es : List Expr) :
    fold input const op (.op o es) = op o (es.map (fold input const op)) := by
  rw [fold, foldAll_eq_map]

end

end Expr

/-! ## Trees -/

/-- A constant with its values in canonical form. -/
def Constant.canonicalized (c : Constant) : Constant := ⟨c.elem, c.shape, c.values.map canonical⟩

theorem canonical_canonical (x : Float) : canonical (canonical x) = canonical x := by
  unfold canonical
  split
  · split <;> rfl
  · rfl

theorem map_canonical (xs : List Float) : (xs.map canonical).map canonical = xs.map canonical := by
  rw [List.map_map]
  exact List.map_congr_left fun x _ => canonical_canonical x

theorem Constant.canonicalized_ofTensor (value : Tensor) (t : ElemType) :
    (Constant.ofTensor value t).canonicalized = .ofTensor value t := by
  unfold canonicalized ofTensor
  rw [map_canonical]

def Leaf.expr : Leaf → Expr
  | .input name => .input name
  | .const c => .const c.canonicalized

namespace Tree

/-- The expression of a tree without variables whose operators name operations. Attributes do not
    count. -/
def expr : Tree → Option Expr :=
  fold (fun _ => none) (fun l => some l.expr)
    (fun op _ es => (Op.ofName? op).bind fun o => (es.mapM id).map (.op o)) fun _ => none

@[simp] theorem expr_leaf (l : Leaf) : (leaf l).expr = some l.expr := rfl

@[simp] theorem expr_app (op : String) (args : List Tree) (attrs : Attrs) :
    (app op args attrs).expr = (Op.ofName? op).bind fun o => (args.mapM expr).map (.op o) := by
  unfold expr
  rw [fold_app]
  simp only [List.mapM_map, Function.id_comp]

theorem expr_app_eq_some_iff {op : String} {args : List Tree} {attrs : Attrs} {e : Expr} :
    (app op args attrs).expr = some e ↔
      ∃ o es, Op.ofName? op = some o ∧ args.mapM expr = some es ∧ .op o es = e := by
  rw [expr_app]
  simp only [Option.bind_eq_some_iff, Option.map_eq_some_iff]
  constructor
  · rintro ⟨o, named, es, operands, eq⟩
    exact ⟨o, es, named, operands, eq⟩
  · rintro ⟨o, es, named, operands, eq⟩
    exact ⟨o, named, es, operands, eq⟩

end Tree

/-! ## Nodes -/

namespace Graph

/-- The expression of a node, at most `depth` operations down. -/
def unfoldWithin (g : Graph) : Nat → NodeId → Option Expr
  | 0, _ => none
  | depth + 1, id => (g.node? id).bind fun node => match node.op with
    | .placeholder name => some (.input name)
    | .const value => some (.const (.ofTensor value node.type.1))
    | op => (node.inputs.mapM (g.unfoldWithin depth)).map (.op op)

/-- The expression of a node; inputs precede the nodes that use them. -/
def unfold (g : Graph) (id : NodeId) : Option Expr := g.unfoldWithin (id.index + 1) id

/-- Inputs precede the nodes that use them. -/
def Ordered (g : Graph) : Prop :=
  ∀ id node, g.node? id = some node → ∀ input ∈ node.inputs, input.index < id.index

variable {g : Graph} {id : NodeId} {node : Node} {more : List Node} {outputs : List NodeId} {n : Nat}

theorem Ordered.of_checked (h : checkNodes [] g.nodes = .ok ()) : g.Ordered :=
  fun _ _ found => (right_of_checked h found).2

/-- A graph with fewer nodes at the end. -/
theorem Ordered.of_append (h : (Graph.mk (g.nodes ++ more) outputs).Ordered) : g.Ordered :=
  fun id node found => h id node (node?_append found)

/-- Induction on the nodes of a graph, with the statement for all inputs of a node. -/
theorem Ordered.induct {P : NodeId → Prop} (h : g.Ordered)
    (step : ∀ id node, g.node? id = some node → (∀ input ∈ node.inputs, P input) → P id)
    (lt : id.index < g.size) : P id := by
  induction place : id.index using Nat.strongRecOn generalizing id with
  | ind n ih =>
    obtain ⟨node, found⟩ := node?_of_index_lt lt
    refine step id node found fun input mem => ?_
    have before := h id node found input mem
    exact ih input.index (place ▸ before) (Nat.lt_trans before lt) rfl

theorem unfoldWithin_operation (found : g.node? id = some node) (computes : node.op.isLeaf = false) :
    g.unfoldWithin (n + 1) id = (node.inputs.mapM (g.unfoldWithin n)).map (.op node.op) := by
  rw [unfoldWithin, found, Option.bind_some]
  split
  · rename_i eq
    rw [eq] at computes
    cases computes
  · rename_i eq
    rw [eq] at computes
    cases computes
  · rfl

theorem unfoldWithin_placeholder {name : String} (found : g.node? id = some node)
    (op : node.op = .placeholder name) : g.unfoldWithin (n + 1) id = some (.input name) := by
  rw [unfoldWithin, found, Option.bind_some, op]

theorem unfoldWithin_const {value : Tensor} (found : g.node? id = some node)
    (op : node.op = .const value) :
    g.unfoldWithin (n + 1) id = some (.const (.ofTensor value node.type.1)) := by
  rw [unfoldWithin, found, Option.bind_some, op]

/-- In an ordered graph the place of a node bounds the depth of its expression. -/
theorem Ordered.unfoldWithin_eq (h : g.Ordered) (lt : id.index < n) :
    g.unfoldWithin n id = g.unfold id := by
  have same : ∀ n m id, id.index < n → id.index < m → g.unfoldWithin n id = g.unfoldWithin m id := by
    intro n
    induction n with
    | zero => intro m id lt; omega
    | succ n ih =>
      intro m id lt lt'
      cases m with
      | zero => omega
      | succ m =>
        cases found : g.node? id with
        | none => rw [unfoldWithin, unfoldWithin, found, Option.bind_none, Option.bind_none]
        | some node =>
          obtain ⟨name, op⟩ | ⟨value, op⟩ | computes := node.op.kinds
          · rw [unfoldWithin_placeholder found op, unfoldWithin_placeholder found op]
          · rw [unfoldWithin_const found op, unfoldWithin_const found op]
          · rw [unfoldWithin_operation found computes, unfoldWithin_operation found computes]
            congr 1
            refine mapM_congr fun input mem => ?_
            have before := h id node found input mem
            exact ih m input (by omega) (by omega)
  exact same n (id.index + 1) id lt (Nat.lt_succ_self _)

theorem unfold_placeholder {name : String} (found : g.node? id = some node)
    (op : node.op = .placeholder name) : g.unfold id = some (.input name) :=
  unfoldWithin_placeholder found op

theorem unfold_const {value : Tensor} (found : g.node? id = some node) (op : node.op = .const value) :
    g.unfold id = some (.const (.ofTensor value node.type.1)) := unfoldWithin_const found op

theorem Ordered.unfold_operation (h : g.Ordered) (found : g.node? id = some node)
    (computes : node.op.isLeaf = false) :
    g.unfold id = (node.inputs.mapM g.unfold).map (.op node.op) := by
  rw [unfold, unfoldWithin_operation found computes]
  congr 1
  exact mapM_congr fun input mem => h.unfoldWithin_eq (h id node found input mem)

/-- Every node of an ordered graph has an expression. -/
theorem Ordered.exists_unfold (h : g.Ordered) (lt : id.index < g.size) : ∃ e, g.unfold id = some e := by
  refine h.induct (P := fun id => ∃ e, g.unfold id = some e) (fun id node found inputs => ?_) lt
  obtain ⟨name, op⟩ | ⟨value, op⟩ | computes := node.op.kinds
  · exact ⟨_, unfold_placeholder found op⟩
  · exact ⟨_, unfold_const found op⟩
  · obtain ⟨es, operands⟩ := exists_mapM inputs
    refine ⟨.op node.op es, ?_⟩
    rw [h.unfold_operation found computes, operands, Option.map_some]

/-- Nodes behind others change none of their expressions. -/
theorem Ordered.unfold_append (h : (Graph.mk (g.nodes ++ more) outputs).Ordered)
    (lt : id.index < g.size) : (Graph.mk (g.nodes ++ more) outputs).unfold id = g.unfold id := by
  refine h.of_append.induct
    (P := fun id => (Graph.mk (g.nodes ++ more) outputs).unfold id = g.unfold id)
    (fun id node found inputs => ?_) lt
  have later : (Graph.mk (g.nodes ++ more) outputs).node? id = some node := node?_append found
  obtain ⟨name, op⟩ | ⟨value, op⟩ | computes := node.op.kinds
  · rw [unfold_placeholder found op, unfold_placeholder later op]
  · rw [unfold_const found op, unfold_const later op]
  · rw [h.unfold_operation later computes, h.of_append.unfold_operation found computes]
    congr 1
    exact mapM_congr inputs

end Graph

end Regraft
