import Regraft.Graph.Eval
import Regraft.Proofs.Rebuild.Again

/-
  Constants to the bit. A constant of a graph becomes a term without the signs of its zeros, and the term
  becomes the first constant of the graph that it stands for. So a graph that is made to terms and back is
  the graph with every constant replaced by the first one that differs from it in signs of zeros only
  (`exists_literal_roundTrip`). Where no two constants differ so, the graph computes what it computed
  before; otherwise a constant that is used nowhere can change a result (`exists_roundTrip_signedZeros`).
-/

namespace Regraft

variable {src : Source} {last r r' : Rebuild} {t : TermId} {id i j : NodeId} {node n m : Node}
  {ts outputs : List TermId} {g h : Graph} {ses : Session} {keep : Constant → Constant}
  {R : NodeId → NodeId → Prop}

/-- Results of related arguments, all there and related by a function. -/
theorem exists_mapM_map {α β γ : Type*} {R : α → β → Prop} {f : α → Option γ} {k : β → Option γ}
    {φ : γ → γ} {xs : List α} {ys : List β} (related : List.Forall₂ R xs ys)
    (each : ∀ x ∈ xs, ∀ y ∈ ys, R x y → ∃ z, f x = some z ∧ k y = some (φ z)) :
    ∃ zs, xs.mapM f = some zs ∧ ys.mapM k = some (zs.map φ) := by
  have pairs := forall₂_imp_mem related each
  clear related each
  induction pairs with
  | nil => exact ⟨[], rfl, rfl⟩
  | cons first _ ih =>
    obtain ⟨z, left, right⟩ := first
    obtain ⟨zs, lefts, rights⟩ := ih
    refine ⟨z :: zs, ?_, ?_⟩
    · rw [List.mapM_cons, left, lefts]
      rfl
    · rw [List.mapM_cons, right, rights]
      rfl

/-! ## Literal expressions -/

/-- The constant of a node as it is. -/
def Node.constant? (node : Node) : Option Constant :=
  match node.op with
  | .const value => some ⟨node.type.1, value.shape, value.data⟩
  | _ => none

theorem Node.constant?_eq_some_iff {c : Constant} : node.constant? = some c ↔
    ∃ value, node.op = .const value ∧ ⟨node.type.1, value.shape, value.data⟩ = c := by
  unfold constant?
  split
  · rename_i value op
    rw [Option.some_inj]
    constructor
    · exact fun eq => ⟨value, op, eq⟩
    · rintro ⟨value', op', eq⟩
      cases op.symm.trans op'
      exact eq
  · rename_i other
    exact ⟨nofun, fun ⟨value, op, _⟩ => absurd op (other value)⟩

/-- A node stands for a constant when it has it, up to signs of zeros. -/
theorem Node.layer_eq_const_iff {terms : List TermId} {d : Constant} :
    node.layer terms = .leaf (.const d) ↔ ∃ c, node.constant? = some c ∧ c.canonicalized = d := by
  constructor
  · intro layer
    obtain ⟨value, op, rfl⟩ := layer_eq_const layer
    exact ⟨_, constant?_eq_some_iff.mpr ⟨value, op, rfl⟩, rfl⟩
  · rintro ⟨c, known, rfl⟩
    obtain ⟨value, op, rfl⟩ := constant?_eq_some_iff.mp known
    exact layer_const op

namespace Graph

/-- The expression of a node with its constants as they are, at most `depth` operations down. -/
def literalWithin (g : Graph) : Nat → NodeId → Option Expr
  | 0, _ => none
  | depth + 1, id => (g.node? id).bind fun node => match node.op with
    | .placeholder name => some (.input name)
    | .const value => some (.const ⟨node.type.1, value.shape, value.data⟩)
    | op => (node.inputs.mapM (g.literalWithin depth)).map (.op op)

/-- The expression of a node with its constants as they are. -/
def literal (g : Graph) (id : NodeId) : Option Expr := g.literalWithin (id.index + 1) id

theorem literalWithin_operation {k : Nat} (found : g.node? id = some node)
    (computes : node.op.isLeaf = false) :
    g.literalWithin (k + 1) id = (node.inputs.mapM (g.literalWithin k)).map (.op node.op) := by
  rw [literalWithin, found, Option.bind_some]
  split
  · rename_i eq
    rw [eq] at computes
    cases computes
  · rename_i eq
    rw [eq] at computes
    cases computes
  · rfl

/-- The constants of a graph, in order. -/
def constants (g : Graph) : List Constant := g.nodes.filterMap Node.constant?

/-- The first constant of a graph that a constant is, up to signs of zeros. -/
def firstConstant (g : Graph) (c : Constant) : Constant :=
  (g.constants.find? fun d => d.canonicalized = c.canonicalized).getD c

/-- No two constants differ in signs of zeros only. -/
def SignsAgree (g : Graph) : Prop :=
  ∀ c ∈ g.constants, ∀ d ∈ g.constants, c.canonicalized = d.canonicalized → c = d

instance (g : Graph) : Decidable g.SignsAgree :=
  inferInstanceAs (Decidable (∀ c ∈ g.constants, ∀ d ∈ g.constants, _ → _))

theorem SignsAgree.firstConstant (agree : g.SignsAgree) {c : Constant} (mem : c ∈ g.constants) :
    g.firstConstant c = c := by
  unfold Graph.firstConstant
  cases found : g.constants.find? fun d => d.canonicalized = c.canonicalized with
  | none => rfl
  | some d =>
    have same : d.canonicalized = c.canonicalized := of_decide_eq_true (List.find?_some found :)
    exact agree d (List.mem_of_find?_eq_some found) c mem same

end Graph

/-- Replace the constants of an expression. -/
def Expr.mapConst (keep : Constant → Constant) : Expr → Expr :=
  fold .input (fun c => .const (keep c)) .op

theorem Expr.mapConst_op (o : Op) (es : List Expr) :
    (Expr.op o es).mapConst keep = .op o (es.map (mapConst keep)) := fold_op ..

theorem Expr.mapConst_self (e : Expr) : e.mapConst (fun c => c) = e := by
  induction e with
  | input name => rfl
  | const c => rfl
  | op o es ih => rw [mapConst_op, List.map_congr_left ih, List.map_id']

/-! ## Graphs side by side -/

/-- A node is another one with its constant replaced and with related inputs. -/
inductive Node.Follows (keep : Constant → Constant) (R : NodeId → NodeId → Prop) : Node → Node → Prop
  | input (name : String) (type : ValueType) :
      Follows keep R ⟨.placeholder name, [], type⟩ ⟨.placeholder name, [], type⟩
  | const {v w : Tensor} {t : ElemType} (kept : keep ⟨t, v.shape, v.data⟩ = ⟨t, w.shape, w.data⟩) :
      Follows keep R ⟨.const v, [], (t, v.shape)⟩ ⟨.const w, [], (t, w.shape)⟩
  | op {op : Op} {ids ids' : List NodeId} {type : ValueType} (computes : op.isLeaf = false)
      (inputs : List.Forall₂ R ids ids') : Follows keep R ⟨op, ids, type⟩ ⟨op, ids', type⟩

/-- Related nodes are nodes, and the second is the first with its constant replaced. -/
def Graph.Follows (keep : Constant → Constant) (R : NodeId → NodeId → Prop) (g h : Graph) : Prop :=
  ∀ i j, R i j → ∃ n m, g.node? i = some n ∧ h.node? j = some m ∧ n.Follows keep R m

namespace Graph

/-- Related nodes have the same expression but for the constants. -/
theorem Follows.literal (follows : Follows keep R g h) (ordered : g.Ordered) (ordered' : h.Ordered)
    (rel : R i j) : ∃ e, g.literal i = some e ∧ h.literal j = some (e.mapConst keep) := by
  have within : ∀ k i j, R i j → i.index < k → ∀ l, j.index < l →
      ∃ e, g.literalWithin k i = some e ∧ h.literalWithin l j = some (e.mapConst keep) := by
    intro k
    induction k with
    | zero => intro i j _ lt; omega
    | succ k ih =>
      intro i j rel lt l lt'
      obtain ⟨l, rfl⟩ : ∃ p, l = p + 1 := ⟨l - 1, by omega⟩
      obtain ⟨n, m, found, found', follows⟩ := follows i j rel
      cases follows with
      | input name type =>
        rw [literalWithin, literalWithin, found, found', Option.bind_some, Option.bind_some]
        exact ⟨_, rfl, rfl⟩
      | const kept =>
        rw [literalWithin, literalWithin, found, found', Option.bind_some, Option.bind_some]
        exact ⟨_, rfl, congrArg (fun c => some (Expr.const c)) kept.symm⟩
      | @op op ids ids' type computes inputs =>
        rw [literalWithin_operation found computes, literalWithin_operation found' computes]
        obtain ⟨es, left, right⟩ := exists_mapM_map inputs fun i mem j mem' rel => by
          have before := ordered _ _ found i mem
          have before' := ordered' _ _ found' j mem'
          exact ih i j rel (by omega) l (by omega)
        rw [left, right]
        exact ⟨.op op es, rfl, congrArg some (Expr.mapConst_op ..).symm⟩
  exact within _ i j rel (Nat.lt_succ_self _) _ (Nat.lt_succ_self _)

/-! ## Results -/

variable {ar : Arithmetic} {feeds : Feeds} {values values' xs : List Tensor} {x : Tensor}

theorem operand_follows {ids ids' : List NodeId} {k : Nat}
    (inputs : List.Forall₂ (fun (i j : NodeId) => values'[j.index]? = values[i.index]?) ids ids')
    {op : Op} {type : ValueType} (ok : operand values ⟨op, ids, type⟩ k = .ok x) :
    operand values' ⟨op, ids', type⟩ k = .ok x := by
  unfold operand at ok ⊢
  dsimp only at ok ⊢
  split at ok
  · cases ok
  · rename_i i place
    obtain ⟨j, place', same⟩ := exists_getElem?_of_forall₂ inputs place
    rw [place']
    dsimp only
    rw [same]
    split at ok
    · cases ok
    · exact ok

/-- A node computes what a node computes that it is without changed constants. -/
theorem compute_follows (follows : n.Follows (fun c => c) R m)
    (related : ∀ i ∈ n.inputs, ∀ j ∈ m.inputs, R i j → values'[j.index]? = values[i.index]?)
    (ok : compute ar feeds values n = .ok x) : compute ar feeds values' m = .ok x := by
  cases follows with
  | input name type => exact ok
  | @const v w t kept =>
    obtain ⟨shape, data⟩ := v
    obtain ⟨shape', data'⟩ := w
    obtain ⟨-, rfl, rfl⟩ := Constant.mk.inj kept
    exact ok
  | @op op ids ids' type computes inputs =>
    have inputs := forall₂_imp_mem inputs related
    cases op with
    | placeholder name => cases computes
    | const value => cases computes
    | binary f =>
      obtain ⟨a, first, ok⟩ := bind_eq_ok ok
      obtain ⟨b, second, ok⟩ := bind_eq_ok ok
      unfold compute
      dsimp only
      rw [operand_follows inputs first, operand_follows inputs second]
      exact ok
    | unary f =>
      obtain ⟨a, first, ok⟩ := bind_eq_ok ok
      unfold compute
      dsimp only
      rw [operand_follows inputs first]
      exact ok
    | sum =>
      obtain ⟨a, first, ok⟩ := bind_eq_ok ok
      unfold compute
      dsimp only
      rw [operand_follows inputs first]
      exact ok

theorem evalNodes_append {nodes more : List Node} : evalNodes ar feeds values (nodes ++ more) =
    evalNodes ar feeds values nodes >>= fun values => evalNodes ar feeds values more := by
  induction nodes generalizing values with
  | nil => rfl
  | cons node rest ih =>
    rw [List.cons_append, evalNodes, evalNodes]
    cases compute ar feeds values node with
    | error e => rfl
    | ok x => exact ih

/-- Every node is computed from the values of the nodes before it. -/
theorem value_of_evalNodes {nodes : List Node} (ok : evalNodes ar feeds values nodes = .ok values') :
    (∃ more, values' = values ++ more) ∧ ∀ (k : Nat) node, nodes[k]? = some node →
      ∃ x, compute ar feeds (values'.take (values.length + k)) node = .ok x ∧
        values'[values.length + k]? = some (x.map (ar.round node.type.1)) := by
  induction nodes generalizing values with
  | nil =>
    cases ok
    exact ⟨⟨[], (List.append_nil _).symm⟩, nofun⟩
  | cons node rest ih =>
    obtain ⟨x, computed, ok⟩ := bind_eq_ok ok
    obtain ⟨⟨more, rfl⟩, later⟩ := ih ok
    rw [List.length_append, List.length_singleton] at later
    refine ⟨⟨_, List.append_assoc ..⟩, fun k other place => ?_⟩
    cases k with
    | zero =>
      cases place
      refine ⟨x, ?_, ?_⟩
      · rw [Nat.add_zero, List.append_assoc, List.take_left]
        exact computed
      · rw [Nat.add_zero, List.append_assoc]
        exact List.getElem?_append_right (Nat.le_refl _) |>.trans (by simp)
    | succ k =>
      have := later k other place
      rw [Nat.add_assoc, Nat.add_comm 1 k] at this
      exact this

/-- Nodes have the values of the nodes that they follow. -/
theorem Follows.evalNodes (follows : g.Follows (fun c => c) R h) (ordered : g.Ordered)
    (ordered' : h.Ordered) (total : ∀ j : NodeId, j.index < h.size → ∃ i, R i j)
    (ok : evalNodes ar feeds [] g.nodes = .ok values) :
    ∃ values', Graph.evalNodes ar feeds [] h.nodes = .ok values' ∧
      ∀ i j, R i j → values'[j.index]? = values[i.index]? := by
  suffices ∀ k ≤ h.size, ∃ values', Graph.evalNodes ar feeds [] (h.nodes.take k) = .ok values' ∧
      values'.length = k ∧ ∀ i j, R i j → j.index < k → values'[j.index]? = values[i.index]? by
    obtain ⟨values', evaluated, -, same⟩ := this h.size (Nat.le_refl _)
    rw [size, List.take_length] at evaluated
    refine ⟨values', evaluated, fun i j rel => same i j rel ?_⟩
    obtain ⟨n, m, -, found, -⟩ := follows i j rel
    exact index_lt_of_node? found
  intro k
  induction k with
  | zero => exact fun _ => ⟨[], rfl, rfl, fun _ _ _ lt => absurd lt (Nat.not_lt_zero _)⟩
  | succ k ih =>
    intro le
    obtain ⟨values', evaluated, length, same⟩ := ih (Nat.le_of_succ_le le)
    obtain ⟨m, found⟩ : ∃ m, h.node? ⟨k⟩ = some m := node?_of_index_lt le
    -- whatever node the next one follows, it computes what that node computes
    have computes : ∀ i, R i ⟨k⟩ → ∃ x, compute ar feeds values' m = .ok x ∧
        values[i.index]? = some (x.map (ar.round m.type.1)) := by
      intro i rel
      obtain ⟨n, m', here, found', node⟩ := follows i ⟨k⟩ rel
      cases found.symm.trans found'
      obtain ⟨x, computed, value⟩ := (value_of_evalNodes ok).2 i.index n here
      rw [List.length_nil, Nat.zero_add] at computed value
      refine ⟨x, compute_follows node (fun i' mem j mem' rel => ?_) computed, ?_⟩
      · have before := ordered i n here i' mem
        have before' := ordered' ⟨k⟩ m found j mem'
        rw [List.getElem?_take_of_lt before, same i' j rel before']
      · rw [value]
        cases node <;> rfl
    obtain ⟨i, rel⟩ := total ⟨k⟩ le
    obtain ⟨x, computed, -⟩ := computes i rel
    refine ⟨values' ++ [x.map (ar.round m.type.1)], ?_, ?_, fun i' j rel' lt => ?_⟩
    · have place : h.nodes[k]? = some m := found
      rw [List.take_add_one, place, Option.toList_some, evalNodes_append, evaluated]
      show Graph.evalNodes ar feeds values' [m] = _
      rw [Graph.evalNodes, computed]
      rfl
    · rw [List.length_append, length, List.length_singleton]
    · rcases Nat.lt_succ_iff_lt_or_eq.mp lt with lt | eq
      · rw [List.getElem?_append_left (length ▸ lt)]
        exact same i' j rel' lt
      · obtain rfl : j = ⟨k⟩ := congrArg NodeId.mk eq
        obtain ⟨x', computed', value⟩ := computes i' rel'
        cases computed.symm.trans computed'
        rw [value, ← length]
        exact List.getElem?_concat_length

/-- Outputs that follow outputs have their values. -/
theorem Follows.eval (follows : g.Follows (fun c => c) R h) (ordered : g.Ordered)
    (ordered' : h.Ordered) (total : ∀ j : NodeId, j.index < h.size → ∃ i, R i j)
    (outputs : List.Forall₂ (fun j i => R i j) h.outputs g.outputs) (evaluates : g.eval ar feeds = .ok xs) :
    h.eval ar feeds = .ok xs := by
  obtain ⟨values, evaluated, ok⟩ := bind_eq_ok evaluates
  obtain ⟨values', evaluated', same⟩ := follows.evalNodes ordered ordered' total evaluated
  unfold Graph.eval
  rw [evaluated']
  have ok := mapM_eq_ok_iff.mp ok
  refine mapM_eq_ok_iff.mpr ((forall₂_meet outputs ok.flip).imp fun j x => ?_)
  rintro ⟨i, -, rel, value⟩
  rw [same i j rel]
  split at value
  · cases value
  · exact value

end Graph

/-! ## Rebuilt constants -/

/-- The node of a constant in the graph is the one that it stands for in the base graph. -/
theorem Rebuild.Run.node?_const (run : Rebuild.Run src outputs r) (fits : src.Fits) {c : Constant}
    (found : r.memo.lookup t = some id) (term : src.store.term? t = some (.leaf (.const c))) :
    r.graph.node? id = some (src.constantNode t c) := by
  refine run.induct (P := fun r => ∀ t id c, r.memo.lookup t = some id →
    src.store.term? t = some (.leaf (.const c)) → r.graph.node? id = some (src.constantNode t c))
    fits ?_ ?_ t id c found term
  · intro t id c found term
    obtain ⟨⟨i, name, node⟩, mem, place, -⟩ := (Rebuild.started src).memo t id found
    rw [(fits.placeholder mem).2.2 place] at term
    cases term
  · intro r r' faithful ih step t id c found term
    have grown := step.grows
    cases step with
    | constant here new term' =>
      rcases lookup_cons_cases found with ⟨rfl, rfl⟩ | found
      · cases term.symm.trans term'
        exact List.getElem?_concat_length
      · exact grown.node? (ih t id c found term)
    | shared due known =>
      rcases lookup_cons_cases found with ⟨rfl, rfl⟩ | found
      · cases term.symm.trans due.term
      · exact grown.node? (ih t id c found term)
    | reused due unknown output origin =>
      rcases lookup_cons_cases found with ⟨rfl, rfl⟩ | found
      · cases term.symm.trans due.term
      · exact grown.node? (ih t id c found term)
    | created due unknown output origin named operands infer agree =>
      rcases lookup_cons_cases found with ⟨rfl, rfl⟩ | found
      · cases term.symm.trans due.term
      · exact grown.node? (ih t id c found term)
    | output => exact ih t id c found term

/-- What a constant stands for in the base graph is its first constant of this kind. -/
theorem Source.Fits.firstConstant (fits : src.Fits) {c : Constant}
    (term : src.store.term? t = some (.leaf (.const c.canonicalized)))
    (origin : src.origin? t = some node) : node.constant? = some (src.base.firstConstant c) := by
  obtain ⟨k, first, found⟩ := Option.bind_eq_some_iff.mp origin
  obtain ⟨lt, place, before⟩ := List.idxOf?_eq_some_iff.mp first
  have layer := (fits.origin_layer origin).term
  obtain ⟨d, known, same⟩ := Node.layer_eq_const_iff.mp (Option.some.inj (layer.symm.trans term))
  obtain ⟨lt', rfl⟩ := List.getElem?_eq_some_iff.mp found
  have find : src.base.constants.find? (fun d => d.canonicalized = c.canonicalized) = some d := by
    unfold Graph.constants
    rw [List.find?_filterMap, Option.bind_eq_some_iff]
    refine ⟨_, List.find?_eq_some_iff_getElem.mpr ⟨?_, k, lt', rfl, fun l less => ?_⟩, known⟩
    · rw [known]
      exact decide_eq_true same
    · have here : src.base.node? ⟨l⟩ = some src.base.nodes[l] := List.getElem?_eq_getElem _
      obtain ⟨u, place'⟩ := Graph.Mirrors.exists_term fits here
      have layer' := (Graph.Mirrors.layer fits here place').term
      rw [Bool.not_eq_true', Option.any_eq_false_iff_get]
      intro isConst
      refine decide_eq_false fun same' => ?_
      rw [Node.layer_eq_const_iff.mpr ⟨_, (Option.some_get isConst).symm, same'⟩] at layer'
      obtain rfl := Store.term?_inj term layer'
      obtain ⟨inside, here⟩ := List.getElem?_eq_some_iff.mp place'
      exact before l less here
  rw [known, Graph.firstConstant, find, Option.getD_some]

namespace Graph.Trip

/-- Nodes of the same terms. -/
def Same (src : Source) (ts : List TermId) (i j : NodeId) : Prop :=
  ∃ t, src.terms[i.index]? = some t ∧ ts[j.index]? = some t

/-- The nodes that are rebuilt are those of the base graph, with first constants. -/
theorem follows (trip : Trip src last ts) :
    src.base.Follows src.base.firstConstant (Same src ts) last.graph := by
  rintro i j ⟨t, place, place'⟩
  obtain ⟨n, found⟩ := Mirrors.exists_node trip.fits place
  obtain ⟨m, found'⟩ := trip.lists.mirrors.exists_node place'
  refine ⟨n, m, found, found', ?_⟩
  obtain ⟨e, unfolded⟩ := Mirrors.ordered trip.fits |>.exists_unfold (index_lt_of_node? found)
  have unfolded' := (trip.unfold_eq place' place).trans unfolded
  have types := (trip.base.type_of_unfold found unfolded).symm.trans
    (trip.typed.type_of_unfold found' unfolded')
  have right := (right_of_checked trip.base.checked found).1
  have right' := (right_of_checked trip.typed.checked found').1
  have layer := (Mirrors.layer trip.fits found place).term
  cases right with
  | placeholder name type =>
    rw [unfold_placeholder found rfl] at unfolded
    cases unfolded
    have op := (unfold_eq_input_iff trip.typed.ordered found').mp unfolded'
    cases types
    cases right' with
    | placeholder => cases op; exact .input name _
    | const => cases op
    | operation computes => cases op; cases computes
  | @const v s fills =>
    rw [Node.layer_const rfl] at layer
    obtain ⟨node, origin⟩ := Source.Fits.exists_origin trip.fits place
    have known := Source.Fits.firstConstant (c := ⟨s, v.shape, v.data⟩) trip.fits layer origin
    have made := trip.run.node?_const trip.fits ((trip.lists.memo t j).mpr place') layer
    rw [Source.constantNode, origin, Option.getD_some, found'] at made
    cases made
    obtain ⟨w, op, kept⟩ := Node.constant?_eq_some_iff.mp known
    obtain ⟨op', ids', type'⟩ := m
    cases right' with
    | placeholder => cases op
    | const =>
      cases op
      obtain ⟨rfl, -⟩ := Prod.mk.inj (Option.some.inj types)
      exact .const kept.symm
    | operation computes => cases op; cases computes
  | @operation op ids _ type computes operands infer =>
    rw [Node.layer_operation computes] at layer
    obtain ⟨-, -, -, inputs⟩ := Mirrors.operands trip.fits found place layer
    obtain ⟨computes', name, -, inputs'⟩ := trip.lists.mirrors.operands found' place' layer
    have same := Op.ofName?_name computes'
    rw [name, Op.ofName?_name computes] at same
    obtain ⟨op', ids', type'⟩ := m
    cases same
    cases types
    refine .op computes ((forall₂_meet inputs inputs').imp fun i j => ?_)
    rintro ⟨u, -, place, place'⟩
    exact ⟨u, place, place'⟩

/-- Every node of the graph that is rebuilt is the node of a term of the base graph. -/
theorem total (trip : Trip src last ts) (lt : j.index < last.graph.size) : ∃ i, Same src ts i j := by
  obtain ⟨m, found⟩ := node?_of_index_lt lt
  obtain ⟨t, place⟩ := trip.lists.mirrors.exists_term found
  obtain ⟨i, place'⟩ := trip.lists.own t (List.mem_of_getElem? place)
  exact ⟨i, t, place', place⟩

/-- The expressions of the outputs, with constants replaced. -/
theorem literal_outputs (trip : Trip src last ts)
    (follows : src.base.Follows keep (Same src ts) last.graph) : ∃ es,
      src.base.outputs.mapM src.base.literal = some es ∧
        last.graph.outputs.mapM last.graph.literal = some (es.map (Expr.mapConst keep)) := by
  refine exists_mapM_map trip.outputs_same.flip fun i _ j _ same => ?_
  obtain ⟨t, place, place'⟩ := same
  exact follows.literal (Mirrors.ordered trip.fits) trip.typed.ordered ⟨t, place', place⟩

/-- Where no constants differ in signs of zeros only, nothing is changed. -/
theorem exact (trip : Trip src last ts) (agree : src.base.SignsAgree) :
    src.base.Follows (fun c => c) (Same src ts) last.graph := by
  intro i j same
  obtain ⟨n, m, found, found', follows⟩ := trip.follows i j same
  refine ⟨n, m, found, found', ?_⟩
  cases follows with
  | input name type => exact .input name type
  | op computes inputs => exact .op computes inputs
  | const kept =>
    have mem : (⟨_, _, _⟩ : Constant) ∈ src.base.constants :=
      List.mem_filterMap.mpr ⟨_, List.mem_of_getElem? found, rfl⟩
    exact .const ((agree.firstConstant mem).symm.trans kept)

end Graph.Trip

namespace Graph

/-- A graph that was made to terms and back has the expressions of its outputs, but for constants, which
    become the first ones that differ from them in signs of zeros only. Where there are no others, the
    expressions are the same to the bit, and so is what they evaluate to. -/
theorem exists_literal_roundTrip (hv : ses.store.Valid) (valid : g.validate = .ok ())
    (distinct : (g.contract.inputs.map Prod.fst).Nodup) : ∃ b es, (g.roundTrip ses).1 = .ok b ∧
      g.outputs.mapM g.literal = some es ∧
      b.graph.outputs.mapM b.graph.literal = some (es.map (Expr.mapConst g.firstConstant)) ∧
      (g.SignsAgree → b.graph.outputs.mapM b.graph.literal = some es ∧
        ∀ ar feeds xs, g.eval ar feeds = .ok xs → b.graph.eval ar feeds = .ok xs) := by
  obtain ⟨src, last, ts, rfl, -, trip, eq⟩ := exists_trip hv valid distinct
  obtain ⟨es, literal, literal'⟩ := trip.literal_outputs trip.follows
  refine ⟨_, es, eq, literal, literal', fun agree => ⟨?_, fun ar feeds xs ok => ?_⟩⟩
  · obtain ⟨es', same, exact⟩ := trip.literal_outputs (trip.exact agree)
    cases literal.symm.trans same
    rw [exact, List.map_congr_left fun e _ => e.mapConst_self, List.map_id']
  · refine (trip.exact agree).eval (Mirrors.ordered trip.fits) trip.typed.ordered
      (fun j => trip.total) ?_ ok
    refine trip.outputs_same.imp fun j i => ?_
    rintro ⟨t, place, place'⟩
    exact ⟨t, place', place⟩

/-- The graph of `2 x` has one constant, and evaluates as before. -/
theorem exists_literal_roundTrip_doubled : ∃ b es, (doubled.roundTrip .bare).1 = .ok b ∧
    doubled.outputs.mapM doubled.literal = some es ∧
    b.graph.outputs.mapM b.graph.literal = some (es.map (Expr.mapConst doubled.firstConstant)) ∧
    b.graph.outputs.mapM b.graph.literal = some es ∧
    ∀ ar feeds xs, doubled.eval ar feeds = .ok xs → b.graph.eval ar feeds = .ok xs := by
  have hv : Session.bare.store.Valid := Store.valid_empty
  have valid : doubled.validate = .ok () := by decide +kernel
  obtain ⟨b, es, ok, literal, first, same⟩ := exists_literal_roundTrip hv valid (by decide +kernel)
  exact ⟨b, es, ok, literal, first, same (by decide +kernel)⟩

/-- The graph of `1 / -0`, behind a zero that nothing uses. -/
def signedZeros : Graph where
  nodes := [⟨.const (.scalar 0.0), [], (.f64, .scalar)⟩, ⟨.const (.scalar (-0.0)), [], (.f64, .scalar)⟩,
    ⟨.const (.scalar 1.0), [], (.f64, .scalar)⟩, ⟨.binary .div, [⟨2⟩, ⟨1⟩], (.f64, .scalar)⟩]
  outputs := [⟨3⟩]

/-- The graph of `1 / 0`. -/
def unsignedZero : Graph where
  nodes := [⟨.const (.scalar 1.0), [], (.f64, .scalar)⟩, ⟨.const (.scalar 0.0), [], (.f64, .scalar)⟩,
    ⟨.binary .div, [⟨0⟩, ⟨1⟩], (.f64, .scalar)⟩]
  outputs := [⟨2⟩]

/-- Made to terms and back, the graph of `1 / -0` is the graph of `1 / 0`. -/
theorem exists_roundTrip_signedZeros : signedZeros.validate = .ok () ∧
    (signedZeros.contract.inputs.map Prod.fst).Nodup ∧ ∃ b, (signedZeros.roundTrip .bare).1 = .ok b ∧
      b.graph.outputs.mapM b.graph.literal ≠ signedZeros.outputs.mapM signedZeros.literal ∧
      b.graph.eval .double [] ≠ signedZeros.eval .double [] := by
  refine ⟨by decide +kernel, by decide +kernel, ⟨unsignedZero, 1, 0⟩, by decide +kernel, fun same => ?_,
    by decide +kernel⟩
  have literal : unsignedZero.outputs.mapM unsignedZero.literal = some [.op (.binary .div)
      [.const ⟨.f64, .scalar, [1.0]⟩, .const ⟨.f64, .scalar, [0.0]⟩]] := rfl
  have literal' : signedZeros.outputs.mapM signedZeros.literal = some [.op (.binary .div)
      [.const ⟨.f64, .scalar, [1.0]⟩, .const ⟨.f64, .scalar, [-0.0]⟩]] := rfl
  have zeros := literal.symm.trans (same.trans literal')
  simp only [Option.some.injEq, List.cons.injEq, Expr.op.injEq, Expr.const.injEq,
    Constant.mk.injEq] at zeros
  have distinct : (0.0 : Float) ≠ -0.0 := by decide +kernel
  exact distinct zeros.1.2.2.1.2.2.1

end Graph

end Regraft
