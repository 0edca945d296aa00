import Regraft.Proofs.Rebuild.Again

/-
  What the nodes of a rebuilt graph are made for. Behind the placeholders every node is made for a term
  of its own, below the outputs: it is a constant, or an operation that is taken over from the base
  graph or new (`Source.Comes`). A run knows each of them by its term, and the operations by their tag
  and inputs as well (`Made`). So all of them are reached from the outputs, the two counts are those of
  the operations whose terms stand for nodes of the base graph and of the others (`account_ofTerm`), and
  two operations are alike only when they have different tags (`eq_or_tags_ofTerm`).
-/

namespace Regraft

variable {src : Source} {r r' : Rebuild} {t : TermId} {id : NodeId} {node : Node}
  {made outputs : List TermId}

/-- A node that is made for a term. -/
inductive Source.Comes (src : Source) : Node → TermId → Prop
  | constant {t : TermId} {c : Constant} (term : src.store.term? t = some (.leaf (.const c))) :
      src.Comes (src.constantNode t c) t
  | reused {t : TermId} {op : String} {args : List TermId} {attrs : Attrs} {node : Node}
      (ids : List NodeId) (term : src.store.term? t = some (.app op args attrs))
      (origin : src.origin? t = some node) : src.Comes { node with inputs := ids } t
  | created {t : TermId} {op : String} {args : List TermId} {attrs : Attrs} {o : Op}
      (ids : List NodeId) (type : ValueType) (term : src.store.term? t = some (.app op args attrs))
      (origin : src.origin? t = none) (named : Op.ofName? op = some o) : src.Comes ⟨o, ids, type⟩ t

namespace Source.Fits

theorem origin?_eq_none_iff (fits : src.Fits) : src.origin? t = none ↔ t ∉ src.terms := by
  constructor
  · intro none mem
    obtain ⟨k, lt, rfl⟩ := List.getElem_of_mem mem
    have place : src.terms[(NodeId.mk k).index]? = some src.terms[k] := List.getElem?_eq_getElem lt
    obtain ⟨node, origin⟩ := fits.exists_origin place
    rw [none] at origin
    cases origin
  · intro missing
    cases origin : src.origin? t with
    | none => rfl
    | some node =>
      obtain ⟨id, -, place⟩ := mem_of_origin? origin
      exact absurd (List.mem_of_getElem? place) missing

/-- Nodes of constants are constants, and those of applications compute. -/
theorem computes_of_comes (fits : src.Fits) (comes : src.Comes node t) :
    (!node.op.isLeaf) = (src.store.app? t).isSome := by
  cases comes with
  | constant term =>
    obtain ⟨value, made, -⟩ := fits.constantNode term
    rw [made, Store.app?, term]
    rfl
  | reused ids term origin =>
    obtain ⟨computes, -, -, -⟩ := Node.layer_eq_app
      (Option.some.inj (term.symm.trans (fits.origin_layer origin).term)).symm
    rw [Store.app?_eq_some_iff.mpr term]
    show (!Op.isLeaf _) = true
    rw [computes]
    rfl
  | created ids type term origin named =>
    rw [Store.app?_eq_some_iff.mpr term]
    show (!Op.isLeaf _) = true
    rw [Op.not_isLeaf_of_ofName? named]
    rfl

/-- What is made for a term of a node of the base graph has the operation and the type of a node that
    the term stands for. -/
theorem taken_of_comes (fits : src.Fits) (comes : src.Comes node t) (own : t ∈ src.terms) :
    ∃ (id : NodeId) (old : Node), src.base.node? id = some old ∧ src.terms[id.index]? = some t ∧
      node.op = old.op ∧ node.type = old.type := by
  cases origin : src.origin? t with
  | none => exact absurd own (fits.origin?_eq_none_iff.mp origin)
  | some old =>
    obtain ⟨id, here, place⟩ := mem_of_origin? origin
    refine ⟨id, old, here, place, ?_⟩
    cases comes with
    | constant term =>
      rw [Source.constantNode, origin]
      exact ⟨rfl, rfl⟩
    | reused ids term origin' =>
      cases origin.symm.trans origin'
      exact ⟨rfl, rfl⟩
    | created ids type term origin' named => cases origin.symm.trans origin'

end Source.Fits

namespace Rebuild

/-- The terms that the nodes behind the placeholders are made for, and how these nodes are known. -/
structure Made (src : Source) (outputs : List TermId) (r : Rebuild) (made : List TermId) : Prop where
  nodes : ∃ more, r.graph.nodes = (src.base.placeholders.map fun p => p.2.2) ++ more ∧
    List.Forall₂ src.Comes more made
  below : ∀ t ∈ made, src.store.Below outputs t
  memo : ∀ k t, made[k]? = some t → r.memo.lookup t = some ⟨src.base.placeholders.length + k⟩
  operations : ∀ k t op args attrs, made[k]? = some t → src.store.term? t = some (.app op args attrs) →
    ∃ ids, r.Found args ids ∧
      r.operations.lookup (op, ids) = some ⟨src.base.placeholders.length + k⟩
  reused : r.reused = made.countP fun t => (src.store.app? t).isSome && decide (t ∈ src.terms)
  created : r.created = made.countP fun t => (src.store.app? t).isSome && decide (t ∉ src.terms)

namespace Made

theorem started (src : Source) : Made src outputs (empty.addPlaceholders src) [] where
  nodes := ⟨[], by rw [(Rebuild.started src).nodes, List.append_nil], .nil⟩
  below := nofun
  memo := nofun
  operations := nofun
  reused := (addPlaceholders_counts src).1
  created := (addPlaceholders_counts src).2

theorem size (h : Made src outputs r made) :
    r.graph.size = src.base.placeholders.length + made.length := by
  obtain ⟨more, nodes, comes⟩ := h.nodes
  rw [Graph.size, nodes, List.length_append, List.length_map, comes.length_eq]

/-- No term has two nodes. -/
theorem distinct (h : Made src outputs r made) : made.Nodup := by
  rw [List.nodup_iff_getElem?_ne_getElem?]
  intro i j lt here same
  have later := List.getElem?_eq_getElem here
  have known := h.memo i _ (same.trans later)
  rw [h.memo j _ later] at known
  have eq : src.base.placeholders.length + j = src.base.placeholders.length + i :=
    congrArg NodeId.index (Option.some.inj known)
  omega

/-- Whatever a node is known by stays. -/
theorem grow (h : Made src outputs r made) (g : r.Grows r')
    (nodes : r'.graph.nodes = r.graph.nodes) (reused : r'.reused = r.reused)
    (created : r'.created = r.created) : Made src outputs r' made where
  nodes := nodes ▸ h.nodes
  below := h.below
  memo k t here := g.memo _ _ (h.memo k t here)
  operations k t op args attrs here term := by
    obtain ⟨ids, found, known⟩ := h.operations k t op args attrs here term
    exact ⟨ids, g.found found, g.operations _ _ known⟩
  reused := reused.trans h.reused
  created := created.trans h.created

/-- A node that is appended for a term. -/
theorem push (h : Made src outputs r made) (g : r.Grows r') (comes : src.Comes node t)
    (nodes : r'.graph.nodes = r.graph.nodes ++ [node]) (here : src.store.Below outputs t)
    (memo : r'.memo.lookup t = some ⟨r.graph.size⟩)
    (operations : ∀ op args attrs, src.store.term? t = some (.app op args attrs) →
      ∃ ids, r.Found args ids ∧ r'.operations.lookup (op, ids) = some ⟨r.graph.size⟩)
    (reused : r'.reused = r.reused +
      [t].countP fun t => (src.store.app? t).isSome && decide (t ∈ src.terms))
    (created : r'.created = r.created +
      [t].countP fun t => (src.store.app? t).isSome && decide (t ∉ src.terms)) :
    Made src outputs r' (made ++ [t]) := by
  have cases_last : ∀ {k u}, (made ++ [t])[k]? = some u →
      made[k]? = some u ∨ k = made.length ∧ u = t := by
    intro k u place
    rcases Nat.lt_trichotomy k made.length with lt | rfl | gt
    · rw [List.getElem?_append_left lt] at place
      exact .inl place
    · rw [List.getElem?_concat_length] at place
      exact .inr ⟨rfl, (Option.some.inj place).symm⟩
    · rw [List.getElem?_eq_none (by rw [List.length_append]; exact gt)] at place
      cases place
  refine ⟨?_, fun u mem => ?_, fun k u place => ?_, fun k u op args attrs place term => ?_, ?_, ?_⟩
  · obtain ⟨more, eq, all⟩ := h.nodes
    refine ⟨more ++ [node], ?_, List.rel_append all (.cons comes .nil)⟩
    rw [nodes, eq, List.append_assoc]
  · rcases List.mem_append.mp mem with mem | mem
    · exact h.below u mem
    · rw [List.mem_singleton.mp mem]
      exact here
  · rcases cases_last place with before | ⟨rfl, rfl⟩
    · exact g.memo _ _ (h.memo k u before)
    · rw [memo, h.size]
  · rcases cases_last place with before | ⟨rfl, rfl⟩
    · obtain ⟨ids, found, known⟩ := h.operations k u op args attrs before term
      exact ⟨ids, g.found found, g.operations _ _ known⟩
    · obtain ⟨ids, found, known⟩ := operations op args attrs term
      exact ⟨ids, g.found found, h.size ▸ known⟩
  · rw [reused, h.reused, List.countP_append]
  · rw [created, h.created, List.countP_append]

theorem put (h : Made src outputs r made) {op : String} {args : List TermId} {attrs : Attrs}
    {ids : List NodeId} (due : Due src (src.store.Below outputs) r t op args attrs ids)
    (comes : src.Comes node t) (inputs : node.inputs = ids)
    (unknown : r.operations.lookup (op, ids) = none) {reused created : Nat}
    (isReused : reused = r.reused + if t ∈ src.terms then 1 else 0)
    (isCreated : created = r.created + if t ∈ src.terms then 0 else 1) :
    Made src outputs { r.put t op node with reused, created } (made ++ [t]) := by
  have isApp : (src.store.app? t).isSome = true := by
    rw [Store.app?_eq_some_iff.mpr due.term]
    rfl
  refine h.push ((put_grows node due.new (inputs ▸ unknown)).counts ..) comes rfl due.here
    List.lookup_cons_self (fun op' args' attrs' term => ?_) ?_ ?_
  · cases due.term.symm.trans term
    refine ⟨ids, due.operands, ?_⟩
    rw [← inputs]
    exact List.lookup_cons_self
  · by_cases own : t ∈ src.terms <;> simp [isReused, isApp, own]
  · by_cases own : t ∈ src.terms <;> simp [isCreated, isApp, own]

theorem step (fits : src.Fits) (h : Made src outputs r made)
    (step : Step src (src.store.Below outputs) r r') : ∃ made', Made src outputs r' made' := by
  have g := step.grows
  cases step with
  | @constant t c here new term =>
    have plain : src.store.app? t = none := by rw [Store.app?, term]
    refine ⟨_, h.push g (.constant term) rfl here List.lookup_cons_self ?_ ?_ ?_⟩
    · intro op args attrs app
      cases term.symm.trans app
    · simp [plain, remember, Rebuild.push]
    · simp [plain, remember, Rebuild.push]
  | shared due known => exact ⟨made, h.grow g rfl rfl rfl⟩
  | reused due unknown _ origin =>
    obtain ⟨id, -, place⟩ := Source.mem_of_origin? origin
    have own := List.mem_of_getElem? place
    exact ⟨_, h.put due (.reused _ due.term origin) rfl unknown (by rw [if_pos own])
      (by rw [if_pos own]; rfl)⟩
  | created due unknown _ origin named _ _ _ =>
    have new := fits.origin?_eq_none_iff.mp origin
    exact ⟨_, h.put due (.created _ _ due.term origin named) rfl unknown (by rw [if_neg new]; rfl)
      (by rw [if_neg new])⟩
  | output => exact ⟨made, h.grow g rfl rfl rfl⟩

/-- Behind the placeholders, nodes are made for terms. -/
theorem exists_comes (h : Made src outputs r made) (here : r.graph.node? id = some node)
    (behind : src.base.placeholders.length ≤ id.index) :
    ∃ t, made[id.index - src.base.placeholders.length]? = some t ∧ src.Comes node t := by
  obtain ⟨more, nodes, comes⟩ := h.nodes
  unfold Graph.node? at here
  rw [nodes, List.getElem?_append_right (by rwa [List.length_map]), List.length_map] at here
  exact exists_getElem?_of_forall₂ comes here

/-- Operations are behind the placeholders. -/
theorem placeholders_le (fits : src.Fits) (h : Made src outputs r made)
    (here : r.graph.node? id = some node) (computes : node.op.isLeaf = false) :
    src.base.placeholders.length ≤ id.index := by
  by_contra before
  obtain ⟨more, nodes, -⟩ := h.nodes
  unfold Graph.node? at here
  rw [nodes, List.getElem?_append_left (by rw [List.length_map]; omega)] at here
  obtain ⟨⟨id', name, node⟩, isPlaceholder, rfl⟩ := List.mem_map.mp (List.mem_of_getElem? here)
  dsimp only at computes
  rw [(fits.placeholder isPlaceholder).1] at computes
  cases computes

theorem memo_of_index (h : Made src outputs r made)
    (behind : src.base.placeholders.length ≤ id.index)
    (place : made[id.index - src.base.placeholders.length]? = some t) :
    r.memo.lookup t = some id := by
  have known := h.memo _ t place
  rwa [Nat.add_sub_cancel' behind] at known

/-- The operations behind the placeholders, counted. -/
theorem count_operations (fits : src.Fits) (h : Made src outputs r made) :
    r.reused + r.created = r.graph.nodes.countP fun node => !node.op.isLeaf := by
  obtain ⟨more, nodes, comes⟩ := h.nodes
  have leaves : (src.base.placeholders.map fun p => p.2.2).countP (fun node => !node.op.isLeaf) = 0 := by
    rw [List.countP_eq_zero]
    intro node mem
    obtain ⟨⟨id, name, node⟩, isPlaceholder, rfl⟩ := List.mem_map.mp mem
    dsimp only
    rw [(fits.placeholder isPlaceholder).1]
    simp [Op.isLeaf, Op.arity]
  have apps : more.countP (fun node => !node.op.isLeaf) =
      made.countP fun t => (src.store.app? t).isSome := by
    clear nodes h
    induction comes with
    | nil => rfl
    | cons first _ ih => rw [List.countP_cons, List.countP_cons, ih, fits.computes_of_comes first]
  have split := List.countP_eq_countP_filter_add made (fun t => (src.store.app? t).isSome)
    fun t => decide (t ∈ src.terms)
  rw [List.countP_filter, List.countP_filter] at split
  rw [nodes, List.countP_append, leaves, Nat.zero_add, apps, split, h.reused, h.created]
  simp only [decide_not]

end Made

theorem Run.exists_made (run : Run src outputs r) (fits : src.Fits) : ∃ made, Made src outputs r made :=
  run.induct (P := fun r => ∃ made, Made src outputs r made) fits ⟨[], .started src⟩
    fun _ ⟨_, h⟩ next => h.step fits next

/-- The nodes of the terms below the outputs are reached. -/
theorem Run.reachable_of_below (run : Run src outputs r) (fits : src.Fits)
    (below : src.store.Below outputs t) (known : r.memo.lookup t = some id) : r.graph.Reachable id := by
  have faithful := run.faithful fits
  induction below generalizing id with
  | output mem =>
    obtain ⟨out, isOutput, found⟩ := exists_of_forall₂_right run.found.flip mem
    cases known.symm.trans found
    exact .output isOutput
  | @operand t u op args attrs term below mem ih =>
    obtain ⟨user, found⟩ := faithful.exists_of_below run.found below
    obtain ⟨x, node, term', here, stands⟩ := faithful.memo t user found
    cases term.symm.trans term'
    cases stands with
    | app _ operands =>
      obtain ⟨input, isInput, found'⟩ := exists_of_forall₂_right operands.flip mem
      cases known.symm.trans found'
      exact .input (ih found) here isInput

end Rebuild

namespace Graph

variable {root : TermId} {base : Graph} {ses : Session} {b : Rebuilt}

/-! ## An account of the nodes -/

/-- An account of a rebuilt graph: the placeholders of the base graph, and a node for each of some
    different terms below the root. `own` are the terms of the nodes of the base graph. -/
structure Account (st : Store) (base : Graph) (own : List TermId) (root : Tree) (b : Rebuilt)
    (made : List TermId) : Prop where
  nodes : ∃ more, b.graph.nodes = (base.placeholders.map fun p => p.2.2) ++ more ∧
    more.length = made.length
  distinct : made.Nodup
  below : ∀ t ∈ made, (st.tree t).Sub root
  /-- The nodes compute what they are made for. -/
  unfold : ∀ k t, made[k]? = some t →
    b.graph.unfold ⟨base.placeholders.length + k⟩ = (st.tree t).expr
  /-- The node of a term that a node of the base graph stands for is such a node. -/
  taken : ∀ k t node, made[k]? = some t → t ∈ own →
    b.graph.node? ⟨base.placeholders.length + k⟩ = some node → ∃ (id : NodeId) (old : Node),
      base.node? id = some old ∧ own[id.index]? = some t ∧ node.op = old.op ∧ node.type = old.type
  reachable : ∀ id : NodeId, base.placeholders.length ≤ id.index → id.index < b.graph.size →
    b.graph.Reachable id
  reused : b.reused = made.countP fun t => (st.app? t).isSome && decide (t ∈ own)
  created : b.created = made.countP fun t => (st.app? t).isSome && decide (t ∉ own)
  operations : b.reused + b.created = b.graph.nodes.countP fun node => !node.op.isLeaf

/-- Behind the placeholders of the base graph a rebuilt graph has one node for each of some terms below
    the root, all of them reached from the outputs, and the counts are those of its operations. -/
theorem account_ofTerm (hv : ses.store.Valid) (valid : base.validate = .ok ())
    (ok : (ofTerm root base ses).1 = .ok b) : ∃ made, Account (base.toTerms ses).2.store base
      (base.toTerms ses).1.nodes (ses.store.tree root) b made := by
  obtain ⟨src, outputs, attrs, r, here, fits, run, rfl, tree⟩ := run_of_ofTerm hv valid ok
  obtain ⟨made, h⟩ := run.exists_made fits
  have faithful := run.faithful fits
  rw [tree]
  suffices account : Account src.store src.base src.terms
      (.app outputsTag (outputs.map src.store.tree) attrs) ⟨r.graph, r.reused, r.created⟩ made by
    subst here
    exact ⟨made, account⟩
  refine ⟨?_, h.distinct, fun t mem => ?_, fun k t place => ?_, fun k t node place own found => ?_,
    fun id behind lt => ?_, h.reused, h.created, h.count_operations fits⟩
  · obtain ⟨more, nodes, comes⟩ := h.nodes
    exact ⟨more, nodes, comes.length_eq⟩
  · obtain ⟨o, out, sub⟩ := (h.below t mem).exists_sub fits.valid
    exact .operand (List.mem_map_of_mem out) sub
  · exact faithful.unfold_eq fits.valid (h.memo k t place)
  · obtain ⟨u, place', comes⟩ := h.exists_comes found (Nat.le_add_right _ _)
    rw [Nat.add_sub_cancel_left, place] at place'
    cases place'
    exact fits.taken_of_comes comes own
  · obtain ⟨node, found⟩ := node?_of_index_lt lt
    obtain ⟨t, place, -⟩ := h.exists_comes found behind
    exact run.reachable_of_below fits (h.below t (List.mem_of_getElem? place))
      (h.memo_of_index behind place)

/-- The graph of `-x - exp (-x)`. -/
def sharedNegation : Graph where
  nodes := [⟨.placeholder "x", [], (.f64, .scalar)⟩, ⟨.unary .neg, [⟨0⟩], (.f64, .scalar)⟩,
    ⟨.unary .exp, [⟨1⟩], (.f64, .scalar)⟩, ⟨.binary .sub, [⟨1⟩, ⟨2⟩], (.f64, .scalar)⟩]
  outputs := [⟨3⟩]

/-- A session with a bundle of `x - exp (-x)`, last; the operand behind the minus is that of
    `sharedNegation`. -/
def partlyRewritten : Session := .holding .none [.leaf (.input "x"),
  .app "neg" [⟨0⟩] (.ofType (.f64, .scalar)), .app "exp" [⟨1⟩] (.ofType (.f64, .scalar)),
  .app "sub" [⟨0⟩, ⟨2⟩] .unspecified, .app outputsTag [⟨3⟩] .unspecified]

/-- The negation that both operands of the minus shared is still there, for the one that is left. -/
theorem exists_account_partlyRewritten : ∃ b made,
    (ofTerm ⟨4⟩ sharedNegation partlyRewritten).1 = .ok b ∧ b.reused = 2 ∧ b.created = 1 ∧
      Account (sharedNegation.toTerms partlyRewritten).2.store sharedNegation
        (sharedNegation.toTerms partlyRewritten).1.nodes (partlyRewritten.store.tree ⟨4⟩) b made := by
  obtain ⟨b, ok, reused, created⟩ : ∃ b, (ofTerm ⟨4⟩ sharedNegation partlyRewritten).1 = .ok b ∧
      b.reused = 2 ∧ b.created = 1 := by
    refine ⟨⟨⟨[⟨.placeholder "x", [], (.f64, .scalar)⟩, ⟨.unary .neg, [⟨0⟩], (.f64, .scalar)⟩,
      ⟨.unary .exp, [⟨1⟩], (.f64, .scalar)⟩, ⟨.binary .sub, [⟨0⟩, ⟨2⟩], (.f64, .scalar)⟩], [⟨3⟩]⟩,
      2, 1⟩, ?_, rfl, rfl⟩
    decide
  obtain ⟨made, account⟩ := account_ofTerm (by decide) (by decide) ok
  exact ⟨b, made, ok, reused, created, account⟩

/-! ## Operations that are alike -/

/-- Two operations of a rebuilt graph with the same operator and the same inputs are one node, or they
    are made for applications below the root whose tags are two names of the operator. -/
theorem eq_or_tags_ofTerm (hv : ses.store.Valid) (valid : base.validate = .ok ())
    (ok : (ofTerm root base ses).1 = .ok b) {i j : NodeId} {n m : Node}
    (atI : b.graph.node? i = some n) (atJ : b.graph.node? j = some m)
    (computes : n.op.isLeaf = false) (op : n.op = m.op) (inputs : n.inputs = m.inputs) :
    i = j ∨ ∃ tag tag' us vs attrs attrs', tag ≠ tag' ∧ Op.ofName? tag = some n.op ∧
      Op.ofName? tag' = some n.op ∧ (Tree.app tag us attrs).Sub (ses.store.tree root) ∧
      (Tree.app tag' vs attrs').Sub (ses.store.tree root) ∧
      b.graph.unfold i = (Tree.app tag us attrs).expr ∧
      b.graph.unfold j = (Tree.app tag' vs attrs').expr := by
  obtain ⟨src, outputs, rootAttrs, r, -, fits, run, rfl, tree⟩ := run_of_ofTerm hv valid ok
  obtain ⟨made, h⟩ := run.exists_made fits
  have faithful := run.faithful fits
  -- an operation is found by the tag of its term and by its inputs
  have known : ∀ {id node}, r.graph.node? id = some node → node.op.isLeaf = false →
      ∃ t tag args attrs, src.store.Below outputs t ∧ src.store.term? t = some (.app tag args attrs) ∧
        r.memo.lookup t = some id ∧ Op.ofName? tag = some node.op ∧
        r.operations.lookup (tag, node.inputs) = some id := by
    intro id node found computes
    have behind := h.placeholders_le fits found computes
    obtain ⟨t, place, comes⟩ := h.exists_comes found behind
    have isApp := fits.computes_of_comes comes
    rw [computes] at isApp
    obtain ⟨⟨tag, args, attrs⟩, app⟩ := Option.isSome_iff_exists.mp isApp.symm
    have term := Store.app?_eq_some_iff.mp app
    obtain ⟨ids, -, lookup⟩ := h.operations _ t tag args attrs place term
    rw [Nat.add_sub_cancel' behind] at lookup
    obtain ⟨node', found', named, rfl⟩ := faithful.operations tag ids id lookup
    cases found.symm.trans found'
    exact ⟨t, tag, args, attrs, h.below t (List.mem_of_getElem? place), term,
      h.memo_of_index behind place, named, lookup⟩
  obtain ⟨t, tag, args, attrs, below, term, memo, named, lookup⟩ := known atI computes
  obtain ⟨u, tag', args', attrs', below', term', memo', named', lookup'⟩ :=
    known atJ (op ▸ computes)
  by_cases same : tag = tag'
  · subst same
    rw [inputs, lookup'] at lookup
    exact .inl (Option.some.inj lookup).symm
  · have sub : ∀ {t}, src.store.Below outputs t → (src.store.tree t).Sub (ses.store.tree root) := by
      intro t below
      obtain ⟨o, out, sub⟩ := below.exists_sub fits.valid
      rw [tree]
      exact .operand (List.mem_map_of_mem out) sub
    refine .inr ⟨tag, tag', args.map src.store.tree, args'.map src.store.tree, attrs, attrs', same,
      named, op ▸ named', ?_⟩
    rw [← fits.valid.tree_app term, ← fits.valid.tree_app term']
    exact ⟨sub below, sub below', faithful.unfold_eq fits.valid memo,
      faithful.unfold_eq fits.valid memo'⟩

/-- A session with a bundle of the negation of `x` under its two names, last. -/
def secondName : Session := .holding .none [.leaf (.input "x"), .app "neg" [⟨0⟩] .unspecified,
  .app "negative" [⟨0⟩] .unspecified, .app outputsTag [⟨1⟩, ⟨2⟩] .unspecified]

/-- The negation is made twice. -/
theorem ofTerm_secondName : (ofTerm ⟨3⟩ negations secondName).1 = .ok
    ⟨⟨[⟨.placeholder "x", [], (.f64, .scalar)⟩, ⟨.unary .neg, [⟨0⟩], (.f64, .scalar)⟩,
      ⟨.unary .neg, [⟨0⟩], (.f64, .scalar)⟩], [⟨1⟩, ⟨2⟩]⟩, 0, 2⟩ := by
  decide

theorem exists_tags_secondName : ∃ b n m, (ofTerm ⟨3⟩ negations secondName).1 = .ok b ∧
    b.graph.node? ⟨1⟩ = some n ∧ b.graph.node? ⟨2⟩ = some m ∧ n.op = m.op ∧ n.inputs = m.inputs ∧
    ((NodeId.mk 1) = ⟨2⟩ ∨ ∃ tag tag' us vs attrs attrs', tag ≠ tag' ∧ Op.ofName? tag = some n.op ∧
      Op.ofName? tag' = some n.op ∧ (Tree.app tag us attrs).Sub (secondName.store.tree ⟨3⟩) ∧
      (Tree.app tag' vs attrs').Sub (secondName.store.tree ⟨3⟩) ∧
      b.graph.unfold ⟨1⟩ = (Tree.app tag us attrs).expr ∧
      b.graph.unfold ⟨2⟩ = (Tree.app tag' vs attrs').expr) :=
  ⟨_, _, _, ofTerm_secondName, rfl, rfl, rfl, rfl,
    eq_or_tags_ofTerm (by decide) (by decide) ofTerm_secondName rfl rfl rfl rfl rfl⟩

/-- Tags that name one operation are told apart, so that it is made twice. -/
theorem exists_duplicates_secondName : negations.validate = .ok () ∧ ∃ b i j n m,
    (ofTerm ⟨3⟩ negations secondName).1 = .ok b ∧ b.graph.node? i = some n ∧
      b.graph.node? j = some m ∧ n.op.isLeaf = false ∧ n.op = m.op ∧ n.inputs = m.inputs ∧ i ≠ j :=
  ⟨by decide, _, ⟨1⟩, ⟨2⟩, _, _, ofTerm_secondName, rfl, rfl, rfl, rfl, rfl, by decide⟩

end Graph

end Regraft
