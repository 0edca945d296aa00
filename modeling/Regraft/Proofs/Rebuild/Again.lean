import Regraft.Proofs.Rebuild.Own

/-
  To terms and back. The terms of a checked graph whose placeholders have different names are rebuilt to a
  graph of the same interface, in which every operation is taken over, once for each term
  (`roundTrip_spec`). The graph that is rebuilt has its nodes in the order in which they are visited, so
  it is what it is rebuilt to itself: two runs on terms that mirror one graph go side by side (`Twins`),
  whatever stores the terms are in.
-/

namespace Regraft

variable {src src' : Source} {inputs : String → Option ValueType} {last r r' s : Rebuild}
  {t u : TermId} {id i j : NodeId} {node : Node} {terms ts ts' outputs : List TermId} {op : String}
  {args args' : List TermId} {attrs : Attrs} {ids : List NodeId} {g : Graph} {st st' : Store} {ses : Session}

/-! ## Two runs -/

/-- Two terms at one place. -/
def Paired (ts ts' : List TermId) (t u : TermId) : Prop :=
  ∃ i : NodeId, ts[i.index]? = some t ∧ ts'[i.index]? = some u

theorem Paired.eq_iff (distinct : ts.Nodup) (distinct' : ts'.Nodup) {t t' u u' : TermId}
    (h : Paired ts ts' t u) (h' : Paired ts ts' t' u') : t = t' ↔ u = u' := by
  obtain ⟨i, left, right⟩ := h
  obtain ⟨j, left', right'⟩ := h'
  have lt := (List.getElem?_eq_some_iff.mp left).1
  have lt' := (List.getElem?_eq_some_iff.mp right).1
  constructor
  · rintro rfl
    have same := (List.getElem?_inj lt distinct).mp (left.trans left'.symm)
    rw [same, right'] at right
    exact (Option.some.inj right).symm
  · rintro rfl
    have same := (List.getElem?_inj lt' distinct').mp (right.trans right'.symm)
    rw [same, left'] at left
    exact (Option.some.inj left).symm

namespace Rebuild

/-- Graphs on their way that know the same nodes by terms at the same places. -/
structure Beside (ts ts' : List TermId) (r s : Rebuild) : Prop where
  graph : s.graph = r.graph
  memo : ∀ t u, Paired ts ts' t u → s.memo.lookup u = r.memo.lookup t
  operations : s.operations = r.operations

/-- A run that has ended, and a source to rebuild its graph from. -/
structure Twins (src src' : Source) (outputs : List TermId) (last : Rebuild) (ts : List TermId) :
    Prop where
  lists : Lists src outputs last ts
  fits : src'.Fits
  base : src'.base = last.graph
  distinct : src'.terms.Nodup

theorem Beside.remember (b : Beside ts ts' r s) (distinct : ts.Nodup) (distinct' : ts'.Nodup)
    (pair : Paired ts ts' t u) (id : NodeId) : Beside ts ts' (r.remember t id) (s.remember u id) where
  graph := b.graph
  memo t' u' pair' := by
    unfold Rebuild.remember
    by_cases same : t' = t
    · rw [same, (pair'.eq_iff distinct distinct' pair).mp same, List.lookup_cons_self,
        List.lookup_cons_self]
    · have differs : u' ≠ u := fun eq => same ((pair'.eq_iff distinct distinct' pair).mpr eq)
      rw [lookup_cons_of_ne _ _ same, lookup_cons_of_ne _ _ differs, b.memo t' u' pair']
  operations := b.operations

theorem addOperation_known (known : r.operations.lookup (op, ids) = some id) :
    r.addOperation src t op ids attrs = .ok (id, r) := by
  unfold addOperation
  rw [known]

/-- An operation that is taken over. -/
theorem addOperation_origin (unknown : r.operations.lookup (op, ids) = none)
    (output : checkOutput op attrs = .ok ()) (origin : src.origin? t = some node) :
    r.addOperation src t op ids attrs = .ok (⟨r.graph.size⟩, { r with
      graph := (r.graph.push { node with inputs := ids }).1
      operations := ((op, ids), ⟨r.graph.size⟩) :: r.operations
      reused := r.reused + 1 }) := by
  unfold addOperation
  rw [unknown, output, origin]
  rfl

theorem checkOutput_of_addOperation (unknown : r.operations.lookup (op, ids) = none)
    (ok : r.addOperation src t op ids attrs = .ok (id, r')) : checkOutput op attrs = .ok () := by
  unfold addOperation at ok
  rw [unknown] at ok
  obtain ⟨⟨⟩, output, -⟩ := bind_eq_ok ok
  exact output

theorem visitOperands_grows {visit : TermId → Rebuild → Except RebuildError (NodeId × Rebuild)}
    (grows : ∀ t ∈ args, ∀ r id r', visit t r = .ok (id, r') → r.Grows r')
    (ok : visitOperands visit args r = .ok (ids, r')) : r.Grows r' := by
  induction args generalizing r ids with
  | nil =>
    cases ok
    exact .refl _
  | cons t rest ih =>
    rw [List.forall_mem_cons] at grows
    obtain ⟨⟨id, r₁⟩, first, ok⟩ := bind_eq_ok ok
    obtain ⟨⟨ids', r₂⟩, behind, ok⟩ := bind_eq_ok ok
    cases ok
    exact (grows.1 r id r₁ first).trans (ih grows.2 behind)

/-- Operands are visited side by side where each of them is. -/
theorem visitOperands_beside {visit visit' : TermId → Rebuild → Except RebuildError (NodeId × Rebuild)}
    (pairs : List.Forall₂ (Paired ts ts') args args')
    (grows : ∀ t ∈ args, ∀ r id r', visit t r = .ok (id, r') → r.Grows r')
    (each : ∀ t ∈ args, ∀ u ∈ args', Paired ts ts' t u → ∀ r s id r', Beside ts ts' r s →
      visit t r = .ok (id, r') → r'.Grows last →
      ∃ s', visit' u s = .ok (id, s') ∧ Beside ts ts' r' s')
    (b : Beside ts ts' r s) (ok : visitOperands visit args r = .ok (ids, r')) (grown : r'.Grows last) :
    ∃ s', visitOperands visit' args' s = .ok (ids, s') ∧ Beside ts ts' r' s' := by
  induction pairs generalizing r s ids with
  | nil =>
    cases ok
    exact ⟨s, rfl, b⟩
  | @cons t u rest rest' pair _ ih =>
    rw [List.forall_mem_cons] at grows
    obtain ⟨⟨id, r₁⟩, first, ok⟩ := bind_eq_ok ok
    obtain ⟨⟨ids', r₂⟩, behind, ok⟩ := bind_eq_ok ok
    cases ok
    have grown₁ := (visitOperands_grows grows.2 behind).trans grown
    obtain ⟨s₁, first', b₁⟩ := each t (.head _) u (.head _) pair r s id r₁ b first grown₁
    obtain ⟨s₂, behind', b₂⟩ := ih grows.2
      (fun t mem u mem' => each t (.tail _ mem) u (.tail _ mem')) b₁ behind
    refine ⟨s₂, ?_, b₂⟩
    rw [visitOperands, first']
    show (visitOperands visit' rest' s₁ >>= fun x => _) = _
    rw [behind']
    rfl

namespace Twins

theorem remember (tw : Twins src src' outputs last ts) (b : Beside ts src'.terms r s)
    (pair : Paired ts src'.terms t u) (id : NodeId) :
    Beside ts src'.terms (r.remember t id) (s.remember u id) :=
  b.remember tw.lists.distinct tw.distinct pair id

/-- The node of a term at the end is the one that its twin stands for. -/
theorem origin (tw : Twins src src' outputs last ts) (pair : Paired ts src'.terms t u)
    (known : last.memo.lookup t = some id) (here : last.graph.node? id = some node) :
    src'.origin? u = some node := by
  obtain ⟨i, left, right⟩ := pair
  have place := (tw.lists.memo t id).mp known
  have same := (List.getElem?_inj (List.getElem?_eq_some_iff.mp left).1 tw.lists.distinct).mp
    (left.trans place.symm)
  rw [same] at right
  obtain ⟨lt, rfl⟩ := List.getElem?_eq_some_iff.mp right
  have first : src'.terms.idxOf? src'.terms[id.index] = some id.index := by
    refine List.idxOf?_eq_some_iff.mpr ⟨lt, rfl, fun k before eq => ?_⟩
    have := (List.Nodup.getElem_inj_iff tw.distinct).mp eq
    omega
  unfold Source.origin?
  rw [first, tw.base]
  exact here

theorem leaf (tw : Twins src src' outputs last ts) (pair : Paired ts src'.terms t u) {c : Constant}
    (term : src.store.term? t = some (.leaf (.const c))) :
    src'.store.term? u = some (.leaf (.const c)) := by
  obtain ⟨i, left, right⟩ := pair
  obtain ⟨node, found⟩ := tw.lists.mirrors.exists_node left
  have layer := (tw.lists.mirrors.layer found left).term
  have layer' := (Graph.Mirrors.layer tw.fits (tw.base ▸ found) right).term
  obtain ⟨value, op, rfl⟩ := Node.layer_eq_const (Option.some.inj (term.symm.trans layer)).symm
  rw [layer', Node.layer_const op]

/-- Twins are applications of one operator to twins. -/
theorem app (tw : Twins src src' outputs last ts) (pair : Paired ts src'.terms t u)
    (term : src.store.term? t = some (.app op args attrs)) : ∃ args',
      src'.store.term? u = some (.app op args' attrs) ∧
        List.Forall₂ (Paired ts src'.terms) args args' := by
  obtain ⟨i, left, right⟩ := pair
  obtain ⟨node, found⟩ := tw.lists.mirrors.exists_node left
  obtain ⟨computes, rfl, rfl, operands⟩ := tw.lists.mirrors.operands found left term
  have layer := Graph.Mirrors.layer tw.fits (tw.base ▸ found) right
  refine ⟨Graph.termsAt src'.terms node.inputs, ?_, ?_⟩
  · rw [layer.term, Node.layer_operation computes]
  · refine (forall₂_meet operands.flip (Graph.forall₂_termsAt layer.inputs).flip).imp fun t u => ?_
    rintro ⟨i, -, left, right⟩
    exact ⟨i, left, right⟩

/-! ## Visits, side by side -/

variable (tw : Twins src src' outputs last ts)
  (own : ∀ t, src.store.Below outputs t → ∃ id : NodeId, src.terms[id.index]? = some t)
  (fits : src.Fits)

include tw

theorem addConstant (pair : Paired ts src'.terms t u) (b : Beside ts src'.terms r s) (c : Constant)
    (grown : ((r.addConstant src t c).2.remember t (r.addConstant src t c).1).Grows last) :
    (s.addConstant src' u c).1 = (r.addConstant src t c).1 ∧
      Beside ts src'.terms (r.addConstant src t c).2 (s.addConstant src' u c).2 := by
  rw [addConstant_eq] at grown
  have known : last.memo.lookup t = some ⟨r.graph.size⟩ := grown.memo _ _ List.lookup_cons_self
  have here : last.graph.node? ⟨r.graph.size⟩ = some (src.constantNode t c) :=
    grown.node? List.getElem?_concat_length
  have origin := tw.origin pair known here
  have made : src'.constantNode u c = src.constantNode t c := by
    rw [Source.constantNode, origin, Option.getD_some]
  rw [addConstant_eq, addConstant_eq, made]
  unfold push
  rw [b.graph]
  exact ⟨rfl, rfl, b.memo, b.operations⟩

include own fits

theorem addOperation (below : src.store.Below outputs t) (pair : Paired ts src'.terms t u)
    (b : Beside ts src'.terms r s) (ok : r.addOperation src t op ids attrs = .ok (id, r'))
    (grown : (r'.remember t id).Grows last) :
    ∃ s', s.addOperation src' u op ids attrs = .ok (id, s') ∧ Beside ts src'.terms r' s' := by
  cases known : r.operations.lookup (op, ids) with
  | some id' =>
    rw [addOperation_known known] at ok
    cases ok
    exact ⟨s, addOperation_known (by rw [b.operations, known]), b⟩
  | none =>
    have output := checkOutput_of_addOperation known ok
    obtain ⟨i, place⟩ := own t below
    obtain ⟨node, origin⟩ := fits.exists_origin place
    rw [addOperation_origin known output origin] at ok
    cases ok
    have found : last.memo.lookup t = some ⟨r.graph.size⟩ := grown.memo _ _ List.lookup_cons_self
    have here : last.graph.node? ⟨r.graph.size⟩ = some { node with inputs := ids } :=
      grown.node? List.getElem?_concat_length
    have origin' := tw.origin pair found here
    rw [addOperation_origin (by rw [b.operations, known]) output origin', b.graph, b.operations]
    exact ⟨_, rfl, rfl, b.memo, rfl⟩

theorem visitWithin {n m : Nat} (below : src.store.Below outputs t)
    (pair : Paired ts src'.terms t u) (b : Beside ts src'.terms r s)
    (ok : visitWithin src n t r = .ok (id, r')) (grown : r'.Grows last) (lt : u.index < m) :
    ∃ s', Rebuild.visitWithin src' m u s = .ok (id, s') ∧ Beside ts src'.terms r' s' := by
  have closed : ∀ {t op args attrs}, src.store.term? t = some (.app op args attrs) →
      src.store.Below outputs t → ∀ u ∈ args, src.store.Below outputs u :=
    fun app below u mem => .operand app below mem
  have visited : ∀ {n t r id r'}, src.store.Below outputs t →
      Rebuild.visitWithin src n t r = .ok (id, r') → Visited src (src.store.Below outputs) r t id r' :=
    fun below ok => visitWithin_steps _ fits.valid closed below ok
  induction n generalizing m t u r s id r' with
  | zero => cases ok
  | succ n ih =>
    obtain ⟨m, rfl⟩ : ∃ k, m = k + 1 := ⟨m - 1, by omega⟩
    unfold Rebuild.visitWithin at ok
    split at ok
    · rename_i known
      cases ok
      rw [Rebuild.visitWithin, b.memo t u pair, known]
      exact ⟨s, rfl, b⟩
    · rename_i new
      rw [Rebuild.visitWithin, b.memo t u pair, new]
      split at ok
      · cases ok
      · cases ok
      · cases ok
      · rename_i c term
        cases ok
        obtain ⟨same, beside⟩ := tw.addConstant pair b c grown
        rw [tw.leaf pair term]
        dsimp only
        rw [same]
        exact ⟨_, rfl, tw.remember beside pair _⟩
      · rename_i op args attrs term
        obtain ⟨⟨ids, r₁⟩, operands, ok⟩ := bind_eq_ok ok
        obtain ⟨⟨id', r₂⟩, made, ok⟩ := bind_eq_ok ok
        cases ok
        obtain ⟨args', term', pairs⟩ := tw.app pair term
        have before : ∀ w ∈ args', w.index < m := fun w mem => by
          have := tw.fits.valid u op args' attrs term' w mem
          omega
        obtain ⟨-, found, -, later⟩ := visitOperands_steps
          (fun w mem _ _ _ => visited (closed term below w mem)) operands
        have due : Due src (src.store.Below outputs) r₁ t op args attrs ids :=
          ⟨below, (later t (fits.valid t op args attrs term)).trans new, term, found⟩
        have grown₁ := (addOperation_step due made).1.grows.trans grown
        obtain ⟨s₁, operands', beside⟩ := visitOperands_beside pairs
          (fun w mem r id r' ok => grows_of_steps (visited (closed term below w mem) ok).steps)
          (fun w mem w' mem' pair r s id r' b ok grown =>
            ih (closed term below w mem) pair b ok grown (before w' mem')) b operands grown₁
        obtain ⟨s₂, made', beside'⟩ := tw.addOperation own fits below pair beside made grown
        refine ⟨s₂.remember u id, ?_, tw.remember beside' pair id⟩
        rw [term']
        dsimp only
        rw [operands']
        show (s₁.addOperation src' u op ids attrs >>= fun x => _) = _
        rw [made']
        rfl

/-- Outputs are added side by side. -/
theorem addOutputs {rest us : List TermId} (here : ∀ t ∈ rest, src.store.Below outputs t)
    (pairs : List.Forall₂ (Paired ts src'.terms) rest us) (b : Beside ts src'.terms r s)
    (ok : Rebuild.addOutputs src rest r = .ok last) :
    ∃ s', Rebuild.addOutputs src' us s = .ok s' ∧ Beside ts src'.terms last s' := by
  have closed : ∀ {t op args attrs}, src.store.term? t = some (.app op args attrs) →
      src.store.Below outputs t → ∀ u ∈ args, src.store.Below outputs u :=
    fun app below u mem => .operand app below mem
  induction pairs generalizing r s with
  | nil =>
    cases ok
    exact ⟨s, rfl, b⟩
  | @cons t u rest us pair _ ih =>
    rw [List.forall_mem_cons] at here
    obtain ⟨⟨id, r₁⟩, visited, ok⟩ := bind_eq_ok ok
    dsimp only at ok
    split at ok
    · cases ok
    · rename_i graph added
      have grown : Grows { r₁ with graph } last :=
        grows_of_steps (addOutputs_steps _ fits.valid closed here.2 ok).1
      unfold Graph.addOutput at added
      split at added
      · rename_i lt
        cases added
        obtain ⟨s₁, visited', beside⟩ := tw.visitWithin own fits here.1 pair b visited
          ⟨grown.nodes, grown.memo, grown.operations⟩ (Nat.lt_succ_self _)
        have next : Beside ts src'.terms
            { r₁ with graph := { r₁.graph with outputs := r₁.graph.outputs ++ [id] } }
            { s₁ with graph := { s₁.graph with outputs := s₁.graph.outputs ++ [id] } } :=
          ⟨by rw [beside.graph], beside.memo, beside.operations⟩
        obtain ⟨s', later, ended⟩ := ih here.2 next ok
        refine ⟨s', ?_, ended⟩
        rw [addOutputs_cons visited' (if_pos (beside.graph ▸ lt))]
        exact later
      · cases added

omit own in
/-- Placeholders of the same names and types are taken over side by side. -/
theorem addPlaceholders (contract : src.base.contract = last.graph.contract) :
    Beside ts src'.terms (empty.addPlaceholders src) (empty.addPlaceholders src') := by
  have pairs : List.Forall₂ (fun p q => p.2.2 = q.2.2 ∧ ∃ t u, src.terms[p.1.index]? = some t ∧
      src'.terms[q.1.index]? = some u ∧ Paired ts src'.terms t u)
      src.base.placeholders last.graph.placeholders := by
    have same : src.base.placeholders.map (fun p => (p.2.1, p.2.2.type)) =
        last.graph.placeholders.map fun p => (p.2.1, p.2.2.type) := congrArg Contract.inputs contract
    rw [← List.forall₂_eq_eq_eq, List.forall₂_map_left_iff, List.forall₂_map_right_iff] at same
    refine forall₂_imp_mem same fun p mem q mem' same => ?_
    obtain ⟨i, name, ⟨nodeOp, ids, type⟩⟩ := p
    obtain ⟨j, name', ⟨nodeOp', ids', type'⟩⟩ := q
    obtain ⟨rfl, rfl⟩ := Prod.mk.inj same
    obtain ⟨found, op⟩ := mem_placeholders_iff.mp mem
    obtain ⟨found', op'⟩ := mem_placeholders_iff.mp mem'
    obtain ⟨-, none, layer⟩ := fits.placeholder mem
    obtain ⟨-, none', -⟩ := tw.fits.placeholder (tw.base ▸ mem')
    dsimp only at op op' none none'
    subst op op' none none'
    obtain ⟨t, place⟩ := Graph.Mirrors.exists_term fits found
    obtain ⟨t', place'⟩ := tw.lists.mirrors.exists_term found'
    obtain ⟨u, twin⟩ := Graph.Mirrors.exists_term tw.fits (tw.base ▸ found')
    have layer' := (tw.lists.mirrors.layer found' place').term
    obtain rfl := Store.term?_inj (layer place) layer'
    exact ⟨rfl, t, u, place, twin, j, place', twin⟩
  rw [addPlaceholders_eq_foldl, addPlaceholders_eq_foldl, tw.base]
  suffices ∀ r s, Beside ts src'.terms r s → Beside ts src'.terms
      (src.base.placeholders.foldl (addPlaceholder src) r)
      (last.graph.placeholders.foldl (addPlaceholder src') s) from
    this _ _ ⟨rfl, fun _ _ _ => rfl, rfl⟩
  generalize src.base.placeholders = ps, last.graph.placeholders = qs at pairs
  induction pairs with
  | nil => exact fun _ _ b => b
  | @cons p q _ _ first _ ih =>
    obtain ⟨same, t, u, place, twin, pair⟩ := first
    intro r s b
    rw [List.foldl_cons, List.foldl_cons]
    refine ih _ _ ?_
    rw [addPlaceholder, addPlaceholder, place, twin, ← same]
    unfold push
    rw [b.graph]
    have pushed : Beside ts src'.terms { r with graph := (r.graph.push p.2.2).1 }
        { s with graph := (r.graph.push p.2.2).1 } := ⟨rfl, b.memo, b.operations⟩
    exact tw.remember pushed pair _

/-- The graph at the end is rebuilt from the twins of the outputs. -/
theorem rebuildFrom {us : List TermId} (contract : src.base.contract = last.graph.contract)
    (made : (empty.addPlaceholders src).addOutputs src outputs = .ok last)
    (pairs : List.Forall₂ (Paired ts src'.terms) outputs us) :
    ∃ b, Graph.rebuildFrom src' us = .ok b ∧ b.graph = last.graph := by
  obtain ⟨s, made', beside⟩ := tw.addOutputs own fits (fun t mem => .output mem) pairs
    (tw.addPlaceholders fits contract) made
  refine ⟨⟨s.graph, s.reused, s.created⟩, ?_, beside.graph⟩
  unfold Graph.rebuildFrom
  rw [made']
  refine if_pos ?_
  rw [tw.base, beside.graph]

end Twins

/-- Terms below some terms that have nodes have nodes. -/
theorem Faithful.exists_of_below (h : Faithful src r) (found : r.Found outputs ids)
    (below : src.store.Below outputs t) : ∃ id, r.memo.lookup t = some id := by
  induction below with
  | output mem =>
    obtain ⟨id, -, known⟩ := exists_of_forall₂_right found.flip mem
    exact ⟨id, known⟩
  | operand term _ mem ih =>
    obtain ⟨id, known⟩ := ih
    obtain ⟨x, node, term', -, stands⟩ := h.memo _ id known
    cases term.symm.trans term'
    cases stands with
    | app _ operands =>
      obtain ⟨i, -, known⟩ := exists_of_forall₂_right operands.flip mem
      exact ⟨i, known⟩

end Rebuild

/-! ## To terms and back -/

namespace Graph

/-- A graph, made to terms and rebuilt. -/
def roundTrip (g : Graph) : SessionM (Except RebuildError Rebuilt) := do
  let x ← g.toTerms
  ofTerm x.root g

namespace Mirrors

/-- The terms of a graph are determined. -/
theorem unique (typed : Typed inputs g) (m : Mirrors st g terms) (m' : Mirrors st g ts) :
    terms = ts := by
  refine List.ext_getElem (m.layered.length_eq.symm.trans m'.layered.length_eq) fun k lt lt' => ?_
  exact term_eq (i := ⟨k⟩) (j := ⟨k⟩) typed typed m m' rfl (List.getElem?_eq_getElem lt)
    (List.getElem?_eq_getElem lt')

/-- Whether different nodes have different terms does not depend on the store. -/
theorem nodup (typed : Typed inputs g) (m : Mirrors st g terms) (m' : Mirrors st' g ts)
    (distinct : terms.Nodup) : ts.Nodup := by
  have length : terms.length = ts.length := m.layered.length_eq.symm.trans m'.layered.length_eq
  rw [List.nodup_iff_injective_get]
  rintro ⟨k, lt⟩ ⟨l, lt'⟩ (same : ts[k] = ts[l])
  have inside : k < g.size := by rwa [size, m'.layered.length_eq]
  have inside' : l < g.size := by rwa [size, m'.layered.length_eq]
  have left : (st'.tree ts[k]).expr = g.unfold ⟨k⟩ := m'.expr_eq inside (List.getElem?_eq_getElem lt)
  have right : (st'.tree ts[l]).expr = g.unfold ⟨l⟩ :=
    m'.expr_eq inside' (List.getElem?_eq_getElem lt')
  have unfolds : g.unfold ⟨k⟩ = g.unfold ⟨l⟩ := by rw [← left, ← right, same]
  have terms := term_eq typed typed m m unfolds (List.getElem?_eq_getElem (length ▸ lt))
    (List.getElem?_eq_getElem (length ▸ lt'))
  exact Fin.ext ((List.Nodup.getElem_inj_iff distinct).mp terms)

end Mirrors

/-- A graph on its own terms, rebuilt. -/
structure Trip (src : Source) (last : Rebuild) (ts : List TermId) : Prop where
  fits : src.Fits
  inside : ∀ id ∈ src.base.outputs, id.index < src.base.size
  base : Typed src.base.inputType? src.base
  made : (Rebuild.empty.addPlaceholders src).addOutputs src (termsAt src.terms src.base.outputs) =
    .ok last
  contract : src.base.contract = last.graph.contract
  typed : Typed src.base.inputType? last.graph
  lists : Rebuild.Lists src (termsAt src.terms src.base.outputs) last ts

/-- The term of a graph is rebuilt by the terms of the graph in some store, at once or later. -/
theorem exists_ofTerm_eq (hv : ses.store.Valid) (valid : g.validate = .ok ())
    (typed : Typed inputs g) {later : Session} (since : (g.toTerms ses).2.Grows later) :
    ∃ st, (Source.mk st g (g.toTerms ses).1.nodes).Fits ∧
      (ofTerm (g.toTerms ses).1.root g later).1 = rebuildFrom ⟨st, g, (g.toTerms ses).1.nodes⟩
        (termsAt (g.toTerms ses).1.nodes g.outputs) := by
  obtain ⟨-, mirrors, root⟩ := toTerms_mirrors hv valid
  have mirrors := mirrors.later since.store
  have root := since.store.keeps _ _ root
  obtain ⟨grown, mirrors', -⟩ := toTerms_mirrors mirrors.valid valid
  have inside := mirrors.at_nodes (validate_iff.mp valid).2
  have rooted : outputTerms later.store (g.toTerms ses).1.root =
      .ok (termsAt (g.toTerms ses).1.nodes g.outputs) := by
    obtain ⟨outputs, ok, term, -⟩ := outputTerms_succeeds mirrors.valid (mirrors.valid.tree_app root) (by
      intro t mem
      obtain ⟨u, out, rfl⟩ := List.mem_map.mp mem
      obtain ⟨id, -, place⟩ := exists_of_forall₂_right inside out
      obtain ⟨node, found⟩ := mirrors.exists_node place
      exact (mirrors.wellTyped typed found place).ground)
    rw [root] at term
    cases term
    exact ok
  refine ⟨(g.toTerms later).2.store, mirrors.later grown.store, ?_⟩
  rw [ofTerm_apply, rooted]
  dsimp only
  rw [if_neg (not_not.mpr inside.length_eq.symm), (mirrors.later grown.store).unique typed mirrors']

/-- A round trip goes by the terms of the graph in some store. -/
theorem exists_roundTrip_eq (hv : ses.store.Valid) (valid : g.validate = .ok ())
    (typed : Typed inputs g) : ∃ st, (Source.mk st g (g.toTerms ses).1.nodes).Fits ∧
      (g.roundTrip ses).1 = rebuildFrom ⟨st, g, (g.toTerms ses).1.nodes⟩
        (termsAt (g.toTerms ses).1.nodes g.outputs) :=
  exists_ofTerm_eq hv valid typed (.refl _)

namespace Trip

theorem own (trip : Trip src last ts) (below : src.store.Below (termsAt src.terms src.base.outputs) t) :
    ∃ id : NodeId, src.terms[id.index]? = some t := by
  obtain ⟨id, -, place⟩ := (Mirrors.below_iff trip.fits trip.inside).mp below
  exact ⟨id, place⟩

theorem run (trip : Trip src last ts) :
    Rebuild.Run src (termsAt src.terms src.base.outputs) last :=
  run_of_addOutputs trip.fits.valid (Rebuild.started src).outputs trip.made trip.contract

theorem validate (trip : Trip src last ts) : last.graph.validate = .ok () :=
  validate_iff.mpr ⟨trip.typed.checked, (trip.run.faithful trip.fits).index_lt trip.run.found⟩

/-- The outputs of the two graphs have the same terms. -/
theorem outputs_same (trip : Trip src last ts) : List.Forall₂ (fun i j => ∃ t, ts[i.index]? = some t ∧
    src.terms[j.index]? = some t) last.graph.outputs src.base.outputs := by
  refine (forall₂_meet (trip.lists.found_iff.mp trip.run.found)
    (Mirrors.at_nodes trip.fits trip.inside)).imp fun i j => ?_
  rintro ⟨t, -, place, place'⟩
  exact ⟨t, place, place'⟩

/-- Nodes of one term unfold alike. -/
theorem unfold_eq (trip : Trip src last ts) (place : ts[i.index]? = some t)
    (place' : src.terms[j.index]? = some t) : last.graph.unfold i = src.base.unfold j := by
  obtain ⟨node, found⟩ := trip.lists.mirrors.exists_node place
  obtain ⟨node', found'⟩ := Mirrors.exists_node trip.fits place'
  rw [← trip.lists.mirrors.expr_eq (index_lt_of_node? found) place,
    ← Mirrors.expr_eq trip.fits (index_lt_of_node? found') place']

/-- The applications among the terms are those of the operations that are reached. -/
theorem mem_iff (trip : Trip src last ts) : t ∈ ts.filter (fun t => (src.store.app? t).isSome) ↔
    ∃ id node, src.base.Reachable id ∧ src.base.node? id = some node ∧ node.op.isLeaf = false ∧
      src.terms[id.index]? = some t := by
  rw [List.mem_filter]
  constructor
  · rintro ⟨mem, isApp⟩
    obtain ⟨id, reached, place⟩ :=
      (Mirrors.below_iff trip.fits trip.inside).mp (trip.lists.below t mem isApp)
    obtain ⟨node, found⟩ := Mirrors.exists_node trip.fits place
    obtain ⟨⟨op, args, attrs⟩, app⟩ := Option.isSome_iff_exists.mp isApp
    obtain ⟨computes, -⟩ := Mirrors.operands trip.fits found place (Store.app?_eq_some_iff.mp app)
    exact ⟨id, node, reached, found, computes, place⟩
  · rintro ⟨id, node, reached, found, computes, place⟩
    obtain ⟨i, known⟩ := (trip.run.faithful trip.fits).exists_of_below trip.run.found
      ((Mirrors.below_iff trip.fits trip.inside).mpr ⟨id, reached, place⟩)
    have layer := (Mirrors.layer trip.fits found place).term
    rw [Node.layer_operation computes] at layer
    refine ⟨List.mem_of_getElem? ((trip.lists.memo t i).mp known), ?_⟩
    rw [Store.app?_eq_some_iff.mpr layer]
    rfl

/-- The terms of the two graphs are the same in every session. -/
theorem equivalent (trip : Trip src last ts) {other : Session} (hv : other.store.Valid) :
    (last.graph.equivalent src.base other).1 = true := by
  have valid : src.base.validate = .ok () := validate_iff.mpr ⟨trip.fits.checked, trip.inside⟩
  obtain ⟨-, mirrors, root⟩ := toTerms_mirrors hv trip.validate
  obtain ⟨grown, mirrors', root'⟩ := toTerms_mirrors mirrors.valid valid
  have places := mirrors.at_nodes (validate_iff.mp trip.validate).2
  have places' := mirrors'.at_nodes trip.inside
  have same : termsAt (last.graph.toTerms other).1.nodes last.graph.outputs =
      termsAt (src.base.toTerms (last.graph.toTerms other).2).1.nodes src.base.outputs := by
    rw [← List.forall₂_eq_eq_eq]
    refine (forall₂_meet (forall₂_meet places.flip trip.outputs_same.flip) places'.flip).imp
      fun t u => ?_
    rintro ⟨j, -, ⟨i, -, place, v, here, here'⟩, place'⟩
    exact Mirrors.term_eq trip.typed trip.base (mirrors.later grown.store) mirrors'
      (trip.unfold_eq here here') place place'
  rw [← same] at root'
  exact decide_eq_true (Store.term?_inj (grown.store.keeps _ _ root) root')

/-- The graph that is rebuilt is rebuilt as it is in every session. -/
theorem again (trip : Trip src last ts) {other : Session} (hv : other.store.Valid) :
    ∃ b, (last.graph.roundTrip other).1 = .ok b ∧ b.graph = last.graph := by
  obtain ⟨st, fits, eq⟩ := exists_roundTrip_eq hv trip.validate trip.typed
  generalize (last.graph.toTerms other).1.nodes = terms at fits eq
  have tw : Rebuild.Twins src ⟨st, last.graph, terms⟩ (termsAt src.terms src.base.outputs) last ts :=
    ⟨trip.lists, fits, rfl, trip.lists.mirrors.nodup trip.typed fits trip.lists.distinct⟩
  rw [eq]
  refine tw.rebuildFrom (fun t => trip.own) trip.fits trip.contract trip.made ?_
  refine (forall₂_meet (trip.lists.found_iff.mp trip.run.found).flip
    (Mirrors.at_nodes fits (validate_iff.mp trip.validate).2).flip).imp fun t u => ?_
  rintro ⟨i, -, place, place'⟩
  exact ⟨i, place, place'⟩

end Trip

/-- A graph whose placeholders have different names is rebuilt from its own terms, at once or later. -/
theorem exists_later_trip (hv : ses.store.Valid) (valid : g.validate = .ok ())
    (distinct : (g.contract.inputs.map Prod.fst).Nodup) {later : Session}
    (since : (g.toTerms ses).2.Grows later) : ∃ src last ts, src.base = g ∧
      src.terms = (g.toTerms ses).1.nodes ∧ Trip src last ts ∧
        (ofTerm (g.toTerms ses).1.root g later).1 =
          .ok ⟨last.graph, last.reused, last.created⟩ := by
  obtain ⟨checked, inside⟩ := validate_iff.mp valid
  have typed := (consistent_of_nodup distinct).typed checked
  obtain ⟨st, fits, eq⟩ := exists_ofTerm_eq hv valid typed since
  generalize (g.toTerms ses).1.nodes = terms at fits eq ⊢
  have places := Mirrors.at_nodes fits inside
  have wells : ∀ t ∈ termsAt terms g.outputs, (st.tree t).WellTyped g.inputType? := by
    intro t mem
    obtain ⟨id, -, place⟩ := exists_of_forall₂_right places mem
    obtain ⟨node, found⟩ := Mirrors.exists_node fits place
    exact Mirrors.wellTyped typed fits found place
  have types : ((termsAt terms g.outputs).map st.tree).mapM (Tree.type? g.inputType?) =
      some g.contract.outputs := by
    obtain ⟨types, known⟩ := exists_operandTypes inside
    have known := operandTypes_eq_ok_iff.mp known
    rw [contract_outputs (mapM_eq_some_iff.mpr known), List.mapM_map, mapM_eq_some_iff]
    refine (forall₂_meet places.flip known.flip).imp fun t type => ?_
    rintro ⟨id, -, place, known⟩
    obtain ⟨node, found, rfl⟩ := Option.map_eq_some_iff.mp known
    exact Mirrors.type_eq typed fits found place
  obtain ⟨b, ok⟩ := rebuildFrom_succeeds fits typed (fun _ _ => mem_of_inputType?) wells types
  obtain ⟨last, made, contract, rfl⟩ := rebuildFrom_eq_ok ok
  have run := run_of_addOutputs fits.valid (Rebuild.started _).outputs made contract
  obtain ⟨typed', ts, lists⟩ := run.lists fits typed distinct fun t below => by
    obtain ⟨id, -, place⟩ := (Mirrors.below_iff fits inside).mp below
    exact ⟨id, place⟩
  exact ⟨_, last, ts, rfl, rfl, ⟨fits, inside, typed, made, contract, typed', lists⟩, eq.trans ok⟩

theorem exists_trip (hv : ses.store.Valid) (valid : g.validate = .ok ())
    (distinct : (g.contract.inputs.map Prod.fst).Nodup) : ∃ src last ts, src.base = g ∧
      src.terms = (g.toTerms ses).1.nodes ∧ Trip src last ts ∧
        (g.roundTrip ses).1 = .ok ⟨last.graph, last.reused, last.created⟩ :=
  exists_later_trip hv valid distinct (.refl _)

/-- A graph that was made to terms and rebuilt has taken over every operation, one for each term that
    the outputs reach, its interface is the same, and so are its terms. It is rebuilt as it is. -/
theorem exists_roundTrip (hv : ses.store.Valid) (valid : g.validate = .ok ())
    (distinct : (g.contract.inputs.map Prod.fst).Nodup) : ∃ b, (g.roundTrip ses).1 = .ok b ∧
      b.created = 0 ∧
      (∃ ts : Finset TermId, b.reused = ts.card ∧ ∀ t, t ∈ ts ↔ ∃ id node, g.Reachable id ∧
        g.node? id = some node ∧ node.op.isLeaf = false ∧
        (g.toTerms ses).1.nodes[id.index]? = some t) ∧
      b.graph.contract = g.contract ∧
      ∀ other : Session, other.store.Valid → (b.graph.equivalent g other).1 = true ∧
        ∃ b', (b.graph.roundTrip other).1 = .ok b' ∧ b'.graph = b.graph := by
  obtain ⟨src, last, ts, rfl, terms, trip, eq⟩ := exists_trip hv valid distinct
  refine ⟨_, eq, trip.lists.created, ⟨(ts.filter fun t => (src.store.app? t).isSome).toFinset, ?_,
    fun t => ?_⟩, trip.contract.symm, fun other hv' => ⟨trip.equivalent hv', trip.again hv'⟩⟩
  · rw [List.toFinset_card_of_nodup (trip.lists.distinct.filter _)]
    exact trip.lists.reused
  · rw [List.mem_toFinset, trip.mem_iff, terms]

/-- The graph of `2 x` from its own terms. -/
theorem exists_roundTrip_doubled : ∃ b, (doubled.roundTrip .bare).1 = .ok b ∧ b.created = 0 ∧
    (∃ ts : Finset TermId, b.reused = ts.card ∧ ∀ t, t ∈ ts ↔ ∃ id node, doubled.Reachable id ∧
      doubled.node? id = some node ∧ node.op.isLeaf = false ∧
      (doubled.toTerms .bare).1.nodes[id.index]? = some t) ∧
    b.graph.contract = doubled.contract ∧
    ∀ other : Session, other.store.Valid → (b.graph.equivalent doubled other).1 = true ∧
      ∃ b', (b.graph.roundTrip other).1 = .ok b' ∧ b'.graph = b.graph :=
  exists_roundTrip Store.valid_empty (by decide +kernel) (by decide +kernel)

end Graph

end Regraft
