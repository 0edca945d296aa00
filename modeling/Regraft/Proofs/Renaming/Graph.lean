import Regraft.Proofs.Rebuild.Steps
import Regraft.Proofs.Renaming.Sessions
import Regraft.Proofs.Renaming.Subst

/-
  Graphs become twin terms on both sides (`Renaming.toTerms_steady`), and twins become the same graph again,
  node for node (`ofTerm_steady`): the terms of the base graph are found at the same places, the same
  operations are shared, and the counts are the same.
-/

namespace Regraft

namespace Renaming

variable {ρ : Renaming} {p q : Sides} {st st' : Store} {t t' : TermId} {ts ts' : List TermId}

/-! ## From graphs to terms -/

theorem termsAt_rel {R : TermId → TermId → Prop} (h : List.Forall₂ R ts ts') (ids : List NodeId) :
    List.Forall₂ R (Graph.termsAt ts ids) (Graph.termsAt ts' ids) := by
  refine List.rel_filterMap (R := Eq) ?_ (List.forall₂_refl ids)
  rintro id _ rfl
  exact getElem?_rel h id.index

theorem nodeTerm_steady (h : ρ.Sames p ts ts') (node : Node) :
    ρ.Steady p ρ.Same (Graph.nodeTerm ts node) (Graph.nodeTerm ts' node) := by
  unfold Graph.nodeTerm
  split
  · exact input_steady _
  · exact leaf_steady _
  · exact tagged_steady (termsAt_rel h node.inputs) _ _

theorem nodeTerms_steady (h : ρ.Sames p ts ts') (nodes : List Node) :
    ρ.Steady p ρ.Sames (Graph.nodeTerms ts nodes) (Graph.nodeTerms ts' nodes) := by
  induction nodes generalizing p ts ts' with
  | nil => exact .pure h
  | cons node rest ih =>
    exact (nodeTerm_steady h node).then fun q t t' g same =>
      ih (List.rel_append (h.grow g) (.cons same .nil))

/-- Twins for the root and for all nodes. -/
structure GraphTwins (ρ : Renaming) (p : Sides) (x x' : GraphTerms) : Prop where
  root : ρ.Same p x.root x'.root
  nodes : ρ.Sames p x.nodes x'.nodes

theorem toTerms_steady (base : Graph) : ρ.Steady p ρ.GraphTwins base.toTerms base.toTerms :=
  (nodeTerms_steady .nil base.nodes).then fun _ _ _ _ nodes =>
    (tagged_steady (termsAt_rel nodes base.outputs) _ _).then fun _ _ _ g root =>
      .pure ⟨root, nodes.grow g⟩

/-! ## From terms to graphs -/

/-- The same error, but for the number of a variable. -/
inductive SameFault : RebuildError → RebuildError → Prop
  | unresolvedVariable (v w : UInt32) : SameFault (.unresolvedVariable v) (.unresolvedVariable w)
  | same (e : RebuildError) : SameFault e e

/-- The same graph on its way, known by twins. -/
structure Rebuilds (ρ : Renaming) (st st' : Store) (r r' : Rebuild) : Prop where
  graph : r'.graph = r.graph
  memo : List.Forall₂ (fun e e' => ρ.Twins st st' e.1 e'.1 ∧ e.2 = e'.2) r.memo r'.memo
  operations : r'.operations = r.operations
  reused : r'.reused = r.reused
  created : r'.created = r.created

/-- What visits come to: the same node in the same graph, or the same error. -/
inductive Rebuilding {α β : Type} (ρ : Renaming) (st st' : Store) (R : α → β → Prop) :
    Except RebuildError (α × Rebuild) → Except RebuildError (β × Rebuild) → Prop
  | ok {a : α} {b : β} {r r' : Rebuild} (result : R a b) (h : ρ.Rebuilds st st' r r') :
      Rebuilding ρ st st' R (.ok (a, r)) (.ok (b, r'))
  | error {e e' : RebuildError} (h : SameFault e e') : Rebuilding ρ st st' R (.error e) (.error e')

/-- Sources that are the same, but for the numbers of terms and variables. -/
structure Sources (ρ : Renaming) (src src' : Source) : Prop where
  base : src'.base = src.base
  terms : List.Forall₂ (ρ.Twins src.store src'.store) src.terms src'.terms

variable {src src' : Source} {r r' : Rebuild}

/-- Twins stand for the same node of the base graph. -/
theorem Sources.origin? (h : ρ.Sources src src') (ht : ρ.Twins src.store src'.store t t') :
    src'.origin? t' = src.origin? t := by
  have found : ∀ {ts ts'}, List.Forall₂ (ρ.Twins src.store src'.store) ts ts' →
      ts'.idxOf? t' = ts.idxOf? t := by
    intro ts ts' same
    induction same with
    | nil => rfl
    | @cons u u' _ _ first _ ih =>
      rw [List.idxOf?_cons, List.idxOf?_cons, ih]
      have eq : (u' == t') = (u == t) := by
        rw [Bool.eq_iff_iff, beq_iff_eq, beq_iff_eq]
        exact first.eq_iff ht
      rw [eq]
  unfold Source.origin?
  rw [found h.terms, h.base]

theorem Rebuilds.lookup (h : ρ.Rebuilds st st' r r') (ht : ρ.Twins st st' t t') :
    r'.memo.lookup t' = r.memo.lookup t := by
  have memo := h.memo
  generalize r.memo = es at memo ⊢
  generalize r'.memo = es' at memo ⊢
  induction memo with
  | nil => rfl
  | @cons e e' _ _ first _ ih =>
    have eq : (t' == e'.1) = (t == e.1) := by
      rw [Bool.eq_iff_iff, beq_iff_eq, beq_iff_eq]
      exact ht.eq_iff first.1
    rw [List.lookup_cons, List.lookup_cons, eq, ih, first.2]

theorem Rebuilds.remember (h : ρ.Rebuilds st st' r r') (ht : ρ.Twins st st' t t') (id : NodeId) :
    ρ.Rebuilds st st' (r.remember t id) (r'.remember t' id) :=
  ⟨h.graph, .cons ⟨ht, rfl⟩ h.memo, h.operations, h.reused, h.created⟩

theorem Rebuilds.push (h : ρ.Rebuilds st st' r r') (node : Node) :
    (r.push node).1 = (r'.push node).1 ∧
      ρ.Rebuilds st st' (r.push node).2 (r'.push node).2 := by
  unfold Rebuild.push
  rw [h.graph]
  exact ⟨rfl, rfl, h.memo, h.operations, h.reused, h.created⟩

theorem addPlaceholders_rel (h : ρ.Sources src src')
    (hr : ρ.Rebuilds src.store src'.store r r') :
    ρ.Rebuilds src.store src'.store (r.addPlaceholders src) (r'.addPlaceholders src') := by
  unfold Rebuild.addPlaceholders
  rw [h.base]
  generalize src.base.placeholders = ps
  induction ps generalizing r r' with
  | nil => exact hr
  | cons p rest ih =>
    rw [List.foldl_cons, List.foldl_cons]
    refine ih ?_
    obtain ⟨same, pushed⟩ := hr.push p.2.2
    have term := getElem?_rel h.terms p.1.index
    dsimp only
    generalize src.terms[p.1.index]? = x at term ⊢
    generalize src'.terms[p.1.index]? = x' at term ⊢
    cases term with
    | none => exact pushed
    | some twins =>
      dsimp only
      rw [← same]
      exact pushed.remember twins _

/-- A constant has the same node. -/
theorem addConstant_rel (h : ρ.Sources src src') (hr : ρ.Rebuilds src.store src'.store r r')
    (ht : ρ.Twins src.store src'.store t t') (c : Constant) :
    (r.addConstant src t c).1 = (r'.addConstant src' t' c).1 ∧
      ρ.Rebuilds src.store src'.store (r.addConstant src t c).2 (r'.addConstant src' t' c).2 := by
  rw [Rebuild.addConstant_eq, Rebuild.addConstant_eq]
  have same : src'.constantNode t' c = src.constantNode t c := by
    rw [Source.constantNode, Source.constantNode, h.origin? ht]
  rw [same]
  exact hr.push _

theorem Rebuilding.bind {α β γ δ : Type} {R : α → β → Prop} {S : γ → δ → Prop}
    {x : Except RebuildError (α × Rebuild)} {x' : Except RebuildError (β × Rebuild)}
    {next : α × Rebuild → Except RebuildError (γ × Rebuild)}
    {next' : β × Rebuild → Except RebuildError (δ × Rebuild)} (h : ρ.Rebuilding st st' R x x')
    (later : ∀ a b r r', R a b → ρ.Rebuilds st st' r r' →
      ρ.Rebuilding st st' S (next (a, r)) (next' (b, r'))) :
    ρ.Rebuilding st st' S (x >>= next) (x' >>= next') := by
  cases h with
  | error e => exact .error e
  | ok result h => exact later _ _ _ _ result h

theorem create_rel (hr : ρ.Rebuilds st st' r r') (op : String) (inputs : List NodeId)
    (attrs : Attrs) : ρ.Rebuilding st st' Eq (Rebuild.create op inputs attrs r)
      (Rebuild.create op inputs attrs r') := by
  unfold Rebuild.create
  rw [hr.graph]
  split
  · exact .error (.same _)
  · split
    · exact .error (.same _)
    · split
      · exact .error (.same _)
      · rename_i graph id _
        have made : ρ.Rebuilds st st' { r with graph, created := r.created + 1 }
            { r' with graph, created := r'.created + 1 } :=
          ⟨rfl, hr.memo, hr.operations, hr.reused, congrArg (· + 1) hr.created⟩
        cases graph.node? id with
        | none => exact .ok rfl made
        | some node =>
          dsimp only
          cases Rebuild.checkAttrs op attrs node.type with
          | error e => exact .error (.same e)
          | ok _ => exact .ok rfl made

/-- An operation whose inputs are the same nodes has the same node. -/
theorem addOperation_rel (h : ρ.Sources src src') (hr : ρ.Rebuilds src.store src'.store r r')
    (ht : ρ.Twins src.store src'.store t t') (op : String) (inputs : List NodeId) (attrs : Attrs) :
    ρ.Rebuilding src.store src'.store Eq (r.addOperation src t op inputs attrs)
      (r'.addOperation src' t' op inputs attrs) := by
  unfold Rebuild.addOperation
  rw [hr.operations, h.origin? ht]
  cases r.operations.lookup (op, inputs) with
  | some id => exact .ok rfl hr
  | none =>
    dsimp only
    cases Rebuild.checkOutput op attrs with
    | error e => exact .error (.same e)
    | ok _ =>
      have known : ∀ {r r' id id'}, id = id' → ρ.Rebuilds src.store src'.store r r' →
          ρ.Rebuilding src.store src'.store Eq
            (.ok (id, { r with operations := ((op, inputs), id) :: r.operations }))
            (.ok (id', { r' with operations := ((op, inputs), id') :: r'.operations })) := by
        rintro r r' id _ rfl hr
        exact .ok rfl ⟨hr.graph, hr.memo, congrArg (((op, inputs), id) :: ·) hr.operations, hr.reused,
          hr.created⟩
      cases src.origin? t with
      | some node =>
        obtain ⟨same, pushed⟩ := hr.push { node with inputs }
        exact known same ⟨pushed.graph, pushed.memo, pushed.operations,
          congrArg (· + 1) pushed.reused, pushed.created⟩
      | none => exact (create_rel hr op inputs attrs).bind fun id _ r r' eq hr => known eq hr

theorem visitOperands_rel
    {visit visit' : TermId → Rebuild → Except RebuildError (NodeId × Rebuild)}
    (hts : List.Forall₂ (ρ.Twins st st') ts ts')
    (each : ∀ t ∈ ts, ∀ t' ∈ ts', ∀ {r r'}, ρ.Twins st st' t t' → ρ.Rebuilds st st' r r' →
      ρ.Rebuilding st st' Eq (visit t r) (visit' t' r')) (hr : ρ.Rebuilds st st' r r') :
    ρ.Rebuilding st st' Eq (Rebuild.visitOperands visit ts r)
      (Rebuild.visitOperands visit' ts' r') := by
  induction hts generalizing r r' with
  | nil => exact .ok rfl hr
  | @cons t t' rest rest' first _ ih =>
    rw [Rebuild.visitOperands, Rebuild.visitOperands]
    refine (each t (.head _) t' (.head _) first hr).bind fun id _ r r' eq hr => ?_
    obtain rfl := eq
    refine (ih (fun u hu u' hu' => each u (.tail _ hu) u' (.tail _ hu')) hr).bind
      fun ids _ r r' eq hr => ?_
    obtain rfl := eq
    exact .ok rfl hr

/-- Twins have the same node, within any bounds that they are stored below. -/
theorem visitWithin_rel (h : ρ.Sources src src') (left : src.store.Valid) (right : src'.store.Valid)
    {n n' : Nat} (lt : t.index < n) (lt' : t'.index < n')
    (ht : ρ.Twins src.store src'.store t t') (hr : ρ.Rebuilds src.store src'.store r r') :
    ρ.Rebuilding src.store src'.store Eq (Rebuild.visitWithin src n t r)
      (Rebuild.visitWithin src' n' t' r') := by
  induction n generalizing n' t t' r r' with
  | zero => omega
  | succ n ih =>
    cases n' with
    | zero => omega
    | succ n' =>
      rw [Rebuild.visitWithin, Rebuild.visitWithin, hr.lookup ht]
      cases r.memo.lookup t with
      | some id => exact .ok rfl hr
      | none =>
        obtain ⟨x, x', term, term', layer⟩ := ht.layer
        rw [term, term']
        cases layer with
        | var _ => exact .error (.unresolvedVariable _ _)
        | leaf l => cases l with
          | input name => exact .error (.same _)
          | const c =>
            obtain ⟨same, added⟩ := addConstant_rel h hr ht c
            exact .ok same (same ▸ added.remember ht _)
        | @app op args args' attrs operands =>
          refine (visitOperands_rel operands (fun u hu u' hu' {_ _} twins hr => ?_) hr).bind
            fun ids _ r r' eq hr => ?_
          · have below := left t op args attrs term u hu
            have below' := right t' op args' attrs term' u' hu'
            exact ih (by omega) (by omega) twins hr
          · obtain rfl := eq
            refine (addOperation_rel h hr ht op ids attrs).bind fun id _ r r' eq hr => ?_
            obtain rfl := eq
            exact .ok rfl (hr.remember ht id)

/-- Related results, or the same error. -/
inductive Remade {α β : Type} (R : α → β → Prop) :
    Except RebuildError α → Except RebuildError β → Prop
  | ok {a : α} {b : β} (h : R a b) : Remade R (.ok a) (.ok b)
  | error {e e' : RebuildError} (h : SameFault e e') : Remade R (.error e) (.error e')

theorem addOutputs_rel (h : ρ.Sources src src') (left : src.store.Valid) (right : src'.store.Valid)
    (hts : List.Forall₂ (ρ.Twins src.store src'.store) ts ts')
    (hr : ρ.Rebuilds src.store src'.store r r') :
    Remade (ρ.Rebuilds src.store src'.store) (r.addOutputs src ts) (r'.addOutputs src' ts') := by
  induction hts generalizing r r' with
  | nil => exact .ok hr
  | @cons t t' rest rest' first _ ih =>
    have visited := visitWithin_rel h left right (Nat.lt_succ_self _) (Nat.lt_succ_self _) first hr
    change ρ.Rebuilding _ _ Eq (Rebuild.visit src t r) (Rebuild.visit src' t' r') at visited
    rw [Rebuild.addOutputs, Rebuild.addOutputs]
    generalize Rebuild.visit src t r = x at visited ⊢
    generalize Rebuild.visit src' t' r' = x' at visited ⊢
    cases visited with
    | error e => exact .error e
    | @ok id _ r r' eq hr =>
      obtain rfl := eq
      dsimp only [bind, Except.bind]
      rw [hr.graph]
      cases r.graph.addOutput id with
      | error e => exact .error (.same _)
      | ok graph => exact ih ⟨rfl, hr.memo, hr.operations, hr.reused, hr.created⟩

/-- The same graph is rebuilt. -/
theorem rebuildFrom_rel (h : ρ.Sources src src') (left : src.store.Valid) (right : src'.store.Valid)
    (hts : List.Forall₂ (ρ.Twins src.store src'.store) ts ts') :
    Remade Eq (Graph.rebuildFrom src ts) (Graph.rebuildFrom src' ts') := by
  have empty : ρ.Rebuilds src.store src'.store .empty .empty := ⟨rfl, .nil, rfl, rfl, rfl⟩
  have added := addOutputs_rel h left right hts (addPlaceholders_rel h empty)
  unfold Graph.rebuildFrom
  rw [h.base]
  generalize (Rebuild.empty.addPlaceholders src).addOutputs src ts = x at added ⊢
  generalize (Rebuild.empty.addPlaceholders src').addOutputs src' ts' = x' at added ⊢
  cases added with
  | error e => exact .error e
  | @ok r r' hr =>
    dsimp only [bind, Except.bind]
    rw [hr.graph, hr.reused, hr.created]
    split
    · exact .ok rfl
    · exact .error (.same _)

theorem outputTerms_rel (left : st.Valid) (right : st'.Valid) (ht : ρ.Twins st st' t t') :
    Remade (List.Forall₂ (ρ.Twins st st')) (Graph.outputTerms st t) (Graph.outputTerms st' t') := by
  have unbound := (empty_substs left right).firstUnbound ht
  rw [Graph.outputTerms, Graph.outputTerms]
  generalize Subst.empty.firstUnbound st t = x at unbound ⊢
  generalize Subst.empty.firstUnbound st' t' = x' at unbound ⊢
  cases unbound with
  | some => exact .error (.unresolvedVariable _ _)
  | none =>
    rcases ht.app? with ⟨left, right⟩ | ⟨op, args, args', attrs, left, right, operands⟩
    · rw [left, right]
      exact .error (.same _)
    · rw [left, right]
      dsimp only
      split
      · exact .ok operands
      · exact .error (.same _)

/-- Twins become the same graph. -/
theorem ofTerm_steady (ht : ρ.Same p t t') (base : Graph) :
    ρ.Steady p (fun _ => Remade Eq) (Graph.ofTerm t base) (Graph.ofTerm t' base) := by
  intro agree
  have outputs := outputTerms_rel agree.stores.left agree.stores.right ht
  rw [Graph.ofTerm_apply, Graph.ofTerm_apply]
  generalize Graph.outputTerms p.left.store t = x at outputs ⊢
  generalize Graph.outputTerms p.right.store t' = x' at outputs ⊢
  cases outputs with
  | error e => exact ⟨agree, .refl p, .error e⟩
  | @ok ts ts' outputs =>
    dsimp only
    rw [← outputs.length_eq]
    split
    · exact ⟨agree, .refl p, .error (.same _)⟩
    · obtain ⟨agree', g, twins⟩ := toTerms_steady base agree
      refine ⟨agree', g, rebuildFrom_rel ⟨rfl, twins.nodes⟩ agree'.stores.left agree'.stores.right ?_⟩
      exact Sames.grow outputs g

end Renaming

end Regraft
