import Regraft.Proofs.Subst.Bind

/-
  Reifying. The empty substitution reads a stored term as its tree (`tree_empty`). A reified term is
  stored, and its tree is the tree of the term under the substitution (`Sound.reify_reads`), of which
  the first unbound variable is the leftmost (`Sound.firstUnbound_eq_head?`).
-/

namespace Regraft

namespace Subst

variable {s : Subst} {st st' : Store} {t : TermId}

/-! ## The empty substitution -/

theorem Sound.empty (hv : st.Valid) : Subst.empty.Sound st where
  valid := hv
  stored v t h := by
    rw [get?_empty] at h
    cases h
  acyclic t cycle := by
    have down : ∀ {u}, Relation.TransGen (Subst.empty.Leads st) t u → u.index < t.index := by
      intro u h
      induction h with
      | single h => cases h with
        | binding _ bound =>
          rw [get?_empty] at bound
          cases bound
        | operand app mem => exact hv _ _ _ _ app _ mem
      | tail _ h ih => cases h with
        | binding _ bound =>
          rw [get?_empty] at bound
          cases bound
        | operand app mem => exact Nat.lt_trans (hv _ _ _ _ app _ mem) ih
    exact Nat.lt_irrefl _ (down cycle)

theorem extends_empty (s : Subst) : Subst.empty.Extends s := by
  intro v t h
  rw [get?_empty] at h
  cases h

/-- Without bindings the tree of a term is its unfolding. -/
theorem tree_empty (hv : st.Valid) (t : TermId) : Subst.empty.tree st t = st.tree t := by
  have hs := Sound.empty hv
  have within : ∀ n t, t.index < n → st.treeWithin n t = Subst.empty.tree st t := by
    intro n
    induction n with
    | zero => intro t h; omega
    | succ n ih =>
      intro t h
      rw [Store.treeWithin]
      cases ht : st.term? t with
      | none =>
        have ne : ∀ v, st.term? t ≠ some (.var v) := fun v hv => nomatch ht.symm.trans hv
        rw [hs.tree_eq, hs.deref_of_ne_var ne, ht]
      | some x => cases x with
        | var v => rw [hs.tree_var ht, image_of_unbound (get?_empty v)]
        | leaf l => rw [hs.tree_leaf ht]
        | app op args attrs =>
          rw [hs.tree_app ht]
          change Tree.app op (args.map (st.treeWithin n)) attrs = _
          congr 1
          refine List.map_congr_left fun u hu => ih u ?_
          have := hv _ _ _ _ ht u hu
          omega
  exact (within _ t (Nat.lt_succ_self _)).symm

/-- The tree under a substitution, from the unfolding of the term. -/
theorem Sound.tree_eq_subst (hs : s.Sound st) (t : TermId) :
    s.tree st t = (st.tree t).subst (s.image st) := by
  rw [(extends_empty s).tree_eq (Sound.empty hs.valid) hs, tree_empty hs.valid]

end Subst

namespace Store

variable {st st' : Store} {t : TermId}

/-- The unfolding of an application. -/
theorem Valid.tree_app (hv : st.Valid) {op : String} {args : List TermId} {attrs : Attrs}
    (h : st.term? t = some (.app op args attrs)) : st.tree t = .app op (args.map st.tree) attrs := by
  rw [← Subst.tree_empty hv, (Subst.Sound.empty hv).tree_app h]
  congr 1
  exact List.map_congr_left fun u _ => Subst.tree_empty hv u

theorem Valid.tree_leaf (hv : st.Valid) {l : Leaf} (h : st.term? t = some (.leaf l)) :
    st.tree t = .leaf l := by
  rw [← Subst.tree_empty hv, (Subst.Sound.empty hv).tree_leaf h]

theorem Valid.tree_var (hv : st.Valid) {v : UInt32} (h : st.term? t = some (.var v)) :
    st.tree t = .var v := by
  rw [← Subst.tree_empty hv, (Subst.Sound.empty hv).tree_var h,
    Subst.image_of_unbound (Subst.get?_empty v)]

/-- What unfolds to an application is one. -/
theorem Valid.term?_of_tree_app (hv : st.Valid) {op : String} {ts : List Tree} {attrs : Attrs}
    (h : st.tree t = .app op ts attrs) :
    ∃ args, st.term? t = some (.app op args attrs) ∧ ts = args.map st.tree := by
  cases term : st.term? t with
  | none =>
    rw [tree, treeWithin, term] at h
    cases h
  | some x => cases x with
    | var v =>
      rw [hv.tree_var term] at h
      cases h
    | leaf l =>
      rw [hv.tree_leaf term] at h
      cases h
    | app op' args attrs' =>
      rw [hv.tree_app term] at h
      cases h
      exact ⟨args, rfl, rfl⟩

/-- The unfolding in a store that has grown. -/
theorem Grows.tree_eq (g : st.Grows st') (hv : st.Valid) (ht : st.Stored t) :
    st'.tree t = st.tree t := by
  rw [← Subst.tree_empty hv, ← Subst.tree_empty (g.valid hv)]
  exact (Subst.Sound.empty hv).tree_grows g ht

end Store

namespace Subst

variable {s : Subst} {st : Store} {t : TermId}

/-! ## Reifying -/

/-- What a term is read as: a term of the store, grown meanwhile, whose unfolding is the tree. -/
structure Reads (st : Store) (tree : Tree) (r : TermId × Store) : Prop where
  grows : st.Grows r.2
  stored : r.2.Stored r.1
  tree_eq : r.2.tree r.1 = tree

theorem mapOperands_reads {read : TermId → Store → TermId × Store} {tree : TermId → Tree}
    {ts : List TermId} (hv : st.Valid)
    (h : ∀ t ∈ ts, ∀ st', st.Grows st' → Reads st' (tree t) (read t st')) :
    st.Grows (mapOperands read ts st).2 ∧
      (∀ u ∈ (mapOperands read ts st).1, (mapOperands read ts st).2.Stored u) ∧
      (mapOperands read ts st).1.map (mapOperands read ts st).2.tree = ts.map tree := by
  induction ts generalizing st with
  | nil => exact ⟨.refl st, nofun, rfl⟩
  | cons t rest ih =>
    obtain ⟨first, stored, eq⟩ := h t (.head _) st (.refl st)
    obtain ⟨later, stored', eq'⟩ := ih (first.valid hv) fun u hu st' g =>
      h u (.tail _ hu) st' (first.trans g)
    refine ⟨first.trans later, ?_, ?_⟩
    · rintro u (_ | ⟨_, hu⟩)
      · exact later.stored stored
      · exact stored' u hu
    · refine List.cons_eq_cons.mpr ⟨?_, eq'⟩
      exact (later.tree_eq (first.valid hv) stored).trans eq

/-- The operands of a resolved term stay stored when the store grows, with trees less deep than that of
    the term. -/
theorem Sound.operand_grows (hs : s.Sound st) {op : String} {args : List TermId} {attrs : Attrs}
    (h : st.term? (s.deref st t) = some (.app op args attrs)) {u : TermId} (mem : u ∈ args)
    (g : st.Grows st') :
    s.Sound st' ∧ st'.Stored u ∧ s.tree st' u = s.tree st u ∧
      (s.tree st u).depth < (s.tree st t).depth := by
  have stored := hs.valid.stored h mem
  refine ⟨hs.grows g, g.stored stored, hs.tree_grows g stored, ?_⟩
  rw [hs.tree_of_app h]
  exact Tree.depth_lt (List.mem_map_of_mem mem)

theorem Sound.reifyWithin_reads (hs : s.Sound st) (ht : st.Stored t) {n : Nat}
    (hn : (s.tree st t).depth < n) : Reads st (s.tree st t) (s.reifyWithin n t st) := by
  induction n generalizing st t with
  | zero => omega
  | succ n ih =>
    have hu := hs.stored_deref ht
    have tree_self : (∀ op args attrs, st.term? (s.deref st t) ≠ some (.app op args attrs)) →
        st.tree (s.deref st t) = s.tree st t := by
      intro h
      obtain ⟨x, hx⟩ := Store.term?_of_stored hu
      cases x with
      | var v => rw [hs.valid.tree_var hx, hs.tree_of_var hx]
      | leaf l => rw [hs.valid.tree_leaf hx, hs.tree_of_leaf hx]
      | app op args attrs => exact absurd hx (h op args attrs)
    rw [reifyWithin]
    split
    · rename_i h
      refine ⟨.refl st, hu, tree_self fun op args attrs happ => ?_⟩
      rw [Store.app?_eq_some_iff.mpr happ] at h
      cases h
    · rename_i op args attrs h
      rw [Store.app?_eq_some_iff] at h
      have each : ∀ u ∈ args, ∀ st', st.Grows st' →
          Reads st' (s.tree st u) (s.reifyWithin n u st') := by
        intro u mem st' g
        obtain ⟨hs', stored, same, lt⟩ := hs.operand_grows h mem g
        rw [← same] at lt ⊢
        exact ih hs' stored (by omega)
      have operands := mapOperands_reads hs.valid each
      generalize mapOperands (s.reifyWithin n) args st = r at operands ⊢
      obtain ⟨us, st'⟩ := r
      obtain ⟨g, stored, eq⟩ := operands
      have same := hs.tree_of_app h
      rw [← eq] at same
      change Reads st _ (if us = args then _ else _)
      split
      · rename_i unchanged
        rw [unchanged] at same
        exact ⟨g, g.stored hu, ((g.valid hs.valid).tree_app (g.keeps _ _ h)).trans same.symm⟩
      · have made : st'.Grows (Store.app op us attrs st').2 := Store.app_grows stored
        refine ⟨g.trans made, Store.stored_app .., ?_⟩
        rw [(made.valid (g.valid hs.valid)).tree_app (Store.term?_app ..), same]
        congr 1
        exact List.map_congr_left fun u hu => made.tree_eq (g.valid hs.valid) (stored u hu)

/-- A reified term is stored, and unfolds to the tree of the term under the substitution. -/
theorem Sound.reify_reads (hs : s.Sound st) (ht : st.Stored t) :
    Reads st (s.tree st t) (s.reify t st) := hs.reifyWithin_reads ht (hs.depth_tree_lt t)

/-- What a term is read as under a substitution. -/
def reified (s : Subst) (st : Store) (t : TermId) : Tree := (s.reify t st).2.tree (s.reify t st).1

theorem Sound.reified_eq (hs : s.Sound st) (ht : st.Stored t) : s.reified st t = s.tree st t :=
  (hs.reify_reads ht).tree_eq

/-! ## Looking for a variable -/

theorem Sound.firstUnboundWithin_eq_head? (hs : s.Sound st) {n : Nat} (hn : (s.tree st t).depth < n) :
    s.firstUnboundWithin st n t = (s.tree st t).vars.head? := by
  induction n generalizing t with
  | zero => omega
  | succ n ih =>
    rw [firstUnboundWithin]
    split
    · rename_i h
      rw [hs.tree_of_var h]
      rfl
    · rename_i op args attrs h
      have each : ∀ u ∈ args, s.firstUnboundWithin st n u = (s.tree st u).vars.head? := by
        intro u mem
        obtain ⟨-, -, -, lt⟩ := hs.operand_grows h mem (.refl st)
        exact ih (by omega)
      rw [hs.tree_of_app h, Tree.vars_app, List.flatMap_map, List.head?_flatMap, ← List.head?_filterMap,
        ← List.head?_filterMap, List.filterMap_congr each]
    · rename_i noVar noApp
      rw [hs.tree_eq]
      split
      · exact absurd ‹_› (noVar _)
      · rfl
      · exact absurd ‹_› (noApp _ _ _)
      · rfl

/-- The first unbound variable is the leftmost one of the tree. -/
theorem Sound.firstUnbound_eq_head? (hs : s.Sound st) (t : TermId) :
    s.firstUnbound st t = (s.tree st t).vars.head? :=
  hs.firstUnboundWithin_eq_head? (hs.depth_tree_lt t)

/-! ## Ground bindings -/

/-- What variables are bound to is stored, and has no variables. -/
structure BindsGround (s : Subst) (st : Store) : Prop where
  stored : ∀ v t, s.get? v = some t → st.Stored t
  ground : ∀ v t, s.get? v = some t → (st.tree t).Ground

/-- From a ground term paths lead down to operands only. -/
theorem leads_of_ground (hv : st.Valid) {u : TermId} (ground : (st.tree t).Ground)
    (h : s.Leads st t u) : (st.tree u).Ground ∧ u.index < t.index := by
  cases h with
  | binding var _ =>
    rw [hv.tree_var var] at ground
    exact absurd .var (ground _)
  | operand app mem =>
    rw [hv.tree_app app] at ground
    exact ⟨ground.of_mem (List.mem_map_of_mem mem), hv _ _ _ _ app _ mem⟩

/-- Bindings to ground terms are acyclic. -/
theorem BindsGround.sound (h : s.BindsGround st) (hv : st.Valid) : s.Sound st where
  valid := hv
  stored := h.stored
  acyclic t cycle := by
    have lower : ∀ {u}, Relation.TransGen (s.Leads st) t u →
        (st.tree u).Ground ∨ u.index < t.index := by
      intro u path
      induction path with
      | single leads => cases leads with
        | binding _ bound => exact .inl (h.ground _ _ bound)
        | operand app mem => exact .inr (hv _ _ _ _ app _ mem)
      | tail _ leads ih =>
        rcases ih with ground | lt
        · exact .inl (leads_of_ground hv ground leads).1
        · cases leads with
          | binding _ bound => exact .inl (h.ground _ _ bound)
          | operand app mem => exact .inr (Nat.lt_trans (hv _ _ _ _ app _ mem) lt)
    have down : (st.tree t).Ground → ∀ {u}, Relation.TransGen (s.Leads st) t u →
        (st.tree u).Ground ∧ u.index < t.index := by
      intro ground u path
      induction path with
      | single leads => exact leads_of_ground hv ground leads
      | tail _ leads ih =>
        have step := leads_of_ground hv ih.1 leads
        exact ⟨step.1, Nat.lt_trans step.2 ih.2⟩
    rcases lower cycle with ground | lt
    · exact Nat.lt_irrefl _ (down ground cycle).2
    · exact Nat.lt_irrefl _ lt

/-- A ground term is read as it stands. -/
theorem Sound.tree_of_ground (hs : s.Sound st) (h : (st.tree t).Ground) :
    s.tree st t = st.tree t := by
  rw [hs.tree_eq_subst]
  exact h.subst _

end Subst

end Regraft
