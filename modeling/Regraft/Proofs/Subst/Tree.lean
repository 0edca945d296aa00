import Regraft.Proofs.Subst.Acyclic
import Regraft.Proofs.Term.Tree

/-
  Terms under a substitution as trees: `Subst.tree` unfolds a stored term and follows bindings on
  the way. On a sound substitution the bound of the unfolding is never met (`Sound.tree_eq`). A store
  that grows changes no tree, and a substitution that is extended acts on the trees as a substitution
  for the variables that were still open (`Extends.tree_eq`).
-/

namespace Regraft

open Relation

namespace Subst

variable {s s' : Subst} {st st' : Store} {t u : TermId} {v : UInt32}

/-! ## Dereferencing -/

/-- Induction along the paths down from a stored term. -/
theorem Sound.leads_induct (hs : s.Sound st) {P : TermId → Prop}
    (step : ∀ t, (∀ u, s.Leads st t u → P u) → P t) (t : TermId) : P t := by
  let places := (Finset.range st.size).image TermId.mk
  generalize hn : reach (s.Leads st) places t = n
  induction n using Nat.strongRecOn generalizing t with
  | ind n ih =>
    refine step t fun u hu => ih _ ?_ u rfl
    have ht : t ∈ places :=
      Finset.mem_image.mpr ⟨t.index, Finset.mem_range.mpr hu.stored_left, rfl⟩
    exact hn ▸ reach_lt (hs.acyclic t) ht hu

theorem hop_eq_none_iff :
    s.hop st t = none ↔ ∀ v, st.term? t = some (.var v) → s.get? v = none := by
  unfold hop
  rw [Option.bind_eq_none_iff]
  simp only [Store.var?_eq_some_iff]

theorem Sound.deref_of_hop (hs : s.Sound st) (h : s.hop st t = some u) :
    s.deref st t = s.deref st u := by
  rw [hs.deref_eq t, h]

theorem Sound.deref_of_hop_none (hs : s.Sound st) (h : s.hop st t = none) : s.deref st t = t := by
  rw [hs.deref_eq t, h]

/-- Nothing is left to follow. -/
theorem Sound.hop_deref (hs : s.Sound st) (t : TermId) : s.hop st (s.deref st t) = none := by
  induction t using hs.leads_induct with
  | step t ih =>
    cases h : s.hop st t with
    | none => rwa [hs.deref_of_hop_none h]
    | some u =>
      rw [hs.deref_of_hop h]
      exact ih u (leads_of_hop h)

theorem Sound.deref_deref (hs : s.Sound st) (t : TermId) :
    s.deref st (s.deref st t) = s.deref st t := hs.deref_of_hop_none (hs.hop_deref t)

/-- A variable that `deref` ends at is unbound. -/
theorem Sound.get?_of_deref (hs : s.Sound st) (h : st.term? (s.deref st t) = some (.var v)) :
    s.get? v = none := hop_eq_none_iff.mp (hs.hop_deref t) v h

theorem Sound.leads_deref (hs : s.Sound st) (t : TermId) :
    ReflTransGen (s.Leads st) t (s.deref st t) := by
  induction t using hs.leads_induct with
  | step t ih =>
    cases h : s.hop st t with
    | none =>
      rw [hs.deref_of_hop_none h]
    | some u =>
      rw [hs.deref_of_hop h]
      exact .head (leads_of_hop h) (ih u (leads_of_hop h))

theorem Sound.stored_deref (hs : s.Sound st) (ht : st.Stored t) : st.Stored (s.deref st t) := by
  rcases reflTransGen_iff_eq_or_transGen.mp (hs.leads_deref t) with h | h
  · rwa [h]
  · exact hs.stored_of_transGen h

theorem Sound.deref_grows (hs : s.Sound st) (g : st.Grows st') (ht : st.Stored t) :
    s.deref st' t = s.deref st t := by
  induction t using hs.leads_induct with
  | step t ih =>
    have hop : s.hop st' t = s.hop st t := by
      unfold Subst.hop
      rw [g.var?_eq ht]
    cases h : s.hop st t with
    | none => rw [hs.deref_of_hop_none h, (hs.grows g).deref_of_hop_none (hop.trans h)]
    | some u =>
      rw [hs.deref_of_hop h, (hs.grows g).deref_of_hop (hop.trans h)]
      exact ih u (leads_of_hop h) ((leads_of_hop h).stored_right hs)

/-! ## Height -/

/-- The places of applications. -/
def applications (st : Store) : Finset TermId :=
  ((Finset.range st.size).image TermId.mk).filter fun t => (st.app? t).isSome

theorem card_applications_le : (applications st).card ≤ st.size :=
  calc (applications st).card
    _ ≤ ((Finset.range st.size).image TermId.mk).card := Finset.card_filter_le ..
    _ ≤ (Finset.range st.size).card := Finset.card_image_le
    _ = st.size := Finset.card_range _

/-- A bound on the number of applications on a path down. -/
noncomputable def height (s : Subst) (st : Store) (t : TermId) : Nat :=
  reach (s.Leads st) (applications st) t

theorem height_lt_depthBound : s.height st t < depthBound st :=
  Nat.lt_succ_of_le (Nat.le_trans reach_le card_applications_le)

theorem height_mono (h : ReflTransGen (s.Leads st) t u) : s.height st u ≤ s.height st t := by
  induction h with
  | refl => exact Nat.le_refl _
  | tail _ h ih => exact Nat.le_trans (reach_mono h) ih

theorem Sound.height_deref_le (hs : s.Sound st) (t : TermId) :
    s.height st (s.deref st t) ≤ s.height st t := height_mono (hs.leads_deref t)

variable {op : String} {args : List TermId} {attrs : Attrs}

theorem Sound.height_operand_lt (hs : s.Sound st) (h : st.term? t = some (.app op args attrs))
    (hu : u ∈ args) : s.height st u < s.height st t := by
  refine reach_lt (hs.acyclic t) (Finset.mem_filter.mpr ⟨?_, ?_⟩) (.operand h hu)
  · exact Finset.mem_image.mpr ⟨t.index, Finset.mem_range.mpr (Store.stored_of_term? h), rfl⟩
  · rw [Store.app?_eq_some_iff.mpr h]
    rfl

/-- The operands of a resolved term are less high than the term. -/
theorem Sound.height_lt (hs : s.Sound st)
    (h : st.term? (s.deref st t) = some (.app op args attrs)) (hu : u ∈ args) :
    s.height st u < s.height st t :=
  Nat.lt_of_lt_of_le (hs.height_operand_lt h hu) (hs.height_deref_le t)

/-- Induction on the operands of a term under a sound substitution. -/
theorem Sound.induct (hs : s.Sound st) {P : TermId → Prop}
    (step : ∀ t, (∀ op args attrs, st.term? (s.deref st t) = some (.app op args attrs) →
      ∀ u ∈ args, P u) → P t) (t : TermId) : P t := by
  generalize hn : s.height st t = n
  induction n using Nat.strongRecOn generalizing t with
  | ind n ih =>
    exact step t fun op args attrs h u hu => ih _ (hn ▸ hs.height_lt h hu) u rfl

/-! ## Trees -/

/-- Unfold at most `depth` layers, following bindings. -/
def treeWithin (s : Subst) (st : Store) : Nat → TermId → Tree
  | 0, t => .unknown t
  | depth + 1, t => match st.term? (s.deref st t) with
    | some (.var v) => .var v
    | some (.leaf l) => .leaf l
    | some (.app op args attrs) => .app op (args.map (s.treeWithin st depth)) attrs
    | none => .unknown (s.deref st t)

/-- The tree of a term under a substitution. -/
def tree (s : Subst) (st : Store) (t : TermId) : Tree := s.treeWithin st (depthBound st) t

theorem Sound.treeWithin_stable (hs : s.Sound st) {n : Nat} (hn : s.height st t < n) :
    s.treeWithin st (n + 1) t = s.treeWithin st n t := by
  induction n generalizing t with
  | zero => omega
  | succ n ih =>
    rw [treeWithin, treeWithin]
    split
    · rfl
    · rfl
    · rename_i op args attrs h
      congr 1
      refine List.map_congr_left fun u hu => ih ?_
      have := hs.height_lt h hu
      omega
    · rfl

/-- The equation of `tree`. -/
theorem Sound.tree_eq (hs : s.Sound st) (t : TermId) :
    s.tree st t = match st.term? (s.deref st t) with
      | some (.var v) => .var v
      | some (.leaf l) => .leaf l
      | some (.app op args attrs) => .app op (args.map (s.tree st)) attrs
      | none => .unknown (s.deref st t) := by
  unfold tree depthBound
  rw [treeWithin]
  split
  · rfl
  · rfl
  · rename_i op args attrs h
    congr 1
    refine List.map_congr_left fun u hu => (hs.treeWithin_stable ?_).symm
    have := hs.height_lt h hu
    have : s.height st t < st.size + 1 := height_lt_depthBound
    omega
  · rfl

theorem Sound.tree_deref (hs : s.Sound st) (t : TermId) :
    s.tree st (s.deref st t) = s.tree st t := by
  rw [hs.tree_eq, hs.tree_eq t, hs.deref_deref]

theorem Sound.tree_of_app (hs : s.Sound st)
    (h : st.term? (s.deref st t) = some (.app op args attrs)) :
    s.tree st t = .app op (args.map (s.tree st)) attrs := by
  rw [hs.tree_eq, h]

theorem Sound.tree_of_leaf (hs : s.Sound st) {l : Leaf}
    (h : st.term? (s.deref st t) = some (.leaf l)) : s.tree st t = .leaf l := by
  rw [hs.tree_eq, h]

theorem Sound.tree_of_var (hs : s.Sound st) (h : st.term? (s.deref st t) = some (.var v)) :
    s.tree st t = .var v := by
  rw [hs.tree_eq, h]

/-- A stored term whose tree is an application leads to one. -/
theorem Sound.exists_app (hs : s.Sound st) (ht : st.Stored t) {xs : List Tree}
    (tree : s.tree st t = .app op xs attrs) :
    ∃ us, st.term? (s.deref st t) = some (.app op us attrs) := by
  obtain ⟨x, hx⟩ := Store.term?_of_stored (hs.stored_deref ht)
  cases x with
  | var v => cases tree.symm.trans (hs.tree_of_var hx)
  | leaf l => cases tree.symm.trans (hs.tree_of_leaf hx)
  | app f us attrs' =>
    cases tree.symm.trans (hs.tree_of_app hx)
    exact ⟨us, hx⟩

/-- A stored term that is no variable is not followed. -/
theorem Sound.deref_of_ne_var (hs : s.Sound st) (h : ∀ v, st.term? t ≠ some (.var v)) :
    s.deref st t = t := hs.deref_of_hop_none (hop_eq_none_iff.mpr fun v hv => absurd hv (h v))

theorem Sound.tree_app (hs : s.Sound st) (h : st.term? t = some (.app op args attrs)) :
    s.tree st t = .app op (args.map (s.tree st)) attrs := by
  refine hs.tree_of_app ?_
  rw [hs.deref_of_ne_var fun v hv => by rw [h] at hv; cases hv]
  exact h

theorem Sound.tree_leaf (hs : s.Sound st) {l : Leaf} (h : st.term? t = some (.leaf l)) :
    s.tree st t = .leaf l := by
  refine hs.tree_of_leaf ?_
  rw [hs.deref_of_ne_var fun v hv => by rw [h] at hv; cases hv]
  exact h

/-- What a variable stands for. -/
def image (s : Subst) (st : Store) (v : UInt32) : Tree :=
  match s.get? v with
  | some t => s.tree st t
  | none => .var v

theorem image_of_bound (h : s.get? v = some t) : s.image st v = s.tree st t := by
  unfold image
  rw [h]

theorem image_of_unbound (h : s.get? v = none) : s.image st v = .var v := by
  unfold image
  rw [h]

theorem Sound.tree_var (hs : s.Sound st) (h : st.term? t = some (.var v)) :
    s.tree st t = s.image st v := by
  have hop : s.hop st t = s.get? v := by
    rw [Subst.hop, Store.var?_eq_some_iff.mpr h]
    rfl
  cases hb : s.get? v with
  | none =>
    rw [image_of_unbound hb]
    exact hs.tree_of_var (by rw [hs.deref_of_hop_none (hop.trans hb)]; exact h)
  | some u => rw [image_of_bound hb, ← hs.tree_deref t, hs.deref_of_hop (hop.trans hb), hs.tree_deref]

/-- A tree in a store that has grown is the same tree. -/
theorem Sound.tree_grows (hs : s.Sound st) (g : st.Grows st') (ht : st.Stored t) :
    s.tree st' t = s.tree st t := by
  induction t using hs.induct with
  | step t ih =>
    rw [(hs.grows g).tree_eq, hs.tree_eq, hs.deref_grows g ht, g.term?_eq (hs.stored_deref ht)]
    split
    · rfl
    · rfl
    · rename_i op args attrs h
      congr 1
      exact List.map_congr_left fun u hu => ih op args attrs h u hu (hs.valid.stored h hu)
    · rfl

/-- The bound on the depth of searches down a term exceeds its depth. -/
theorem Sound.depth_tree_lt (hs : s.Sound st) (t : TermId) :
    (s.tree st t).depth < depthBound st := by
  refine Nat.lt_of_le_of_lt ?_ (height_lt_depthBound : s.height st t < _)
  induction t using hs.induct with
  | step t ih =>
    rw [hs.tree_eq]
    split
    · exact Nat.zero_le _
    · exact Nat.zero_le _
    · rename_i op args attrs h
      have pos : 0 < s.height st t := by
        have app : s.deref st t ∈ applications st := by
          refine Finset.mem_filter.mpr ⟨?_, ?_⟩
          · have := Store.stored_of_term? h
            exact Finset.mem_image.mpr ⟨_, Finset.mem_range.mpr this, rfl⟩
          · rw [Store.app?_eq_some_iff.mpr h]
            rfl
        classical
        exact Finset.card_pos.mpr ⟨_, Finset.mem_filter.mpr ⟨app, hs.leads_deref t⟩⟩
      rw [Tree.depth_app, List.map_map]
      refine Tree.foldr_max_lt pos fun n hn => ?_
      obtain ⟨u, hu, rfl⟩ := List.mem_map.mp hn
      exact Nat.lt_of_le_of_lt (ih op args attrs h u hu) (hs.height_lt h hu)
    · exact Nat.zero_le _

/-- The variables of a tree are those that bindings lead to. -/
theorem Sound.exists_deref_of_hasVar (hs : s.Sound st) (h : (s.tree st t).HasVar v) :
    ∃ u, st.term? (s.deref st u) = some (.var v) := by
  induction t using hs.induct with
  | step t ih =>
    rw [hs.tree_eq] at h
    split at h
    · rename_i w hw
      rw [Tree.hasVar_var] at h
      exact ⟨t, h ▸ hw⟩
    · exact absurd h Tree.not_hasVar_leaf
    · rename_i op args attrs ha
      obtain ⟨_, hm, hv⟩ := Tree.hasVar_app.mp h
      obtain ⟨u, hu, rfl⟩ := List.mem_map.mp hm
      exact ih op args attrs ha u hu hv
    · exact absurd h Tree.not_hasVar_unknown

/-- The variables of a tree are unbound. -/
theorem Sound.get?_of_hasVar (hs : s.Sound st) (h : (s.tree st t).HasVar v) : s.get? v = none := by
  obtain ⟨u, hu⟩ := hs.exists_deref_of_hasVar h
  exact hs.get?_of_deref hu

/-- An unbound variable that can be reached occurs in the tree. -/
theorem Sound.hasVar_of_leads (hs : s.Sound st) (h : ReflTransGen (s.Leads st) t u)
    (hu : st.term? u = some (.var v)) (hv : s.get? v = none) : (s.tree st t).HasVar v := by
  induction h using ReflTransGen.head_induction_on with
  | refl =>
    rw [hs.tree_var hu, image_of_unbound hv]
    exact .var
  | head h _ ih => cases h with
    | binding var bound => rwa [hs.tree_var var, image_of_bound bound]
    | operand app mem =>
      rw [hs.tree_app app]
      exact .app (List.mem_map_of_mem mem) ih

/-- Nothing is said of the labels of an image but for bound variables. -/
theorem over_image {has : Tree.Label → Prop} (h : ∀ t, s.get? v = some t → (s.tree st t).Over has) :
    (s.image st v).Over has := by
  cases hb : s.get? v with
  | none =>
    rw [image_of_unbound hb]
    exact .var v
  | some t =>
    rw [image_of_bound hb]
    exact h t hb

/-! ## Extension -/

/-- All bindings are kept. -/
def Extends (s s' : Subst) : Prop := ∀ v t, s.get? v = some t → s'.get? v = some t

theorem Extends.refl (s : Subst) : s.Extends s := fun _ _ h => h

theorem Extends.trans {a b c : Subst} (hab : a.Extends b) (hbc : b.Extends c) : a.Extends c :=
  fun v t h => hbc v t (hab v t h)

/-- A tree under a longer substitution is the old tree with the new images put in. -/
theorem Extends.tree_eq (h : s.Extends s') (hs : s.Sound st) (hs' : s'.Sound st) (t : TermId) :
    s'.tree st t = (s.tree st t).subst (s'.image st) := by
  induction t using hs.leads_induct with
  | step t ih =>
    cases ht : st.term? t with
    | none =>
      have ne : ∀ v, st.term? t ≠ some (.var v) := fun v hv => nomatch ht.symm.trans hv
      rw [hs.tree_eq, hs'.tree_eq, hs.deref_of_ne_var ne, hs'.deref_of_ne_var ne, ht]
      rfl
    | some x => cases x with
      | var v =>
        rw [hs.tree_var ht, hs'.tree_var ht]
        cases hb : s.get? v with
        | none => rw [image_of_unbound hb, Tree.subst_var]
        | some u =>
          rw [image_of_bound hb, image_of_bound (h v u hb)]
          exact ih u (.binding ht hb)
      | leaf l => rw [hs.tree_leaf ht, hs'.tree_leaf ht, Tree.subst_leaf]
      | app op args attrs =>
        rw [hs.tree_app ht, hs'.tree_app ht, Tree.subst_app, List.map_map]
        congr 1
        exact List.map_congr_left fun u hu => ih u (.operand ht hu)

end Subst

end Regraft
