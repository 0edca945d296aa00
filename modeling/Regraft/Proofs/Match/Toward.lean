import Regraft.Proofs.Search.Goal
import Regraft.Proofs.Term.Equal
import Regraft.Proofs.Unify.Ground

/-
  Matching a pattern with a ground term, seen from an assignment of ground trees to the variables that
  makes the two equal. A substitution on the way to the assignment binds variables to nothing that is
  not equal to what they are assigned (`Subst.Toward`). As long as that is so, the pattern still fits
  the term (`Fits.advance`), and what unification binds leads on toward the assignment
  (`Fits.unify`).
-/

namespace Regraft

open Regraft.Tree (Alike Equal Plain)

/-- The labels of plain trees. -/
def Vocabulary.plain (F : Facts) : Vocabulary F where
  has := Tree.plainLabel F
  fills _ h := h
  nests _ _ _ _ _ := ⟨rfl, fun _ => rfl⟩

variable {F : Facts} {θ : UInt32 → Tree} {ses ses' : Session} {st st' : Store} {s s' : Subst}
  {a b x y : TermId}

/-- Nothing is required to stay distinct, and what variables are bound to is ground and equal to what
    they are assigned. -/
structure Subst.Toward (F : Facts) (θ : UInt32 → Tree) (st : Store) (s : Subst) : Prop where
  constraints : s.constraints = []
  ground : ∀ v u, s.get? v = some u → (s.tree st u).Ground
  equal : ∀ v u, s.get? v = some u → Equal F (s.tree st u) (θ v)

theorem Subst.Toward.grows (h : s.Toward F θ st) (hs : s.Sound st) (g : st.Grows st') :
    s.Toward F θ st' where
  constraints := h.constraints
  ground v u hv := by
    rw [hs.tree_grows g (hs.stored v u hv)]
    exact h.ground v u hv
  equal v u hv := by
    rw [hs.tree_grows g (hs.stored v u hv)]
    exact h.equal v u hv

/-- A variable bound to a ground term that is equal to what it is assigned. -/
theorem Subst.Toward.bind (h : s.Toward F θ st) (hs : s.Sound st) (hb : st.Stored b) {v : UInt32}
    (hv : s.get? v = none) (ground : (s.tree st b).Ground) (equal : Equal F (s.tree st b) (θ v)) :
    (s.bind v b).Toward F θ st := by
  have hs' := hs.bind hb hv (ground v)
  have keeps : ∀ u, (s.tree st u).Ground → (s.bind v b).tree st u = s.tree st u := by
    intro u hu
    rw [(extends_bind hv).tree_eq hs hs']
    exact hu.subst _
  have bound : ∀ w u, (s.bind v b).get? w = some u →
      (s.tree st u).Ground ∧ Equal F (s.tree st u) (θ w) := by
    intro w u hw
    rw [get?_bind] at hw
    split at hw
    · rename_i eq
      cases hw
      exact ⟨ground, eq ▸ equal⟩
    · exact ⟨h.ground w u hw, h.equal w u hw⟩
  refine ⟨h.constraints, fun w u hw => ?_, fun w u hw => ?_⟩
  · rw [keeps u (bound w u hw).1]
    exact (bound w u hw).1
  · rw [keeps u (bound w u hw).1]
    exact (bound w u hw).2

/-- A pattern and a ground term that the assignment makes equal, with a substitution on the way. -/
structure Fits (F : Facts) (θ : UInt32 → Tree) (ses : Session) (s : Subst) (a b : TermId) :
    Prop where
  ready : Ready (Vocabulary.plain F) ses s a b
  toward : s.Toward F θ ses.store
  ground : (s.tree ses.store b).Ground
  equal : Equal F ((s.tree ses.store a).subst θ) (s.tree ses.store b)

theorem Subst.depthBound_le_pairBound (st : Store) : depthBound st ≤ pairBound st := by
  unfold depthBound pairBound
  exact Nat.le_mul_of_pos_left _ (Nat.mul_pos (Nat.succ_pos _) (Nat.succ_pos _))

namespace Fits

theorem plainRight (h : Fits F θ ses s a b) : Plain F (s.tree ses.store b) := h.ready.overRight

theorem plainLeft (h : Fits F θ ses s a b) : Plain F ((s.tree ses.store a).subst θ) :=
  h.equal.plain_iff.mpr h.plainRight

/-- The ground term stays as it is. -/
theorem tree_right (h : Fits F θ ses s a b)
    (adv : Subst.Advance (Tree.plainLabel F) ses.store s ses'.store s') :
    s'.tree ses'.store b = s.tree ses.store b := by
  rw [adv.tree_eq h.ready.sound h.ready.right]
  exact h.ground.subst _

/-- The pattern still fits when the search has gone on toward the assignment. -/
theorem advance (h : Fits F θ ses s a b) (g : ses.Grows ses')
    (adv : Subst.Advance (Tree.plainLabel F) ses.store s ses'.store s')
    (toward : s'.Toward F θ ses'.store) : Fits F θ ses' s' a b := by
  have right := h.tree_right adv
  refine ⟨h.ready.advance g adv, toward, ?_, ?_⟩
  · rw [right]
    exact h.ground
  · rw [right, adv.tree_eq h.ready.sound h.ready.left, Tree.subst_subst]
    refine .trans (.subst_congr fun v _ => ?_) h.equal
    cases hv : s'.get? v with
    | none =>
      rw [Subst.image_of_unbound hv]
      exact .refl _
    | some u =>
      rw [Subst.image_of_bound hv, (toward.ground v u hv).subst]
      exact toward.equal v u hv

theorem grows (h : Fits F θ ses s a b) (g : ses.Grows ses') : Fits F θ ses' s a b :=
  h.advance g (.of_grows h.ready.sound g.store) (h.toward.grows h.ready.sound g.store)

theorem deref (h : Fits F θ ses s a b) :
    Fits F θ ses s (s.deref ses.store a) (s.deref ses.store b) where
  ready := h.ready.deref
  toward := h.toward
  ground := by
    rw [h.ready.sound.tree_deref]
    exact h.ground
  equal := by
    rw [h.ready.sound.tree_deref, h.ready.sound.tree_deref]
    exact h.equal

/-- Parts of the two terms that the assignment makes alike. -/
theorem part (h : Fits F θ ses s a b) (ready : Ready (Vocabulary.plain F) ses s x y)
    (vars : ∀ v, (s.tree ses.store x).HasVar v → (s.tree ses.store a).HasVar v)
    (ground : (s.tree ses.store y).Ground)
    (alike : Alike F ((s.tree ses.store x).subst θ) (s.tree ses.store y)) : Fits F θ ses s x y where
  ready := ready
  toward := h.toward
  ground := ground
  equal := by
    refine alike.equal ?_ ready.overRight
    exact Tree.over_subst ready.overLeft fun v hv => h.plainLeft.of_subst (vars v hv)

/-! ## Unification -/

/-- A pattern that is no application is bound to the term, or is the same leaf. -/
theorem unifyBindings (h : Fits F θ ses s a b)
    (none : ses.store.app? (s.deref ses.store a) = none) :
    ∃ t, s.unifyBindings ses.store a b = some t ∧ t.Toward F θ ses.store := by
  have hs := h.ready.sound
  have h' := h.deref
  obtain ⟨x, hx⟩ := Store.term?_of_stored h'.ready.left
  obtain ⟨y, hy⟩ := Store.term?_of_stored h'.ready.right
  obtain ⟨n, hn⟩ := Nat.exists_eq_add_one.mpr
    (Nat.lt_of_lt_of_le (Nat.succ_pos _) (Subst.depthBound_le_pairBound ses.store))
  unfold Subst.unifyBindings
  rw [hn, Subst.unifyWithin]
  by_cases same : s.deref ses.store a = s.deref ses.store b
  · simp only [same, if_true]
    exact ⟨s, rfl, h.toward⟩
  simp only [same, if_false]
  rw [hx, hy]
  have ground := h.ground
  have equal := h.equal
  have bind : ∀ v, x = .var v → (∀ w, y ≠ .var w) →
      ∃ t, s.bindTo ses.store v (s.deref ses.store b) = some t ∧ t.Toward F θ ses.store := by
    rintro v rfl -
    have free : s.occurs ses.store v (s.deref ses.store b) = false := by
      rw [← Bool.not_eq_true, hs.occurs_iff]
      exact h'.ground v
    refine ⟨_, by rw [Subst.bindTo, free]; rfl, ?_⟩
    refine h.toward.bind hs h'.ready.right (hs.get?_of_deref hx) h'.ground ?_
    rw [hs.tree_of_var hx, Tree.subst_var] at equal
    rw [hs.tree_deref]
    exact equal.symm
  cases y with
  | var w =>
    rw [hs.tree_of_var hy] at ground
    exact absurd .var (ground w)
  | leaf m => cases x with
    | var v => exact bind v rfl fun w => Term.noConfusion
    | leaf l =>
      rw [hs.tree_of_leaf hx, hs.tree_of_leaf hy] at equal
      cases equal.alike with
      | leaf leaves =>
        rcases leaves.eq_or_valueEq with rfl | value
        · exact absurd (Store.term?_inj hx hy) same
        · exact ⟨s, by simp only [value, if_true], h.toward⟩
    | app op args attrs =>
      rw [Store.app?_eq_some_iff.mpr hx] at none
      cases none
  | app g ys attrs' => cases x with
    | var v => exact bind v rfl fun w => Term.noConfusion
    | leaf l =>
      rw [hs.tree_of_leaf hx, hs.tree_of_app hy] at equal
      cases equal.alike
    | app op args attrs =>
      rw [Store.app?_eq_some_iff.mpr hx] at none
      cases none

theorem unify (h : Fits F θ ses s a b) (none : ses.store.app? (s.deref ses.store a) = none) :
    ∃ t, s.unify ses.store a b = some t ∧ t.Toward F θ ses.store := by
  obtain ⟨t, ht, toward⟩ := h.unifyBindings none
  exact ⟨t, Subst.unify_of_free toward.constraints ht, toward⟩

end Fits

end Regraft
