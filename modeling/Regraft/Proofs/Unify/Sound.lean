import Regraft.Proofs.Subst.Advance
import Regraft.Unify.Disequality

/-
  Unification is sound: the bindings that it adds make the two terms alike, whatever the facts, and
  leave a sound substitution. Looking at the disequalities again only drops some of them.
-/

namespace Regraft

namespace Subst

variable {F : Facts} {V : Vocabulary F} {st : Store} {s s' : Subst} {a b : TermId}

/-- A step of unification over one store: sites are kept, and the terms become alike. -/
structure Unifies (V : Vocabulary F) (st : Store) (s s' : Subst) (a b : TermId) : Prop where
  advance : Advance V.has st s st s'
  sites : s'.sites = s.sites
  alike : ∀ G, Tree.Alike G (s'.tree st a) (s'.tree st b)

/-- A variable bound to a term is alike the term. -/
theorem unifies_bind {v : UInt32} (hs : s.Sound st) (hb : st.Stored b)
    (ha : st.term? (s.deref st a) = some (.var v)) (stored : st.Stored a)
    (free : ¬ (s.tree st b).HasVar v) (labels : (s.tree st b).Over V.has) :
    Unifies V st s (s.bind v (s.deref st b)) a b := by
  have hv := hs.get?_of_deref ha
  have hb' := hs.stored_deref hb
  have adv : Advance V.has st s st (s.bind v (s.deref st b)) := by
    refine .bind hs hb' hv ?_ ?_ <;> rwa [hs.tree_deref]
  refine ⟨adv, rfl, fun G => ?_⟩
  have bound : (s.bind v (s.deref st b)).tree st a = (s.bind v (s.deref st b)).tree st b := by
    rw [← adv.tree_deref hs stored, adv.sound.tree_var ha,
      image_of_bound (by rw [get?_bind, if_pos rfl]), adv.tree_deref hs hb]
  rw [bound]
  exact .refl _

theorem Unifies.symm (h : Unifies V st s s' a b) : Unifies V st s s' b a :=
  ⟨h.advance, h.sites, fun G => (h.alike G).symm⟩

theorem unifies_bindTo {v : UInt32} (hs : s.Sound st) (hb : st.Stored b)
    (ha : st.term? (s.deref st a) = some (.var v)) (stored : st.Stored a)
    (labels : (s.tree st b).Over V.has) (h : s.bindTo st v (s.deref st b) = some s') :
    Unifies V st s s' a b := by
  unfold bindTo at h
  split at h
  · cases h
  · rename_i free
    rw [hs.occurs_iff, hs.tree_deref] at free
    cases h
    exact unifies_bind hs hb ha stored free labels

/-- Pairs unified one after the other are alike in the end. -/
theorem unifyPairs_sound {unify : TermId → TermId → Subst → Option Subst}
    {pairs : List (TermId × TermId)} (hs : s.Sound st)
    (stored : ∀ p ∈ pairs, st.Stored p.1 ∧ st.Stored p.2)
    (labels : ∀ p ∈ pairs, (s.tree st p.1).Over V.has ∧ (s.tree st p.2).Over V.has)
    (each : ∀ p ∈ pairs, ∀ {s s'}, s.Sound st → (s.tree st p.1).Over V.has →
      (s.tree st p.2).Over V.has → unify p.1 p.2 s = some s' → Unifies V st s s' p.1 p.2)
    (h : unifyPairs unify pairs s = some s') :
    Advance V.has st s st s' ∧ s'.sites = s.sites ∧
      ∀ p ∈ pairs, ∀ G, Tree.Alike G (s'.tree st p.1) (s'.tree st p.2) := by
  induction pairs generalizing s with
  | nil =>
    cases h
    exact ⟨.refl hs, rfl, nofun⟩
  | cons p rest ih =>
    obtain ⟨r, hr, h⟩ := Option.bind_eq_some_iff.mp h
    rw [List.forall_mem_cons] at stored labels each
    obtain ⟨adv, sites, alike⟩ := each.1 hs labels.1.1 labels.1.2 hr
    obtain ⟨adv', sites', alike'⟩ := ih adv.sound stored.2
      (fun q hq => ⟨adv.labels _ (stored.2 q hq).1 (labels.2 q hq).1,
        adv.labels _ (stored.2 q hq).2 (labels.2 q hq).2⟩) each.2 h
    refine ⟨adv.trans adv', sites'.trans sites, List.forall_mem_cons.mpr ⟨fun G => ?_, alike'⟩⟩
    exact adv'.alike adv.sound stored.1.1 stored.1.2 (alike G)

theorem unifyWithin_sound {n : Nat} (hs : s.Sound st) (ha : st.Stored a) (hb : st.Stored b)
    (va : (s.tree st a).Over V.has) (vb : (s.tree st b).Over V.has)
    (h : unifyWithin st n a b s = some s') : Unifies V st s s' a b := by
  induction n generalizing a b s s' with
  | zero => cases h
  | succ n ih =>
    rw [unifyWithin] at h
    have ha' := hs.stored_deref ha
    have hb' := hs.stored_deref hb
    by_cases same : s.deref st a = s.deref st b
    · simp only [same, if_true] at h
      cases h
      refine ⟨.refl hs, rfl, fun G => ?_⟩
      rw [← hs.tree_deref a, same, hs.tree_deref]
      exact .refl _
    simp only [same, if_false] at h
    obtain ⟨x, hx⟩ := Store.term?_of_stored ha'
    obtain ⟨y, hy⟩ := Store.term?_of_stored hb'
    rw [hx, hy] at h
    cases x with
    | var i => cases y with
      | var j =>
        have ne : i ≠ j := by
          rintro rfl
          exact same (Store.term?_inj hx hy)
        simp only [Option.some.injEq] at h
        split at h <;> cases h
        · refine (unifies_bind hs ha hy hb ?_ va).symm
          rw [hs.tree_of_var hx, Tree.hasVar_var]
          exact ne.symm
        · refine unifies_bind hs hb hx ha ?_ vb
          rw [hs.tree_of_var hy, Tree.hasVar_var]
          exact ne
      | leaf m => exact unifies_bindTo hs hb hx ha vb h
      | app g ys attrs' => exact unifies_bindTo hs hb hx ha vb h
    | leaf l => cases y with
      | var j => exact (unifies_bindTo hs ha hy hb va h).symm
      | leaf m =>
        simp only at h
        split at h
        · rename_i value
          cases h
          rw [hs.tree_of_leaf hx, Tree.over_leaf] at va
          rw [hs.tree_of_leaf hy, Tree.over_leaf] at vb
          refine ⟨.refl hs, rfl, fun G => ?_⟩
          rw [hs.tree_of_leaf hx, hs.tree_of_leaf hy]
          exact .leaf (V.same_of_valueEq va vb value)
        · cases h
      | app g ys attrs' => cases h
    | app f xs attrs => cases y with
      | var j => exact (unifies_bindTo hs ha hy hb va h).symm
      | leaf m => cases h
      | app g ys attrs' =>
        simp only at h
        split at h
        · rename_i cond
          obtain ⟨rfl, length, -⟩ := cond
          rw [hs.tree_of_app hx, Tree.over_app] at va
          rw [hs.tree_of_app hy, Tree.over_app] at vb
          have left : ∀ p ∈ xs.zip ys, p.1 ∈ xs := fun p hp => (List.of_mem_zip hp).1
          have right : ∀ p ∈ xs.zip ys, p.2 ∈ ys := fun p hp => (List.of_mem_zip hp).2
          have stored : ∀ p ∈ xs.zip ys, st.Stored p.1 ∧ st.Stored p.2 := fun p hp =>
            ⟨hs.valid.stored hx (left p hp), hs.valid.stored hy (right p hp)⟩
          obtain ⟨adv, sites, alike⟩ := unifyPairs_sound hs stored
            (fun p hp => ⟨va.2 _ (List.mem_map_of_mem (left p hp)),
              vb.2 _ (List.mem_map_of_mem (right p hp))⟩)
            (fun p hp _ _ hs va vb h => ih hs (stored p hp).1 (stored p hp).2 va vb h) h
          refine ⟨adv, sites, fun G => ?_⟩
          rw [← adv.tree_deref hs ha, ← adv.tree_deref hs hb, adv.sound.tree_app hx,
            adv.sound.tree_app hy]
          refine .congr (.of_forall₂ ?_)
          rw [List.forall₂_map_left_iff, List.forall₂_map_right_iff, List.forall₂_iff_zip]
          exact ⟨length, fun hp => alike _ hp G⟩
        · cases h

/-- Unified terms are alike. -/
theorem unifyBindings_sound (hs : s.Sound st) (ha : st.Stored a) (hb : st.Stored b)
    (va : (s.tree st a).Over V.has) (vb : (s.tree st b).Over V.has)
    (h : s.unifyBindings st a b = some s') : Unifies V st s s' a b :=
  unifyWithin_sound hs ha hb va vb h

theorem bindings_revalidate (h : s.revalidate st = some s') :
    s.bindings = s'.bindings ∧ s'.sites = s.sites := by
  obtain ⟨ds, -, rfl⟩ := Option.map_eq_some_iff.mp h
  exact ⟨rfl, rfl⟩

theorem unify_sound (hs : s.Sound st) (ha : st.Stored a) (hb : st.Stored b)
    (va : (s.tree st a).Over V.has) (vb : (s.tree st b).Over V.has)
    (h : s.unify st a b = some s') : Unifies V st s s' a b := by
  unfold unify at h
  split at h
  · cases h
  · rename_i r hr
    have unified := unifyBindings_sound hs ha hb va vb hr
    split at h
    · cases h
      exact unified
    · obtain ⟨bindings, sites⟩ := bindings_revalidate h
      refine ⟨unified.advance.congr bindings, sites.trans unified.sites, fun G => ?_⟩
      rw [unified.advance.sound.tree_congr bindings, unified.advance.sound.tree_congr bindings]
      exact unified.alike G

end Subst

end Regraft
