import Regraft.Proofs.Session.Grows
import Regraft.Proofs.Unify.Ground
import Regraft.Proofs.Unify.Solutions

/-
  Unification is most general. An assignment of the variables is a solution of some work if it agrees
  with all bindings and makes the two terms of each pair the same. Where labels can be told apart, trees
  that are the same are told apart as unification does (`Rigid.likeness`), so that solutions are kept, and
  a sound substitution is solved by its own images; so unification succeeds just when there is a solution,
  and its bindings admit all of them (`unify_most_general`).
-/

namespace Regraft

open Relation

namespace Tree

theorem congruence_same : Congruence Same where
  refl := .refl
  symm := .symm
  trans := .trans
  congr := .of_forall₂

theorem Rigid.likeness {has : Label → Prop} (rigid : Rigid has) : Likeness has Same where
  toCongruence := congruence_same
  size_eq h := h.size_eq
  leaf_iff hl hm := by
    refine Same.leaf_iff.trans ⟨Leaf.Same.eq_or_valueEq, ?_⟩
    rintro (rfl | value)
    · exact .refl _
    · exact rigid.leaf_same hl hm value
  app_iff {f g xs ys a b} ha hb := by
    rw [Same.app_iff]
    constructor
    · rintro ⟨op, rfl, operands⟩
      exact ⟨op, Attrs.compatible_self _, operands⟩
    · rintro ⟨rfl, fits, operands⟩
      rw [← operands.length_eq] at hb
      exact ⟨rfl, rigid.fits _ _ _ _ ha hb fits, operands⟩
  leaf_app := nofun

end Tree

/-- An assignment makes two stored terms the same. -/
def Store.Equates (st : Store) (θ : UInt32 → Tree) (a b : TermId) : Prop :=
  Tree.Same ((st.tree a).subst θ) ((st.tree b).subst θ)

namespace Subst

variable {has : Tree.Label → Prop} {st : Store} {s s' : Subst} {a b t u : TermId} {v : UInt32}
  {θ : UInt32 → Tree} {more rest : List (TermId × TermId)} {w w' : Work}

/-- An assignment satisfies all bindings: what a bound variable is assigned is the same as its
    binding. -/
def Admits (s : Subst) (st : Store) (θ : UInt32 → Tree) : Prop :=
  ∀ v t, s.get? v = some t → Tree.Same (θ v) ((st.tree t).subst θ)

theorem admits_empty (st : Store) (θ : UInt32 → Tree) : Subst.empty.Admits st θ := by
  intro v t h
  rw [get?_empty] at h
  cases h

theorem Admits.of_extends (h : s'.Admits st θ) (kept : s.Extends s') : s.Admits st θ :=
  fun v t hv => h v t (kept v t hv)

/-- Under an assignment that is admitted, bindings may be followed. -/
theorem Admits.same_tree (h : s.Admits st θ) (hs : s.Sound st) (t : TermId) :
    Tree.Same ((st.tree t).subst θ) ((s.tree st t).subst θ) :=
  AdmitsIn.tree h Tree.congruence_same hs t

theorem Admits.equates_iff (h : s.Admits st θ) (hs : s.Sound st) :
    st.Equates θ a b ↔ Tree.Same ((s.tree st a).subst θ) ((s.tree st b).subst θ) :=
  AdmitsIn.pair_iff h Tree.congruence_same hs

/-- The images of a substitution satisfy its bindings, whatever is put in for open variables. -/
theorem Sound.admits_image (hs : s.Sound st) (ρ : UInt32 → Tree) :
    s.Admits st fun v => (s.image st v).subst ρ := by
  intro v t hv
  show Tree.Same ((s.image st v).subst ρ) _
  rw [← Tree.subst_subst, ← hs.tree_eq_subst, image_of_bound hv]
  exact .refl _

theorem Sound.admits_own (hs : s.Sound st) : s.Admits st (s.image st) := by
  simpa only [Tree.subst_id] using hs.admits_image .var

/-- The images make terms the same that are the same under the substitution. -/
theorem Sound.equates_image (hs : s.Sound st) :
    st.Equates (s.image st) a b ↔ Tree.Same (s.tree st a) (s.tree st b) := by
  rw [Store.Equates, ← hs.tree_eq_subst, ← hs.tree_eq_subst]

/-! ## Solutions -/

theorem over_pair (la : (s.tree st a).Over has) (lb : (s.tree st b).Over has) :
    Work.Over has st ([(a, b)], s) := List.forall_mem_singleton.mpr ⟨la, lb⟩

theorem unifyBindings_advance (hs : s.Sound st) (ha : st.Stored a) (hb : st.Stored b)
    (la : (s.tree st a).Over has) (lb : (s.tree st b).Over has)
    (h : s.unifyBindings st a b = some s') : Advance has st s st s' := by
  have run := unifyBindings_run hs ha hb
  rw [h] at run
  exact (run_advance run (ready_pair hs ha hb) (over_pair la lb)).1

/-- The bindings that unification finds admit just the solutions; without bindings there are none. -/
theorem unifyBindings_solves (rigid : Tree.Rigid has) (hs : s.Sound st) (ha : st.Stored a)
    (hb : st.Stored b) (la : (s.tree st a).Over has) (lb : (s.tree st b).Over has) :
    match s.unifyBindings st a b with
    | some s' => ∀ θ, s'.Admits st θ ↔ s.Admits st θ ∧ st.Equates θ a b
    | none => ∀ θ, s.Admits st θ → ¬ st.Equates θ a b := by
  have solves : ∀ θ, (∃ s' ∈ s.unifyBindings st a b, s'.Admits st θ) ↔
      s.Admits st θ ∧ st.Equates θ a b := fun θ =>
    ((unifyBindings_run hs ha hb).solvesIn_iff rigid.likeness (ready_pair hs ha hb)
      (over_pair la lb) θ).trans (and_congr_right fun _ => List.forall_mem_singleton)
  cases h : s.unifyBindings st a b with
  | some s' =>
    simpa only [h, Option.mem_some_iff, exists_eq_left'] using solves
  | none =>
    intro θ admits equates
    obtain ⟨s', eq, -⟩ := (solves θ).mpr ⟨admits, equates⟩
    cases h.symm.trans eq

/-- Without disequalities only the bindings decide. -/
theorem Sound.unify_of_free (hs : s.Sound st) (free : s.constraints = []) (ha : st.Stored a)
    (hb : st.Stored b) : s.unify st a b = s.unifyBindings st a b := by
  cases h : s.unifyBindings st a b with
  | some s' =>
    exact Subst.unify_of_free ((unifyBindings_keeps hs ha hb h).constraints.trans free) h
  | none =>
    unfold unify
    rw [h]

/-- Unification of bare terms without disequalities ends, and is most general: it succeeds just when an
    assignment admitted by the bindings makes the terms the same, which may then be ground. The bindings
    found extend the old ones, are acyclic, make the terms the same, and admit all such assignments. -/
theorem unify_most_general (hs : s.Sound st) (free : s.constraints = []) (ha : st.Stored a)
    (hb : st.Stored b) (bare : (s.tree st a).Bare) (bare' : (s.tree st b).Bare) :
    (∃ pairs r, ReflTransGen (Round st) ([(a, b)], s) (pairs, r) ∧
      (∀ w, ¬ Round st (pairs, r) w) ∧ s.unify st a b = if pairs = [] then some r else none) ∧
    ((∃ s', s.unify st a b = some s') ↔ ∃ θ, s.Admits st θ ∧ st.Equates θ a b) ∧
    ((∃ s', s.unify st a b = some s') ↔
      ∃ θ : UInt32 → Tree, (∀ v, (θ v).Ground) ∧ s.Admits st θ ∧ st.Equates θ a b) ∧
    ∀ s', s.unify st a b = some s' →
      s.Extends s' ∧ s'.Sound st ∧ Tree.Same (s'.reified st a) (s'.reified st b) ∧
        ∀ θ, s.Admits st θ → st.Equates θ a b → s'.Admits st θ := by
  have solves := unifyBindings_solves Tree.rigid_bare hs ha hb bare bare'
  rw [hs.unify_of_free free ha hb]
  refine ⟨(unifyBindings_run hs ha hb).exists_run, ?_⟩
  cases h : s.unifyBindings st a b with
  | none =>
    rw [h] at solves
    refine ⟨⟨nofun, ?_⟩, ⟨nofun, ?_⟩, nofun⟩
    · exact fun ⟨θ, admits, equates⟩ => absurd equates (solves θ admits)
    · exact fun ⟨θ, _, admits, equates⟩ => absurd equates (solves θ admits)
  | some s' =>
    rw [h] at solves
    have adv := unifyBindings_advance hs ha hb bare bare' h
    have own : ∀ ρ, s.Admits st (fun v => (s'.image st v).subst ρ) ∧
        st.Equates (fun v => (s'.image st v).subst ρ) a b := fun ρ =>
      (solves _).mp (adv.sound.admits_image ρ)
    have mine := (solves _).mp adv.sound.admits_own
    have same : Tree.Same (s'.tree st a) (s'.tree st b) := adv.sound.equates_image.mp mine.2
    refine ⟨⟨fun _ => ⟨_, mine⟩, fun _ => ⟨s', rfl⟩⟩, ⟨fun _ => ?_, fun _ => ⟨s', rfl⟩⟩, ?_⟩
    · -- Any ground tree may be put in for the variables that are still open.
      refine ⟨_, fun v w hw => ?_, own fun _ => .app "" [] .unspecified⟩
      obtain ⟨x, -, hw⟩ := Tree.hasVar_subst.mp hw
      simp at hw
    · rintro _ ⟨⟩
      refine ⟨adv.kept, adv.sound, ?_, fun θ admits equates => (solves θ).mpr ⟨admits, equates⟩⟩
      rwa [adv.sound.reified_eq ha, adv.sound.reified_eq hb]

/-- Variables, an input, `g` of a variable and of the input, `f(x, y)` and `f(z, g(a))`. -/
def nestedPair : Session :=
  .holding .none [.var 0, .var 1, .var 2, .leaf (.input "a"), .app "g" [⟨0⟩] .unspecified,
    .app "g" [⟨3⟩] .unspecified, .app "f" [⟨0⟩, ⟨1⟩] .unspecified,
    .app "f" [⟨2⟩, ⟨5⟩] .unspecified]

/-- With `y` bound to `g(x)`, unifying `f(x, y)` with `f(z, g(a))` binds the younger `z` to `x`, and
    `x` to `a`. -/
theorem nestedPair_most_general :
    ∃ s', (Subst.empty.bind 1 ⟨4⟩).unify nestedPair.store ⟨6⟩ ⟨7⟩ = some s' ∧
      s'.toList = [(0, ⟨3⟩), (1, ⟨4⟩), (2, ⟨0⟩)] ∧
      Tree.Same (s'.reified nestedPair.store ⟨6⟩) (s'.reified nestedPair.store ⟨7⟩) ∧
      ∀ θ, (Subst.empty.bind 1 ⟨4⟩).Admits nestedPair.store θ →
        nestedPair.store.Equates θ ⟨6⟩ ⟨7⟩ → s'.Admits nestedPair.store θ := by
  have valid : nestedPair.store.Valid := by decide
  have unbound : Subst.empty.get? 1 = none := get?_empty 1
  have sound : (Subst.empty.bind 1 ⟨4⟩).Sound nestedPair.store := by
    refine (Sound.empty valid).bind (by decide) unbound ?_
    rw [← (Sound.empty valid).occurs_iff]
    decide
  have x := sound.tree_var (show nestedPair.store.term? ⟨0⟩ = some (.var 0) by decide)
  have y := sound.tree_var (show nestedPair.store.term? ⟨1⟩ = some (.var 1) by decide)
  have z := sound.tree_var (show nestedPair.store.term? ⟨2⟩ = some (.var 2) by decide)
  have a := sound.tree_leaf
    (show nestedPair.store.term? ⟨3⟩ = some (.leaf (.input "a")) by decide)
  have gx := sound.tree_app
    (show nestedPair.store.term? ⟨4⟩ = some (.app "g" [⟨0⟩] .unspecified) by decide)
  have ga := sound.tree_app
    (show nestedPair.store.term? ⟨5⟩ = some (.app "g" [⟨3⟩] .unspecified) by decide)
  have left := sound.tree_app
    (show nestedPair.store.term? ⟨6⟩ = some (.app "f" [⟨0⟩, ⟨1⟩] .unspecified) by decide)
  have right := sound.tree_app
    (show nestedPair.store.term? ⟨7⟩ = some (.app "f" [⟨2⟩, ⟨5⟩] .unspecified) by decide +kernel)
  rw [image_of_unbound (by decide)] at x z
  rw [image_of_bound (show (Subst.empty.bind 1 ⟨4⟩).get? 1 = some ⟨4⟩ by decide +kernel)] at y
  simp only [List.map_cons, List.map_nil, x, y, z, a, gx, ga] at gx ga left right
  have most := unify_most_general sound rfl
    (show nestedPair.store.Stored ⟨6⟩ by decide)
    (show nestedPair.store.Stored ⟨7⟩ by decide)
    (by rw [left]; simp [Tree.Bare, Tree.over_app, Tree.bareLabel, Tree.Over.var])
    (by rw [right]; simp [Tree.Bare, Tree.over_app, Tree.over_leaf, Tree.bareLabel, Tree.Over.var])
  obtain ⟨s', h⟩ := Option.isSome_iff_exists.mp
    (show ((Subst.empty.bind 1 ⟨4⟩).unify nestedPair.store ⟨6⟩ ⟨7⟩).isSome = true by decide +kernel)
  have list : ((Subst.empty.bind 1 ⟨4⟩).unify nestedPair.store ⟨6⟩ ⟨7⟩).map toList =
      some [(0, ⟨3⟩), (1, ⟨4⟩), (2, ⟨0⟩)] := by decide
  rw [h] at list
  obtain ⟨-, -, same, general⟩ := most.2.2.2 s' h
  exact ⟨s', h, Option.some.inj list, same, general⟩

end Subst

end Regraft
