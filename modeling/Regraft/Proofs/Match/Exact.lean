import Regraft.Proofs.Match.Complete
import Regraft.Proofs.Search.Meets

/-
  The answers of matching a pattern with a ground term are exactly the ways in which the pattern is
  equal to the term modulo the facts (`modulo_exact`).
-/

namespace Regraft

namespace Search

open Regraft.Tree (Alike Equal Plain)

variable {F : Facts} {ses ses' : Session} {s s' : Subst} {p t : TermId}

/-- A pattern, a ground term and bindings to ground terms, all of them plain. -/
structure Problem (ses : Session) (s : Subst) (p t : TermId) : Prop where
  valid : ses.store.Valid
  pattern : ses.store.Stored p
  term : ses.store.Stored t
  binds : s.BindsGround ses.store
  free : s.constraints = []
  ground : (ses.store.tree t).Ground
  plainPattern : Plain ses.facts (ses.store.tree p)
  plainTerm : Plain ses.facts (ses.store.tree t)
  plainBound : ∀ v u, s.get? v = some u → Plain ses.facts (ses.store.tree u)

namespace Problem

theorem sound (h : Problem ses s p t) : s.Sound ses.store := h.binds.sound h.valid

theorem ready (h : Problem ses s p t) : Ready (Vocabulary.plain ses.facts) ses s p t where
  facts := rfl
  sound := h.sound
  left := h.pattern
  right := h.term
  overLeft := by
    rw [h.sound.tree_eq_subst]
    refine Tree.over_subst h.plainPattern fun v _ => ?_
    cases hv : s.get? v with
    | none =>
      rw [Subst.image_of_unbound hv]
      exact .var v
    | some u =>
      rw [Subst.image_of_bound hv, h.sound.tree_of_ground (h.binds.ground v u hv)]
      exact h.plainBound v u hv
  overRight := by
    rw [h.sound.tree_of_ground h.ground]
    exact h.plainTerm

/-- Every answer extends the bindings, binds all variables of the pattern and makes it equal to the
    term. -/
theorem answer (h : Problem ses s p t)
    (answer : Answer ses (.apply (.modulo p t) s) s' ses') :
    s.Extends s' ∧ (∀ v, (ses.store.tree p).HasVar v → s'.isBound v = true) ∧
      Equal ses.facts (s'.reified ses'.store p) (ses.store.tree t) := by
  obtain ⟨g, matched⟩ := answer.meets fun n => modulo_meets _ n h.ready
  have adv := matched.advance
  have alike := matched.alike (p, t) (List.mem_singleton_self _)
  have right : s'.tree ses'.store t = ses.store.tree t := by
    rw [adv.sound.tree_eq_subst, g.store.tree_eq h.valid h.term]
    exact h.ground.subst _
  rw [right] at alike
  refine ⟨adv.kept, fun v hv => ?_, ?_⟩
  · -- An unbound variable would be left over in the pattern.
    by_contra unbound
    have none : s'.get? v = none := by simpa [Subst.isBound] using unbound
    refine (alike.ground h.ground) v ?_
    rw [adv.sound.tree_eq_subst, g.store.tree_eq h.valid h.pattern, Tree.hasVar_subst]
    exact ⟨v, hv, by rw [Subst.image_of_unbound none]; exact .var⟩
  · rw [adv.sound.reified_eq (g.store.stored h.pattern)]
    exact alike.equal (adv.labels p h.pattern h.ready.overLeft) h.plainTerm

/-- An assignment that agrees with the bindings and makes the pattern equal to the term. -/
theorem fits (h : Problem ses s p t) {θ : UInt32 → Tree}
    (agrees : ∀ v u, s.get? v = some u → Equal ses.facts (ses.store.tree u) (θ v))
    (equal : Equal ses.facts ((ses.store.tree p).subst θ) (ses.store.tree t)) :
    Fits ses.facts θ ses s p t where
  ready := h.ready
  toward := by
    refine ⟨h.free, fun v u hv => ?_, fun v u hv => ?_⟩
    · rw [h.sound.tree_of_ground (h.binds.ground v u hv)]
      exact h.binds.ground v u hv
    · rw [h.sound.tree_of_ground (h.binds.ground v u hv)]
      exact agrees v u hv
  ground := by
    rw [h.sound.tree_of_ground h.ground]
    exact h.ground
  equal := by
    rw [h.sound.tree_of_ground h.ground, h.sound.tree_eq_subst, Tree.subst_subst]
    refine .trans (.subst_congr fun v _ => ?_) equal
    cases hv : s.get? v with
    | none =>
      rw [Subst.image_of_unbound hv]
      exact .refl _
    | some u =>
      have ground := h.binds.ground v u hv
      rw [Subst.image_of_bound hv, h.sound.tree_of_ground ground, ground.subst]
      exact agrees v u hv

/-- Without bindings there is an answer just if some instance of the pattern is equal to the term. -/
theorem exists_answer_iff (h : Problem ses .empty p t) :
    (∃ s' ses', Answer ses (.apply (.modulo p t) .empty) s' ses') ↔
      ∃ θ, Equal ses.facts ((ses.store.tree p).subst θ) (ses.store.tree t) := by
  constructor
  · rintro ⟨s', ses', answer⟩
    obtain ⟨g, matched⟩ := answer.meets fun n => modulo_meets _ n h.ready
    have sound := matched.advance.sound
    have equal := (h.answer answer).2.2
    rw [sound.reified_eq (g.store.stored h.pattern), sound.tree_eq_subst,
      g.store.tree_eq h.valid h.pattern] at equal
    exact ⟨_, equal⟩
  · rintro ⟨θ, equal⟩
    have none : ∀ v u, Subst.empty.get? v ≠ some u := fun v u bound => by
      rw [Subst.get?_empty] at bound
      cases bound
    obtain ⟨s', ses', answer, -⟩ :=
      (modulo_finds (h.fits (fun v u bound => absurd bound (none v u)) equal)).exists_answer
    exact ⟨s', ses', answer⟩

end Problem

open Classical in
/-- The answers of a match are exactly the matchers that extend the given bindings: every answer is
    one, and every assignment of trees to the variables of the pattern that agrees with the bindings
    and makes the pattern equal to the term is found, up to equality. -/
theorem modulo_exact (h : Problem ses s p t) :
    (∀ s' ses', Answer ses (.apply (.modulo p t) s) s' ses' →
      s.Extends s' ∧ (∀ v, (ses.store.tree p).HasVar v → s'.isBound v = true) ∧
        Equal ses.facts (s'.reified ses'.store p) (ses.store.tree t)) ∧
    ∀ θ : UInt32 → Tree,
      (∀ v u, (ses.store.tree p).HasVar v → s.get? v = some u →
        Equal ses.facts (ses.store.tree u) (θ v)) →
      Equal ses.facts ((ses.store.tree p).subst θ) (ses.store.tree t) →
      ∃ s' ses', Answer ses (.apply (.modulo p t) s) s' ses' ∧
        ∀ v, (ses.store.tree p).HasVar v → ∃ u, s'.get? v = some u ∧
          Equal ses.facts (s'.reified ses'.store u) (θ v) := by
  refine ⟨fun s' ses' => h.answer, fun θ agrees equal => ?_⟩
  -- Outside the pattern the assignment is that of the bindings.
  let τ : UInt32 → Tree := fun v =>
    if (ses.store.tree p).HasVar v then θ v else s.image ses.store v
  have onPattern : ∀ v, (ses.store.tree p).HasVar v → τ v = θ v := fun v hv => if_pos hv
  have fits : Fits ses.facts τ ses s p t := by
    refine h.fits (fun v u hv => ?_) ?_
    · by_cases mem : (ses.store.tree p).HasVar v
      · rw [onPattern v mem]
        exact agrees v u mem hv
      · show Equal _ _ (if _ then _ else _)
        rw [if_neg mem, Subst.image_of_bound hv, h.sound.tree_of_ground (h.binds.ground v u hv)]
        exact .refl _
    · rwa [Tree.subst_congr onPattern]
  obtain ⟨s', ses', answer, reached⟩ := (modulo_finds fits).exists_answer
  refine ⟨s', ses', answer, fun v hv => ?_⟩
  obtain ⟨u, hu⟩ := Option.isSome_iff_exists.mp ((h.answer answer).2.1 v hv)
  obtain ⟨-, matched⟩ := answer.meets fun n => modulo_meets _ n h.ready
  have sound := matched.advance.sound
  refine ⟨u, hu, ?_⟩
  rw [sound.reified_eq (sound.stored v u hu), ← onPattern v hv]
  exact reached.equal v u hu

/-! ## A sum of three operands -/

/-- The sums `x + y` and `(a + b) + c`, last. -/
def threeSummands : Session := .holding ⟨["add"], ["add"]⟩
  [.var 0, .var 1, .leaf (.input "a"), .leaf (.input "b"), .leaf (.input "c"),
    .app "add" [⟨2⟩, ⟨3⟩] .unspecified, .app "add" [⟨5⟩, ⟨4⟩] .unspecified,
    .app "add" [⟨0⟩, ⟨1⟩] .unspecified]

/-- `y` stands for the sum of `a` and `c`. -/
theorem exists_answer_threeSummands :
    Problem threeSummands .empty ⟨7⟩ ⟨6⟩ ∧ ∃ s ses,
      Answer threeSummands (.apply (.modulo ⟨7⟩ ⟨6⟩) .empty) s ses ∧
        ∀ v, (threeSummands.store.tree ⟨7⟩).HasVar v → ∃ u, s.get? v = some u ∧
          Equal threeSummands.facts (s.reified ses.store u) (if v = 0 then .leaf (.input "b") else
            .app "add" [.leaf (.input "a"), .leaf (.input "c")] .unspecified) := by
  have valid : threeSummands.store.Valid := by decide +kernel
  have x := valid.tree_var (show threeSummands.store.term? ⟨0⟩ = some (.var 0) by decide +kernel)
  have y := valid.tree_var (show threeSummands.store.term? ⟨1⟩ = some (.var 1) by decide +kernel)
  have a := valid.tree_leaf
    (show threeSummands.store.term? ⟨2⟩ = some (.leaf (.input "a")) by decide +kernel)
  have b := valid.tree_leaf
    (show threeSummands.store.term? ⟨3⟩ = some (.leaf (.input "b")) by decide +kernel)
  have c := valid.tree_leaf
    (show threeSummands.store.term? ⟨4⟩ = some (.leaf (.input "c")) by decide +kernel)
  have ab := valid.tree_app (show threeSummands.store.term? ⟨5⟩ =
    some (.app "add" [⟨2⟩, ⟨3⟩] .unspecified) by decide +kernel)
  have abc := valid.tree_app (show threeSummands.store.term? ⟨6⟩ =
    some (.app "add" [⟨5⟩, ⟨4⟩] .unspecified) by decide +kernel)
  have xy := valid.tree_app (show threeSummands.store.term? ⟨7⟩ =
    some (.app "add" [⟨0⟩, ⟨1⟩] .unspecified) by decide +kernel)
  simp only [List.map_cons, List.map_nil, x, y, a, b, c] at ab abc xy
  rw [ab] at abc
  have leaf : ∀ name, Plain threeSummands.facts (.leaf (.input name)) := fun _ => .leaf trivial
  have none : ∀ v u, Subst.empty.get? v ≠ some u := fun v u h => by
    rw [Subst.get?_empty] at h
    cases h
  have problem : Problem threeSummands .empty ⟨7⟩ ⟨6⟩ := by
    refine ⟨valid, by decide +kernel, by decide +kernel, ⟨?_, ?_⟩, rfl, ?_, ?_, ?_, ?_⟩
    · exact fun v u h => absurd h (none v u)
    · exact fun v u h => absurd h (none v u)
    · rw [abc]
      intro v hv
      simp at hv
    · rw [xy]
      exact Tree.plain_pair rfl (.var 0) (.var 1)
    · rw [abc]
      exact Tree.plain_pair rfl (Tree.plain_pair rfl (leaf "a") (leaf "b")) (leaf "c")
    · exact fun v u h => absurd h (none v u)
  refine ⟨problem, (modulo_exact problem).2 (fun v => if v = 0 then .leaf (.input "b") else
    .app "add" [.leaf (.input "a"), .leaf (.input "c")] .unspecified) ?_ ?_⟩
  · exact fun v u _ h => absurd h (none v u)
  · rw [xy, abc]
    have comm : threeSummands.facts.isCommutative "add" = true := by decide +kernel
    exact (Equal.regroup (by decide +kernel) _ _ _).symm.trans (Equal.permute comm (.swap ..)).first

end Search

end Regraft
