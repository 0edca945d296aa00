import Regraft.Proofs.Rewriting.Evolves
import Regraft.Proofs.Search.Meets

/-
  A disequality that has been required once lasts. Either no assignment that the substitution admits
  makes its sides the same, or it is carried along and pending (`Subst.Excludes`); all acts of goals keep
  it so (`Evolves.excludes`), as long as the attributes of terms leave nothing open. An application
  without attributes fits attributes that do not fit each other, and may make the sides equal after
  the disequality has been dropped (`elementTypes_violated`).
-/

namespace Regraft

namespace Subst

variable {has : Tree.Label → Prop} {st st' : Store} {s s' : Subst} {a b : TermId} {d : Disequality}

/-- The sides of a disequality are never made the same. -/
def Excludes (s : Subst) (st : Store) (d : Disequality) : Prop :=
  (∀ θ, s.Admits st θ → ¬ st.Equates θ d.lhs d.rhs) ∨
    d ∈ s.constraints ∧ d.check s st = .pending

namespace Excludes

theorem not_violated (h : s.Excludes st d) (rigid : Tree.Rigid has) (hs : s.Sound st)
    (sides : d.Over has st s) : d.check s st ≠ .violated := by
  intro violated
  rcases h with none | ⟨-, pending⟩
  · exact none _ hs.admits_own
      ((Disequality.check_violated_iff rigid hs sides).mp violated _ hs.admits_own)
  · cases pending.symm.trans violated

theorem grows (h : s.Excludes st d) (hs : s.Sound st) (sides : d.Over has st s)
    (g : st.Grows st') : s.Excludes st' d := by
  have tree : ∀ {t}, st.Stored t → st'.tree t = st.tree t := g.tree_eq hs.valid
  refine h.imp (fun none θ admits => ?_) fun ⟨carried, pending⟩ => ⟨carried, ?_⟩
  · rw [Store.Equates, tree sides.left, tree sides.right]
    refine none θ fun v t hv => ?_
    have := admits v t hv
    rwa [tree (hs.stored v t hv)] at this
  · rwa [Disequality.check_grows hs g sides.left sides.right]

/-- Only the bindings count, and that the disequality is still carried. -/
theorem of_bindings (h : s.Excludes st d) (eq : s.bindings = s'.bindings)
    (carries : d ∈ s.constraints → d ∈ s'.constraints) : s'.Excludes st d := by
  refine h.imp (fun none θ admits => none θ (admits.of_extends (extends_congr eq))) ?_
  exact fun ⟨carried, pending⟩ => ⟨carries carried, (d.check_of_bindings st eq).trans pending⟩

theorem unify (h : s.Excludes st d) (rigid : Tree.Rigid has) (hs : s.Sound st)
    (sides : d.Over has st s) (left : Given has st s a) (right : Given has st s b)
    (eq : s.unify st a b = some s') : s'.Excludes st d := by
  rcases unify_cases hs left.stored right.stored eq with rfl | ⟨t, unified, distinct, rfl⟩
  · exact h
  have adv := unifyBindings_advance hs left.stored right.stored left.labels right.labels unified
  have sides' := sides.advance adv
  rcases h with none | ⟨carried, -⟩
  · exact .inl fun θ admits => none θ (Admits.of_extends admits adv.kept)
  -- Carried so far: after the new bindings it has been looked at again.
  · cases verdict : d.check t st with
    | satisfied => exact .inl ((Disequality.check_satisfied_iff rigid adv.sound sides').mp verdict)
    | violated => exact absurd verdict (distinct d carried)
    | pending =>
      refine .inr ⟨List.mem_filter.mpr ⟨carried, decide_eq_true verdict⟩, ?_⟩
      refine Eq.trans (d.check_of_bindings st ?_) verdict
      rfl

theorem of_requireDistinct (rigid : Tree.Rigid has) (hs : s.Sound st) (sides : d.Over has st s)
    (h : s.requireDistinct st d.lhs d.rhs = some s') : s'.Excludes st d := by
  rcases requireDistinct_cases h with ⟨satisfied, rfl⟩ | ⟨pending, rfl⟩
  · exact .inl ((Disequality.check_satisfied_iff rigid hs sides).mp satisfied)
  · refine .inr ⟨mem_addConstraint.mpr (.inr rfl), ?_⟩
    exact (d.check_of_bindings st (bindings_addConstraint s d).1).trans pending

theorem distinct (h : s.Excludes st d) (eq : s.requireDistinct st a b = some s') :
    s'.Excludes st d := by
  rcases requireDistinct_cases eq with ⟨-, rfl⟩ | ⟨-, rfl⟩
  · exact h
  · exact h.of_bindings (bindings_addConstraint s ⟨a, b⟩).1 fun carried =>
      mem_addConstraint.mpr (.inl carried)

end Excludes

/-- All acts of goals exclude what was excluded before. -/
theorem Evolves.excludes (h : Evolves has st s st' s') (rigid : Tree.Rigid has) (hs : s.Sound st)
    (sides : d.Over has st s) (before : s.Excludes st d) : s'.Excludes st' d := by
  induction h with
  | refl => exact before
  | grows h g ih => exact (ih hs sides before).grows (h.advance hs).sound (sides.advance (h.advance hs)) g
  | unify h left right eq ih =>
    exact (ih hs sides before).unify rigid (h.advance hs).sound (sides.advance (h.advance hs)) left right eq
  | distinct _ _ _ eq ih => exact (ih hs sides before).distinct eq
  | site _ site ih => exact (ih hs sides before).of_bindings rfl id

end Subst

/-! ## Answers -/

namespace Goal

variable {has : Tree.Label → Prop} {ses ses₁ ses₂ : Session} {s s₁ s₂ : Subst} {a b : TermId}
  {goal : Goal}

/-- What has been required to be distinct is excluded. -/
theorem neq_excludes (rigid : Tree.Rigid has) (hs : s.Sound ses.store)
    (ha : Subst.Given has ses.store s a) (hb : Subst.Given has ses.store s b) (n : Nat) :
    Search.MeetsFor (fun ses' s' => Search.Evolving has ses.store s ses' s' ∧
      s'.Excludes ses'.store ⟨a, b⟩) n ses (.apply (.neq a b) s) := by
  cases n with
  | zero => trivial
  | succ n =>
    refine .apply fun ses' g => ?_
    rw [neq_apply]
    cases h : s.requireDistinct ses'.store a b with
    | none => exact ⟨Session.count_grows _ ses', .empty⟩
    | some t =>
      have left := Search.given_grows hs g ha
      have right := Search.given_grows hs g hb
      have sound := hs.grows g.store
      have sides : (⟨a, b⟩ : Disequality).Over has ses'.store s :=
        ⟨left.stored, right.stored, left.labels, right.labels⟩
      have evolved : Subst.Evolves has ses'.store s ses'.store t := .distinct .refl left right h
      have adv := evolved.advance sound
      have excludes : t.Excludes ses'.store ⟨a, b⟩ := .of_requireDistinct rigid sound sides h
      refine ⟨.refl ses', .unit fun ses'' g' => ⟨Search.Evolving.back g (evolved.grows g'.store), ?_⟩⟩
      exact excludes.grows adv.sound (sides.advance adv) g'.store

/-- Once two terms have been required to be distinct, no later answer of goals that are built of
    elementary ones makes them the same, if the labels of all terms are rigid. -/
theorem neq_lasts (rigid : Tree.Rigid has) (groups : Search.Groups ses.facts has)
    (hs : s.Sound ses.store) (images : ∀ v, (s.image ses.store v).Over has)
    (ha : ses.store.Holds has a) (hb : ses.store.Holds has b)
    (required : Search.Answer ses (.apply (.neq a b) s) s₁ ses₁) (built : Built has ses₁ goal)
    (answer : Search.Answer ses₁ (.apply goal s₁) s₂ ses₂) :
    (⟨a, b⟩ : Disequality).check s₂ ses₂.store ≠ .violated ∧
      ¬ Tree.Same (s₂.reified ses₂.store a) (s₂.reified ses₂.store b) := by
  have scene : Search.Scene ses.facts has ses s := ⟨rfl, hs, images⟩
  have left := scene.given (.refl ses) ha
  have right := scene.given (.refl ses) hb
  have sides : (⟨a, b⟩ : Disequality).Over has ses.store s :=
    ⟨left.stored, right.stored, left.labels, right.labels⟩
  obtain ⟨g, evolved, excludes⟩ := required.meets (neq_excludes rigid hs left right)
  have adv := evolved.advance hs
  obtain ⟨g', evolved'⟩ :=
    answer.meets fun n => built.evolves groups n (.refl ses₁) (scene.advance g adv)
  have adv' := adv.trans (evolved'.advance adv.sound)
  have lasts := evolved'.excludes rigid adv.sound (sides.advance adv) excludes
  have distinct := lasts.not_violated rigid adv'.sound (sides.advance adv')
  refine ⟨distinct, ?_⟩
  rw [adv'.sound.reified_eq (adv'.grows.stored ha.stored),
    adv'.sound.reified_eq (adv'.grows.stored hb.stored)]
  exact fun same => distinct
    ((Disequality.check_violated_iff_same rigid adv'.sound (sides.advance adv')).mpr same)

/-- Variables `x` and `y`, an input `a`, and `g` of each variable. -/
def wrappedVariables : Session := .holding .none [.var 0, .var 1, .leaf (.input "a"),
  .app "g" [⟨0⟩] .unspecified, .app "g" [⟨1⟩] .unspecified]

/-- With `g(x)` required to be distinct from `g(y)`, binding `x` to `a` leaves them so. -/
theorem wrappedVariables_lasts : ∃ s₁ ses₁ s₂ ses₂,
    Search.Answer wrappedVariables (.apply (.neq ⟨3⟩ ⟨4⟩) .empty) s₁ ses₁ ∧
    Search.Answer ses₁ (.apply (.eq ⟨0⟩ ⟨2⟩) s₁) s₂ ses₂ ∧
    (⟨⟨3⟩, ⟨4⟩⟩ : Disequality).check s₂ ses₂.store ≠ .violated ∧
    ¬ Tree.Same (s₂.reified ses₂.store ⟨3⟩) (s₂.reified ses₂.store ⟨4⟩) := by
  have run : ∃ s₁ ses₁ s₂ ses₂,
      Search.Answer wrappedVariables (.apply (.neq ⟨3⟩ ⟨4⟩) .empty) s₁ ses₁ ∧
      Search.Answer ses₁ (.apply (.eq ⟨0⟩ ⟨2⟩) s₁) s₂ ses₂ ∧ ses₁.store = wrappedVariables.store :=
    ⟨_, _, _, _, .here (rfl : pull Search.turn 2 _ _ = _), .here (rfl : pull Search.turn 2 _ _ = _),
      rfl⟩
  obtain ⟨s₁, ses₁, s₂, ses₂, required, answer, store⟩ := run
  have valid : wrappedVariables.store.Valid := by decide +kernel
  have x := valid.tree_var (show wrappedVariables.store.term? ⟨0⟩ = some (.var 0) by decide +kernel)
  have y := valid.tree_var (show wrappedVariables.store.term? ⟨1⟩ = some (.var 1) by decide +kernel)
  have a := valid.tree_leaf
    (show wrappedVariables.store.term? ⟨2⟩ = some (.leaf (.input "a")) by decide +kernel)
  have gx := valid.tree_app
    (show wrappedVariables.store.term? ⟨3⟩ = some (.app "g" [⟨0⟩] .unspecified) by decide +kernel)
  have gy := valid.tree_app
    (show wrappedVariables.store.term? ⟨4⟩ = some (.app "g" [⟨1⟩] .unspecified) by decide +kernel)
  have holds : ∀ {t}, wrappedVariables.store.Stored t → (wrappedVariables.store.tree t).Bare →
      wrappedVariables.store.Holds Tree.bareLabel t := fun stored bare => ⟨valid, stored, bare⟩
  have wrapped : ∀ {t : Tree}, t.Bare → (Tree.app "g" [t] .unspecified).Bare := fun bare =>
    Tree.over_app.mpr ⟨rfl, List.forall_mem_singleton.mpr bare⟩
  have built : Built Tree.bareLabel ses₁ (.eq ⟨0⟩ ⟨2⟩) := by
    refine .eq (store ▸ holds (by decide +kernel) ?_) (store ▸ holds (by decide +kernel) ?_)
    · exact x ▸ .var 0
    · exact a ▸ .leaf trivial
  have lasts := neq_lasts Tree.rigid_bare (fun _ _ _ _ _ => rfl) (Subst.Sound.empty valid)
    (fun v => by rw [Subst.image_of_unbound (Subst.get?_empty v)]; exact .var v)
    (holds (by decide +kernel) (gx ▸ wrapped (x ▸ .var 0)))
    (holds (by decide +kernel) (gy ▸ wrapped (y ▸ .var 1))) required built answer
  exact ⟨s₁, ses₁, s₂, ses₂, required, answer, lasts⟩

/-! ## A label that leaves something open -/

/-- A variable `x`, `p(x, x)`, two applications of `f` of different element types, `p` of both, and
    `f` without attributes. -/
def elementTypes : Session := .holding .none [.var 0, .app "p" [⟨0⟩, ⟨0⟩] .unspecified,
  .app "f" [] { Attrs.unspecified with elem := some .f64 },
  .app "f" [] { Attrs.unspecified with elem := some .f32 },
  .app "p" [⟨2⟩, ⟨3⟩] .unspecified, .app "f" [] .unspecified]

/-- `p(x, x)` can not be unified with `p` of the two applications, so that their disequality is
    forgotten; but with `x` bound to `f` without attributes, which fits both, it is violated. -/
theorem elementTypes_violated : ∃ s₁ ses₁ s₂ ses₂,
    Search.Answer elementTypes (.apply (.neq ⟨1⟩ ⟨4⟩) .empty) s₁ ses₁ ∧ s₁.constraints = [] ∧
    Search.Answer ses₁ (.apply (.eq ⟨0⟩ ⟨5⟩) s₁) s₂ ses₂ ∧
    (⟨⟨1⟩, ⟨4⟩⟩ : Disequality).check s₂ ses₂.store = .violated := by
  have required : pull Search.turn 2 (.apply (.neq ⟨1⟩ ⟨4⟩) .empty) elementTypes =
    (.result .empty .empty, _) := rfl
  refine ⟨_, _, _, _, .here required, rfl, .here (rfl : pull Search.turn 2 _ _ = _), ?_⟩
  decide +kernel

end Goal

end Regraft
