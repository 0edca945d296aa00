import Regraft.Proofs.Renaming.Matching
import Regraft.Proofs.Rewriting.Built

/-
  Goals that are made alike of twins go in step (`Renaming.Goals`), and so does rewriting somewhere in a term
  by relations whose goals do (`anywhere_goals`). What builds a goal when it is applied needs room on the
  right before the goal is applied, which there is since goals that are built of elementary ones let
  sessions grow.
-/

namespace Regraft

/-- Applying what is built of elementary goals lets the session grow. -/
theorem Goal.Built.apply_grows {goal : Goal} {ses : Session} {s : Subst}
    (h : Goal.Built Tree.anyLabel ses goal) (hs : s.Sound ses.store) :
    ses.Grows (goal.apply s ses).2 := by
  have scene : Search.Scene ses.facts Tree.anyLabel ses s := ⟨rfl, hs, fun _ => Tree.over_any _⟩
  exact (h.evolves (fun _ _ _ _ _ => trivial) 1 (.refl ses) scene ses (.refl ses)).1

namespace Renaming

variable {ρ : Renaming} {p q : Sides} {n : Nat} {s s' : Subst} {a a' b b' : TermId}
  {goal goal' : Goal} {goals goals' : List Goal}

/-- Goals that go in step, however far. -/
abbrev Goals (ρ : Renaming) (p : Sides) (goal goal' : Goal) : Prop := ∀ n, ρ.GoalSteps n p goal goal'

theorem Goals.of_acts (h : ∀ n q s s', p.Grow q → ρ.SameSubst q s s' →
    ρ.Acts q (ρ.Lockstep n) (goal.apply s) (goal'.apply s')) : ρ.Goals p goal goal' := by
  intro n q s s' g hs
  cases n with
  | zero => rfl
  | succ n => exact .apply fun r g' => h n r s s' (g.trans g') (hs.grow g')

theorem Goals.acts (h : ρ.Goals p goal goal') (hs : ρ.SameSubst p s s') :
    ρ.Acts p (ρ.Lockstep n) (goal.apply s) (goal'.apply s') := by
  intro agree room
  obtain ⟨agree', grow, steps⟩ := (h (n + 1) p s s' (.refl p) hs).2 p (.refl p) agree room
  cases steps with
  | «continue» rest => exact ⟨agree', grow, rest⟩

theorem Goals.grow (h : ρ.Goals p goal goal') (g : p.Grow q) : ρ.Goals q goal goal' :=
  fun n => (h n).grow g

/-! ## Elementary goals -/

theorem eq_goals (ha : ρ.Same p a a') (hb : ρ.Same p b b') : ρ.Goals p (.eq a b) (.eq a' b') :=
  .of_acts fun _ _ _ _ g hs => (unify_steady hs (ha.grow g) (hb.grow g)).acts

theorem neq_goals (ha : ρ.Same p a a') (hb : ρ.Same p b b') : ρ.Goals p (.neq a b) (.neq a' b') := by
  refine .of_acts fun n q s s' g hs => Steady.acts fun agree => ?_
  have distinct := requireDistinct_substs hs (ha.grow g) (hb.grow g)
  rw [Goal.neq_apply, Goal.neq_apply]
  generalize s.requireDistinct q.left.store a b = x at distinct ⊢
  generalize s'.requireDistinct q.right.store a' b' = x' at distinct ⊢
  cases distinct with
  | none =>
    obtain ⟨agree', grow, -⟩ := count_steady (p := q) Counters.countDisequalityFailure agree
    exact ⟨agree', grow, .empty⟩
  | some distinct => exact ⟨agree, .refl q, .unit distinct⟩

theorem modulo_goals (ha : ρ.Same p a a') (hb : ρ.Same p b b') :
    ρ.Goals p (.modulo a b) (.modulo a' b') := fun n => modulo_steps n ha hb

theorem site_goals (ha : ρ.Same p a a') (hb : ρ.Same p b b') : ρ.Goals p (.site a b) (.site a' b') := by
  refine .of_acts fun n q s s' g hs => Steady.acts ?_
  refine (count_steady Counters.countRuleMatch).then fun r _ _ g' _ => .pure (.unit ?_)
  have h : ρ.SameSubst r s s' := hs.grow g'
  exact h.addSite ⟨ha.grow (g.trans g'), hb.grow (g.trans g')⟩

theorem succeed_goals : ρ.Goals p .succeed .succeed :=
  .of_acts fun _ _ _ _ _ hs => Steady.acts (.pure (.unit hs))

theorem fail_goals : ρ.Goals p .fail .fail :=
  .of_acts fun _ _ _ _ _ _ => Steady.acts (.pure .empty)

/-! ## Combinations -/

theorem conj_goals (h : List.Forall₂ (ρ.Goals p) goals goals') :
    ρ.Goals p (.conj goals) (.conj goals') := by
  cases h with
  | nil => exact succeed_goals
  | cons first others => cases others with
    | nil => exact first
    | cons second others =>
      refine .of_acts fun n q s s' g hs => Steady.acts (.pure (.through ((first n).grow g) ?_ hs))
      exact (List.Forall₂.cons second others).imp fun _ _ h => (h n).grow g

theorem disj_goals (h : List.Forall₂ (ρ.Goals p) goals goals') :
    ρ.Goals p (.disj goals) (.disj goals') := by
  cases h with
  | nil => exact fail_goals
  | cons first others => cases others with
    | nil => exact first
    | cons second others =>
      refine .of_acts fun n q s s' g hs => Steady.acts (.pure (.union ?_))
      rw [List.forall₂_map_left_iff, List.forall₂_map_right_iff]
      exact (List.Forall₂.cons first (.cons second others)).imp fun _ _ h =>
        h n q s s' g hs

/-- The branches of a series, and with each the ones behind it. -/
theorem series_goals {branch branch' : Nat → Goal}
    (each : ∀ k n q s s', p.Grow q → ρ.SameSubst q s s' →
      ρ.Steady q (ρ.Lockstep n) ((branch k).apply s) ((branch' k).apply s')) (k : Nat) :
    ρ.Goals p (.series branch k) (.series branch' k) := by
  intro n
  induction n generalizing p k with
  | zero => exact fun _ _ _ _ _ => rfl
  | succ n ih =>
    intro q s s' g hs
    refine .apply fun r g' => Steady.acts fun agree => ?_
    have later := g.trans g'
    obtain ⟨agree', grow, here⟩ := each k n r s s' later (hs.grow g') agree
    have behind := ih (fun k n q s s' g => each k n q s s' (later.trans g)) (k + 1)
    exact ⟨agree', grow, here.plus (behind _ s s' grow ((hs.grow g').grow grow))⟩

theorem never_goals : ρ.Goals p .never .never :=
  series_goals (fun _ _ _ _ _ _ _ => .pure .empty) 0

theorem countFrom_goals (ha : ρ.Same p a a') (x : Float) :
    ρ.Goals p (.countFrom a x) (.countFrom a' x) := by
  refine series_goals (fun k n q s s' g hs => ?_) 0
  refine (leaf_steady (.const (.scalar (k.repeat (· + 1.0) x)))).then fun r t t' g' ht => .pure ?_
  exact eq_goals (ha.grow (g.trans g')) ht n r s s' (.refl r) (hs.grow g')

/-- Goals that are built alike each time they are applied. Those on the right let the session grow. -/
theorem defer_goals {build build' : SessionM Goal}
    (acts : ∀ q, p.Grow q → ρ.Acts q ρ.Goals build build')
    (built : ∀ ses, p.right.Grows ses → ses.Grows (build' ses).2 ∧
      Goal.Built Tree.anyLabel (build' ses).2 (build' ses).1) :
    ρ.Goals p (.defer build) (.defer build') := by
  refine .of_acts fun n q s s' g hs => ?_
  show ρ.Acts q (ρ.Lockstep n) (build >>= fun goal => goal.apply s)
    (build' >>= fun goal => goal.apply s')
  refine (acts q g).bind ?_ fun r made made' g' goals => ?_
  · obtain ⟨grows, built⟩ := built q.right g.right
    exact built.apply_grows (hs.right.grows grows.store)
  · exact goals.acts (SameSubst.grow hs g')

/-! ## Rewriting somewhere -/

/-- Relations that relate twins by goals that go in step. -/
def Relates (ρ : Renaming) (p : Sides) (relate relate' : Search.Relation) : Prop :=
  ∀ q t t' u u', p.Grow q → ρ.Same q t t' → ρ.Same q u u' →
    ρ.Acts q ρ.Goals (relate t u) (relate' t' u')

theorem Relates.grow {relate relate' : Search.Relation} (h : ρ.Relates p relate relate')
    (g : p.Grow q) : ρ.Relates q relate relate' := fun r t t' u u' g' => h r t t' u u' (g.trans g')

theorem set_rel {R : TermId → TermId → Prop} {xs xs' : List TermId} {x x' : TermId}
    (h : List.Forall₂ R xs xs') (hx : R x x') (i : Nat) :
    List.Forall₂ R (xs.set i x) (xs'.set i x') := by
  induction h generalizing i with
  | nil => exact .nil
  | cons first others ih => cases i with
    | zero => exact .cons hx others
    | succ i => exact .cons first (ih i)

theorem zipIdx_rel {R : TermId → TermId → Prop} {xs xs' : List TermId} (h : List.Forall₂ R xs xs')
    (k : Nat) : List.Forall₂ (fun e e' => R e.1 e'.1 ∧ e.2 = e'.2) (xs.zipIdx k) (xs'.zipIdx k) := by
  induction h generalizing k with
  | nil => exact .nil
  | cons first _ ih => exact .cons ⟨first, rfl⟩ (ih (k + 1))

variable {relate relate' : Search.Relation} {t t' u u' x x' : TermId}

theorem atRoot_acts (h : ρ.Relates p relate relate') (hs : ρ.SameSubst p s s') (ht : ρ.Same p t t')
    (hu : ρ.Same p u u') : ρ.Acts p (ρ.Lockstep n) (Search.atRoot relate t u s)
      (Search.atRoot relate' t' u' s') := by
  intro agree room
  obtain ⟨agree', grow, goals⟩ := h p _ _ _ _ (.refl p) ht hu agree room
  exact ⟨agree', grow, .through (goals n) (.cons (site_goals (ht.grow grow) (hu.grow grow) n) .nil)
    (hs.grow grow)⟩

theorem inOperand_acts (ih : ∀ q x x' y y', p.Grow q → ρ.Same q x x' → ρ.Same q y y' →
      ρ.GoalSteps n q (.anywhere relate x y) (.anywhere relate' x' y'))
    (hs : ρ.SameSubst p s s') {args args' : List TermId} (operands : ρ.Sames p args args')
    (hu : ρ.Same p u u') (hx : ρ.Same p x x') (op : String) (attrs : Attrs) (i : Nat) :
    ρ.Acts p (ρ.Lockstep n) (Search.inOperand relate op args attrs u i x s)
      (Search.inOperand relate' op args' attrs u' i x' s') := by
  refine fresh_acts.bind ?_ fun q y y' g hy => ?_
  · refine Session.onStore_grows (Store.app_grows fun z mem => ?_)
    have g := (Session.fresh_grows p.right).store
    rcases List.mem_or_eq_of_mem_set mem with mem | rfl
    · exact g.stored ((twins_stored operands).2 z mem)
    · exact Store.stored_of_term? (Store.term?_fresh _)
  · refine Steady.acts ((app_steady (set_rel (operands.grow g) hy i) op attrs).then ?_)
    intro r w w' g' hw
    have later := g.trans g'
    exact .pure (.through (ih r x x' y y' later (hx.grow later) (hy.grow g'))
      (.cons (eq_goals (hu.grow later) hw n) .nil) (hs.grow later))

theorem belowRoot_steady (ih : ∀ q x x' y y', p.Grow q → ρ.Same q x x' → ρ.Same q y y' →
      ρ.GoalSteps n q (.anywhere relate x y) (.anywhere relate' x' y'))
    (hs : ρ.SameSubst p s s') (ht : ρ.Same p t t') (hu : ρ.Same p u u') :
    ρ.Steady p (ρ.Lockstep (n + 1)) (Search.belowRoot relate t u s)
      (Search.belowRoot relate' t' u' s') := by
  intro agree
  rw [Search.belowRoot, Search.belowRoot]
  rcases (hs.toCarries.deref ht).app? with ⟨left, right⟩ | ⟨op, args, args', attrs, left, right, operands⟩
  · rw [left, right]
    exact ⟨agree, .refl p, .empty⟩
  · rw [left, right]
    refine ⟨agree, .refl p, .union ?_⟩
    rw [List.forall₂_map_left_iff, List.forall₂_map_right_iff]
    refine (zipIdx_rel operands 0).imp ?_
    rintro ⟨x, i⟩ ⟨x', _⟩ ⟨hx, rfl⟩
    refine .suspend fun q g => ?_
    exact inOperand_acts (fun r x x' y y' g' => ih r x x' y y' (g.trans g')) (hs.grow g)
      (Sames.grow operands g) (hu.grow g) (Same.grow hx g) op attrs i

theorem anywhere_acts (h : ρ.Relates p relate relate')
    (ih : ∀ q x x' y y', p.Grow q → ρ.Same q x x' → ρ.Same q y y' →
      ρ.GoalSteps n q (.anywhere relate x y) (.anywhere relate' x' y'))
    (hs : ρ.SameSubst p s s') (ht : ρ.Same p t t') (hu : ρ.Same p u u') :
    ρ.Steady p (ρ.Lockstep n) (Search.anywhere relate t u s) (Search.anywhere relate' t' u' s') := by
  intro agree
  have found := (hs.toCarries.deref ht).var?
  unfold Search.anywhere
  have same : (p.right.store.var? (s'.deref p.right.store t')).isSome =
      (p.left.store.var? (s.deref p.left.store t)).isSome := by
    generalize p.left.store.var? (s.deref p.left.store t) = y at found ⊢
    generalize p.right.store.var? (s'.deref p.right.store t') = y' at found ⊢
    cases found <;> rfl
  rw [same]
  split
  · exact ⟨agree, .refl p, .empty⟩
  · refine ⟨agree, .refl p, .plus (Lockstep.suspend fun q g => ?_).pred
      (Lockstep.suspend fun q g => ?_).pred⟩
    · exact atRoot_acts (h.grow g) (hs.grow g) (ht.grow g) (hu.grow g)
    · refine ((belowRoot_steady (fun r x x' y y' g' => ih r x x' y y' (g.trans g')) (hs.grow g)
        (ht.grow g) (hu.grow g)).acts).imp fun _ _ _ _ h => h.pred

/-- Rewriting twins somewhere goes in step. -/
theorem anywhere_goals (h : ρ.Relates p relate relate') (ht : ρ.Same p t t') (hu : ρ.Same p u u') :
    ρ.Goals p (.anywhere relate t u) (.anywhere relate' t' u') := by
  suffices each : ∀ n q x x' y y', p.Grow q → ρ.Same q x x' → ρ.Same q y y' →
      ρ.GoalSteps n q (.anywhere relate x y) (.anywhere relate' x' y') from
    fun n => each n p _ _ _ _ (.refl p) ht hu
  intro n
  induction n with
  | zero => exact fun _ _ _ _ _ _ _ _ _ _ _ _ _ => rfl
  | succ n ih =>
    intro q x x' y y' g hx hy r s s' g' hs
    refine .apply fun r' g'' => Steady.acts ?_
    have later := (g.trans g').trans g''
    have back := g'.trans g''
    exact anywhere_acts (h.grow later) (fun z x x' y y' g => ih z x x' y y' (later.trans g))
      (hs.grow g'') (hx.grow back) (hy.grow back)

end Renaming

end Regraft
