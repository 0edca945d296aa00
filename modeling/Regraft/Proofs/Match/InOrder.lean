import Regraft.Proofs.Search.Conjunction
import Regraft.Proofs.Unify.Stepwise

/-
  Matching where no operator is commutative is unification. The search for such a match never branches: it
  amounts to one answer or none (`Search.AmountsTo`). Operands are matched one after the other, each as
  it would be unified, so that by induction on the rounds that are left the answer is the one of
  unification, disequalities and sites included (`modulo_amountsTo`).
-/

namespace Regraft

/-- A session with some facts and terms, whatever it has counted. -/
structure Session.StandsAt (F : Facts) (st : Store) (ses : Session) : Prop where
  facts : ses.facts = F
  store : ses.store = st

namespace Tree

/-- The operator of an application is not commutative. -/
def fixedLabel (F : Facts) : Label → Prop
  | .leaf _ => True
  | .node op _ _ => F.isCommutative op = false

/-- No operator in a tree is commutative. -/
def Fixed (F : Facts) (t : Tree) : Prop := t.Over (fixedLabel F)

end Tree

namespace Search

open Session (StandsAt)
open Process (Runs Ends Drains)

variable {F : Facts} {st : Store} {ses : Session} {search inner : Search} {goal : Goal} {o : Option Subst}

/-- A search gives at most one answer, and then ends. -/
inductive AmountsTo (F : Facts) (st : Store) : Search → Option Subst → Prop
  | unit (s : Subst) : AmountsTo F st (unit s) (some s)
  | exhausted {search : Search} (stops : ∀ ses, StandsAt F st ses → (search.step ses).1 = .exhausted) :
      AmountsTo F st search none
  | goOn {search next : Search} {o : Option Subst}
      (step : ∀ ses, StandsAt F st ses →
        (search.step ses).1 = .continue next ∧ StandsAt F st (search.step ses).2)
      (later : AmountsTo F st next o) : AmountsTo F st search o

theorem at_count (f : Counters → Counters) (h : StandsAt F st ses) :
    StandsAt F st (Session.count f ses).2 :=
  ⟨h.facts, h.store⟩

/-- An action sets up a search that gives at most one answer. -/
def SetsUpAmount (F : Facts) (st : Store) (act : SessionM Search) (o : Option Subst) : Prop :=
  ∃ search, AmountsTo F st search o ∧
    ∀ ses, StandsAt F st ses → (act ses).1 = search ∧ StandsAt F st (act ses).2

namespace AmountsTo

theorem empty : AmountsTo F st .empty none := .exhausted fun _ _ => rfl

theorem ofOption (o : Option Subst) : AmountsTo F st (ofOption o) o := by
  cases o with
  | none => exact .empty
  | some s => exact .unit s

theorem apply {s : Subst} (h : SetsUpAmount F st (goal.apply s) o) :
    AmountsTo F st (.apply goal s) o := by
  obtain ⟨search, amounts, applied⟩ := h
  refine .goOn (fun ses here => ?_) amounts
  obtain ⟨eq, after⟩ := applied ses here
  exact ⟨congrArg Step.continue eq, after⟩

/-- The only answer goes on into a goal. -/
theorem bind {k : Subst → Option Subst} (h : AmountsTo F st inner o)
    (hg : ∀ s, o = some s → AmountsTo F st (.apply goal s) (k s)) :
    AmountsTo F st (.bind inner goal) (o.bind k) := by
  induction h with
  | unit s =>
    refine .goOn (fun ses here => ?_) (hg s rfl)
    rw [step_bind]
    exact ⟨rfl, here⟩
  | @exhausted inner stops =>
    refine .exhausted fun ses here => ?_
    have eq : inner.step ses = (.exhausted, (inner.step ses).2) := Prod.ext (stops ses here) rfl
    rw [step_bind, eq]
  | @goOn inner next o step later ih =>
    refine .goOn (fun ses here => ?_) (ih hg)
    obtain ⟨continues, after⟩ := step ses here
    have eq : inner.step ses = (.continue next, (inner.step ses).2) := Prod.ext continues rfl
    rw [step_bind, eq]
    exact ⟨rfl, after⟩

/-- All that can be pulled from the search is its answer. -/
theorem drains (h : AmountsTo F st search o) (here : StandsAt F st ses) :
    Drains Search.turn ses search o.toList := by
  suffices ∃ ses' last, Runs Search.turn ses search o.toList ses' last ∧ Ends Search.turn ses' last by
    obtain ⟨ses', last, run, ends⟩ := this
    exact run.drains ends
  induction h generalizing ses with
  | unit s => exact ⟨_, _, .yielded rfl .refl, .of_finished rfl⟩
  | @exhausted search stops =>
    let counted := (Session.count Counters.countStep ses).2
    have eq : search.step counted = (.exhausted, (search.step counted).2) :=
      Prod.ext (stops counted (at_count _ here)) rfl
    exact ⟨_, _, .refl, .of_finished (turn_exhausted eq)⟩
  | @goOn search next o step later ih =>
    let counted := (Session.count Counters.countStep ses).2
    obtain ⟨continues, after⟩ := step counted (at_count _ here)
    have eq : search.step counted = (.continue next, (search.step counted).2) := Prod.ext continues rfl
    obtain ⟨ses', last, run, ends⟩ := ih after
    exact ⟨ses', last, .working (turn_continue eq) run, ends⟩

end AmountsTo

/-! ## A layer of a match -/

section

variable {s : Subst} {a b : TermId} {f g : String} {xs ys : List TermId} {attrs attrs' : Attrs}

theorem moduloWithin_same (depth : Nat) (same : s.deref ses.store a = s.deref ses.store b) :
    moduloWithin (depth + 1) a b s ses = (unit s, ses) := if_pos same

theorem moduloWithin_app (depth : Nat) (ne : s.deref ses.store a ≠ s.deref ses.store b)
    (left : ses.store.term? (s.deref ses.store a) = some (.app f xs attrs))
    (right : ses.store.term? (s.deref ses.store b) = some (.app g ys attrs')) :
    moduloWithin (depth + 1) a b s ses = if f = g ∧ attrs.compatible attrs' = true then
      matchOperands (moduloWithin depth) f (s.deref ses.store a) (s.deref ses.store b) xs ys s ses
    else mismatch ses := by
  rw [moduloWithin]
  simp only [ne, if_false, Store.app?_eq_some_iff.mpr left, Store.app?_eq_some_iff.mpr right]

theorem moduloWithin_other (depth : Nat) (ne : s.deref ses.store a ≠ s.deref ses.store b)
    (other : ses.store.app? (s.deref ses.store a) = none ∨ ses.store.app? (s.deref ses.store b) = none) :
    moduloWithin (depth + 1) a b s ses =
      Search.unify (s.deref ses.store a) (s.deref ses.store b) s ses := by
  rw [moduloWithin]
  simp only [ne, if_false]
  split
  · rename_i left right
    rw [left, right] at other
    exact absurd other (by simp)
  · rfl

end

/-! ## Matching -/

open Subst (Watched unifyPairs settle)

variable {own has : Tree.Label → Prop} {s : Subst} {a b : TermId} {n : Nat}
  {pairs : List (TermId × TermId)}

/-- Goals whose potential is below a bound amount to unification. -/
def GoalAmounts (F : Facts) (own has : Tree.Label → Prop) (st : Store) (n : Nat) : Prop :=
  ∀ {s a b}, Watched own has st ([(a, b)], s) → s.potential st a < n →
    AmountsTo F st (.apply (.modulo a b) s) (s.unify st a b)

theorem foldl_modulo_amountsTo (hg : GoalAmounts F own has st n) (h : AmountsTo F st inner o)
    (each : ∀ s, o = some s → Watched own has st (pairs, s) ∧ ∀ p ∈ pairs, s.potential st p.1 < n) :
    AmountsTo F st ((pairs.map fun p => Goal.modulo p.1 p.2).foldl bind inner)
      (o.bind (unifyPairs (fun a b s => s.unify st a b) pairs)) := by
  induction pairs generalizing inner o with
  | nil =>
    cases o <;> exact h
  | cons p rest ih =>
    have first : AmountsTo F st (.bind inner (.modulo p.1 p.2)) (o.bind fun s => s.unify st p.1 p.2) :=
      h.bind fun s eq => hg (each s eq).1.head ((each s eq).2 p (.head _))
    have all : o.bind (unifyPairs (fun a b s => s.unify st a b) (p :: rest)) =
        (o.bind fun s => s.unify st p.1 p.2).bind (unifyPairs (fun a b s => s.unify st a b) rest) :=
      (Option.bind_assoc ..).symm
    rw [all]
    refine ih first fun t unified => ?_
    obtain ⟨s, eq, unified⟩ := Option.bind_eq_some_iff.mp unified
    obtain ⟨watched, le⟩ := (each s eq).1.unified unified
    exact ⟨watched, fun q hq => Nat.lt_of_le_of_lt (le q.1) ((each s eq).2 q (.tail _ hq))⟩

/-- A matcher that goes down at once amounts to unification as well. -/
def MatcherAmounts (F : Facts) (own has : Tree.Label → Prop) (st : Store) (n : Nat) (m : Matcher) :
    Prop :=
  ∀ {s a b}, Watched own has st ([(a, b)], s) → s.potential st a < n →
    SetsUpAmount F st (m a b s) (s.unify st a b)

theorem SetsUpAmount.congr {act act' : SessionM Search}
    (eq : ∀ ses, StandsAt F st ses → act ses = act' ses) (h : SetsUpAmount F st act' o) :
    SetsUpAmount F st act o := by
  obtain ⟨search, amounts, applied⟩ := h
  refine ⟨search, amounts, fun ses here => ?_⟩
  rw [eq ses here]
  exact applied ses here

theorem unit_amountsTo : SetsUpAmount F st (pure (unit s)) (some s) :=
  ⟨_, .unit s, fun _ here => ⟨rfl, here⟩⟩

theorem matchPairs_amountsTo {m : Matcher} (hg : GoalAmounts F own has st n) (hm : MatcherAmounts F own has st n m)
    (h : Watched own has st (pairs, s)) (below : ∀ p ∈ pairs, s.potential st p.1 < n) :
    SetsUpAmount F st (matchPairs m s pairs) (unifyPairs (fun a b s => s.unify st a b) pairs s) := by
  match pairs with
  | [] => exact unit_amountsTo
  | [(a, b)] =>
    have one : unifyPairs (fun a b s => s.unify st a b) [(a, b)] s = s.unify st a b :=
      Option.bind_fun_some _
    rw [one]
    exact hm h (below (a, b) (.head _))
  | (a, b) :: p :: rest =>
    refine ⟨_, ?_, fun _ here => ⟨rfl, here⟩⟩
    have first : AmountsTo F st (.apply (.modulo a b) s) (s.unify st a b) :=
      hg h.head (below (a, b) (.head _))
    have later : ∀ t, s.unify st a b = some t → Watched own has st (p :: rest, t) ∧
        ∀ q ∈ p :: rest, t.potential st q.1 < n := by
      intro t unified
      obtain ⟨watched, le⟩ := h.unified unified
      exact ⟨watched, fun q hq => Nat.lt_of_le_of_lt (le q.1) (below q (.tail _ hq))⟩
    exact foldl_modulo_amountsTo hg first later

theorem mismatch_amountsTo : SetsUpAmount F st mismatch none :=
  ⟨_, .empty, fun _ here => ⟨rfl, at_count _ here⟩⟩

theorem unify_amountsTo (a b : TermId) (s : Subst) :
    SetsUpAmount F st (Search.unify a b s) (s.unify st a b) := by
  refine ⟨_, .ofOption _, fun ses here => ?_⟩
  rw [unify_apply, here.store]
  cases s.unify st a b with
  | none => exact ⟨rfl, at_count _ here⟩
  | some t => exact ⟨rfl, at_count _ here⟩

/-- The matcher amounts to unification at every depth that exceeds the potential. -/
theorem moduloWithin_amountsTo (fixed : ∀ op k attrs, own (.node op k attrs) → F.isCommutative op = false)
    (hg : GoalAmounts F own has st n) (depth : Nat) (h : Watched own has st ([(a, b)], s))
    (le : s.potential st a ≤ n) (lt : s.potential st a < depth) :
    SetsUpAmount F st (moduloWithin depth a b s) (s.unify st a b) := by
  induction depth generalizing s a b with
  | zero => cases lt
  | succ depth ih =>
    obtain ⟨ha, hb⟩ := h.ready.stored _ (.head _)
    obtain ⟨la, -⟩ := h.own _ (.head _)
    have hs := h.ready.sound
    by_cases same : s.deref st a = s.deref st b
    · have settled : settle st a b s = some ([], s) := by
        unfold settle
        exact if_pos same
      rw [(h.settled settled).2.2]
      refine .congr (fun ses here => ?_) unit_amountsTo
      rw [← here.store] at same
      exact moduloWithin_same depth same
    have other : st.app? (s.deref st a) = none ∨ st.app? (s.deref st b) = none →
        SetsUpAmount F st (moduloWithin (depth + 1) a b s) (s.unify st a b) := by
      intro other
      have resolved : s.unify st (s.deref st a) (s.deref st b) = s.unify st a b := by
        rw [Subst.unify_eq_bind, Subst.unify_eq_bind, hs.unifyBindings_deref ha hb]
      rw [← resolved]
      refine .congr (fun ses here => ?_) (unify_amountsTo _ _ s)
      obtain ⟨-, rfl⟩ := here
      exact moduloWithin_other depth same other
    cases left : st.app? (s.deref st a) with
    | none => exact other (.inl left)
    | some x => cases right : st.app? (s.deref st b) with
      | none => exact other (.inr right)
      | some y =>
        obtain ⟨f, xs, attrs⟩ := x
        obtain ⟨g, ys, attrs'⟩ := y
        have left := Store.app?_eq_some_iff.mp left
        have right := Store.app?_eq_some_iff.mp right
        have settles := Subst.settle_of_app same left right
        rw [hs.tree_of_app left, Tree.over_app] at la
        have comm : F.isCommutative f = false := fixed _ _ _ la.1
        have step : ∀ ses, StandsAt F st ses → moduloWithin (depth + 1) a b s ses =
            if f = g ∧ attrs.compatible attrs' = true then
              if xs.length ≠ ys.length then mismatch ses
              else matchPairs (moduloWithin depth) s (xs.zip ys) ses
            else mismatch ses := by
          intro ses here
          obtain ⟨rfl, rfl⟩ := here
          rw [moduloWithin_app depth same left right]
          unfold matchOperands
          simp only [comm, Bool.false_and, Bool.false_eq_true, if_false]
        by_cases fits : f = g ∧ xs.length = ys.length ∧ attrs.compatible attrs' = true
        · rw [if_pos fits] at settles
          obtain ⟨rfl, length, fits⟩ := fits
          obtain ⟨watched, below, eq⟩ := h.settled settles
          rw [eq]
          have pairwise : SetsUpAmount F st (matchPairs (moduloWithin depth) s (xs.zip ys))
              (unifyPairs (fun a b s => s.unify st a b) (xs.zip ys) s) := by
            refine matchPairs_amountsTo (n := s.potential st a) (fun watched lt => ?_)
              (fun watched lt => ?_) watched below
            · exact hg watched (Nat.lt_of_lt_of_le lt le)
            · exact ih watched (by omega) (by omega)
          refine .congr (fun ses here => ?_) pairwise
          rw [step ses here, if_pos ⟨rfl, fits⟩, if_neg (not_not.mpr length)]
        · rw [if_neg fits] at settles
          have failed : s.unify st a b = none := by
            rw [Subst.unify_eq_bind, hs.unifyBindings_settle ha hb, settles]
            rfl
          rw [failed]
          refine .congr (fun ses here => ?_) mismatch_amountsTo
          rw [step ses here]
          split
          · rename_i same
            exact if_pos fun length => fits ⟨same.1, length, same.2⟩
          · rfl

/-- Where no operator is commutative, matching amounts to unification. -/
theorem modulo_amountsTo (fixed : ∀ op k attrs, own (.node op k attrs) → F.isCommutative op = false)
    (h : Watched own has st ([(a, b)], s)) : AmountsTo F st (.apply (.modulo a b) s) (s.unify st a b) := by
  suffices ∀ n, GoalAmounts F own has st n from this _ h (Nat.lt_succ_self _)
  intro n
  induction n with
  | zero => exact fun _ lt => absurd lt (Nat.not_lt_zero _)
  | succ n ih =>
    intro s a b h lt
    refine .apply (.congr (fun ses here => ?_) (moduloWithin_amountsTo fixed ih (Subst.pairBound st) h
      (Nat.le_of_lt_succ lt) Subst.potential_lt_pairBound))
    obtain ⟨-, rfl⟩ := here
    rfl

/-- Where no operator is commutative, the answers of a match are the outcome of unification: at most one,
    with the same bindings, disequalities and sites. If disequalities are carried, all terms have to be
    bare. -/
theorem modulo_drains_unify (hs : s.Sound ses.store) (ha : ses.store.Stored a) (hb : ses.store.Stored b)
    (left : (s.tree ses.store a).Fixed ses.facts) (right : (s.tree ses.store b).Fixed ses.facts)
    (bare : s.constraints = [] ∨ (s.tree ses.store a).Bare ∧ (s.tree ses.store b).Bare ∧
      ∀ d ∈ s.constraints, d.Over Tree.bareLabel ses.store s) :
    Drains Search.turn ses (.apply (.modulo a b) s) (s.unify ses.store a b).toList := by
  have here : StandsAt ses.facts ses.store ses := ⟨rfl, rfl⟩
  have ready := Subst.ready_pair hs ha hb
  have own : Subst.Work.Over (Tree.fixedLabel ses.facts) ses.store ([(a, b)], s) :=
    Subst.over_pair left right
  rcases bare with free | ⟨bareLeft, bareRight, labels⟩
  · have any := Subst.over_pair (Tree.over_any (s.tree ses.store a)) (Tree.over_any (s.tree ses.store b))
    have watches : s.Watches Tree.anyLabel ses.store :=
      ⟨fun d hd => absurd (free ▸ hd) List.not_mem_nil, .inl free⟩
    exact (modulo_amountsTo (fun _ _ _ h => h) ⟨ready, own, any, watches⟩).drains here
  · have watches : s.Watches Tree.bareLabel ses.store := ⟨labels, .inr Tree.rigid_bare⟩
    have bareLabels := Subst.over_pair bareLeft bareRight
    exact (modulo_amountsTo (fun _ _ _ h => h) ⟨ready, own, bareLabels, watches⟩).drains here

/-- Two variables and an input, the power of one variable to the other, and that of the input to the
    negated first variable. -/
def powers : Session :=
  .holding ⟨["add"], ["add"]⟩ [.var 0, .var 1, .leaf (.input "a"), .app "neg" [⟨0⟩] .unspecified,
    .app "pow" [⟨0⟩, ⟨1⟩] .unspecified, .app "pow" [⟨2⟩, ⟨3⟩] .unspecified]

/-- The first variable is bound to the input and the second to its negation, which is not the input, so
    that the disequality of the two variables is dropped. -/
theorem powers_drains :
    ∃ s, (Subst.empty.addConstraint ⟨⟨1⟩, ⟨0⟩⟩).unify powers.store ⟨4⟩ ⟨5⟩ = some s ∧
      s.toList = [(0, ⟨2⟩), (1, ⟨3⟩)] ∧ s.constraints = [] ∧
      Drains Search.turn powers (.apply (.modulo ⟨4⟩ ⟨5⟩) (Subst.empty.addConstraint ⟨⟨1⟩, ⟨0⟩⟩)) [s] := by
  have valid : powers.store.Valid := by decide +kernel
  let s := Subst.empty.addConstraint ⟨⟨1⟩, ⟨0⟩⟩
  have sound : s.Sound powers.store := (Subst.Sound.empty valid).congr rfl
  have x := sound.tree_var (show powers.store.term? ⟨0⟩ = some (.var 0) by decide +kernel)
  have y := sound.tree_var (show powers.store.term? ⟨1⟩ = some (.var 1) by decide +kernel)
  have a := sound.tree_leaf (show powers.store.term? ⟨2⟩ = some (.leaf (.input "a")) by decide +kernel)
  have neg := sound.tree_app
    (show powers.store.term? ⟨3⟩ = some (.app "neg" [⟨0⟩] .unspecified) by decide +kernel)
  have left := sound.tree_app
    (show powers.store.term? ⟨4⟩ = some (.app "pow" [⟨0⟩, ⟨1⟩] .unspecified) by decide +kernel)
  have right := sound.tree_app
    (show powers.store.term? ⟨5⟩ = some (.app "pow" [⟨2⟩, ⟨3⟩] .unspecified) by decide +kernel)
  rw [Subst.image_of_unbound (show s.get? 0 = none by decide +kernel)] at x
  rw [Subst.image_of_unbound (show s.get? 1 = none by decide +kernel)] at y
  simp only [List.map_cons, List.map_nil, x, y, a] at neg left right
  rw [neg] at right
  obtain ⟨t, unified⟩ := Option.isSome_iff_exists.mp
    (show (s.unify powers.store ⟨4⟩ ⟨5⟩).isSome = true by decide +kernel)
  have list : (s.unify powers.store ⟨4⟩ ⟨5⟩).map (fun t => (t.toList, t.constraints)) =
      some ([(0, ⟨2⟩), (1, ⟨3⟩)], []) := by decide +kernel
  rw [unified, Option.map_some, Option.some.injEq, Prod.mk.injEq] at list
  have drains := modulo_drains_unify sound
    (show powers.store.Stored ⟨4⟩ by decide +kernel) (show powers.store.Stored ⟨5⟩ by decide +kernel)
    (by rw [left]; simp [Tree.Fixed, Tree.over_app, Tree.fixedLabel, Tree.Over.var]; decide)
    (by rw [right]; simp [Tree.Fixed, Tree.over_app, Tree.fixedLabel, Tree.Over.var, Tree.over_leaf]; decide)
    (.inr ⟨by rw [left]; simp [Tree.Bare, Tree.over_app, Tree.bareLabel, Tree.Over.var],
      by rw [right]; simp [Tree.Bare, Tree.over_app, Tree.bareLabel, Tree.Over.var, Tree.over_leaf],
      List.forall_mem_singleton.mpr ⟨by decide +kernel, by decide +kernel, y ▸ .var 1, x ▸ .var 0⟩⟩)
  rw [unified] at drains
  exact ⟨t, unified, list.1, list.2, drains⟩

end Search

end Regraft
