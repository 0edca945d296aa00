import Regraft.Proofs.Search.Goal
import Regraft.Proofs.Search.Process
import Regraft.Proofs.Session.Grows
import Regraft.Proofs.Unify.Requirements

/-
  Conjunctions of equations and disequalities. Each goal gives at most one answer, so that the search for
  a conjunction imposes them one after the other and ends (`conj_finishes`). In any order it
  then has an answer just when the equations have a most general solution that keeps the
  disequalities, and what the answer stands for does not depend on the order (`conj_in_any_order`).
-/

namespace Regraft

namespace Requirement

variable {st : Store} {ses ses' : Session} {s : Subst} {r : Requirement}

/-- The goal that imposes a requirement. -/
def goal : Requirement → Goal
  | equal a b => .eq a b
  | distinct a b => .neq a b

/-- A requirement is imposed, and only counts change. -/
theorem goal_apply (r : Requirement) (s : Subst) (ses : Session) :
    ∃ ses', r.goal.apply s ses = (.ofOption (impose ses.store s r), ses') ∧
      ses'.store = ses.store := by
  cases r with
  | equal a b =>
    show ∃ ses', Search.unify a b s ses = (.ofOption (s.unify ses.store a b), ses') ∧ _
    rw [Search.unify_apply]
    cases s.unify ses.store a b with
    | none => exact ⟨_, rfl, rfl⟩
    | some t => exact ⟨_, rfl, rfl⟩
  | distinct a b =>
    show ∃ ses', (Goal.neq a b).apply s ses = (.ofOption (s.requireDistinct ses.store a b), ses') ∧ _
    rw [Goal.neq_apply]
    cases s.requireDistinct ses.store a b with
    | none => exact ⟨_, rfl, rfl⟩
    | some t => exact ⟨_, rfl, rfl⟩

end Requirement

namespace Search

variable {ses ses' : Session} {s : Subst} {search inner next : Search} {gs : List Goal}

/-- A search whose answers go on through some goals. -/
def onward (inner : Search) (gs : List Goal) : Search := gs.foldl bind inner

theorem turn_continue
    (h : search.step (Session.count Counters.countStep ses).2 = (.continue next, ses')) :
    search.turn ses = (.working next, ses') := by
  rw [turn_eq, h]

theorem turn_exhausted
    (h : search.step (Session.count Counters.countStep ses).2 = (.exhausted, ses')) :
    search.turn ses = (.finished, ses') := by
  rw [turn_eq, h]

/-- A search goes on inside. -/
theorem step_onward_continue (h : inner.step ses = (.continue next, ses')) (gs : List Goal) :
    (onward inner gs).step ses = (.continue (onward next gs), ses') := by
  induction gs generalizing inner next with
  | nil => exact h
  | cons g rest ih =>
    have outer : (bind inner g).step ses = (.continue (bind next g), ses') := by rw [step_bind, h]
    exact ih outer

/-- A search that is exhausted inside is exhausted. -/
theorem step_onward_exhausted (h : inner.step ses = (.exhausted, ses')) (gs : List Goal) :
    (onward inner gs).step ses = (.exhausted, ses') := by
  induction gs generalizing inner with
  | nil => exact h
  | cons g rest ih =>
    have outer : (bind inner g).step ses = (.exhausted, ses') := by rw [step_bind, h]
    exact ih outer

/-- The only answer of a search goes on into the next goal. -/
theorem step_onward_unit (s : Subst) (g : Goal) (gs : List Goal) (ses : Session) :
    (onward (unit s) (g :: gs)).step ses = (.continue (onward (.apply g s) gs), ses) := by
  have fed : (bind (unit s) g).step ses = (.continue (.apply g s), ses) := by
    rw [step_bind]
    rfl
  exact step_onward_continue fed gs

end Search

open Process

namespace Requirement

variable {has : Tree.Label → Prop} {ses ses' : Session} {s : Subst} {rs rs' : List Requirement}

/-- The next requirement is imposed. -/
theorem turn_apply (r : Requirement) (s : Subst) (rest : List Requirement) (ses : Session) :
    ∃ ses', Search.turn (.onward (.apply r.goal s) (rest.map goal)) ses =
      (.working (.onward (.ofOption (impose ses.store s r)) (rest.map goal)), ses') ∧
        ses'.store = ses.store := by
  obtain ⟨ses', applied, kept⟩ := r.goal_apply s (Session.count Counters.countStep ses).2
  refine ⟨ses', Search.turn_continue (Search.step_onward_continue ?_ _), kept⟩
  show (Step.continue (r.goal.apply s (Session.count Counters.countStep ses).2).1,
    (r.goal.apply s (Session.count Counters.countStep ses).2).2) = _
  rw [applied]
  rfl

/-- The search imposes the requirements that are left one after the other, and ends. -/
theorem onward_ends (st : Store) (o : Option Subst) (rs : List Requirement) (ses : Session)
    (store : ses.store = st) :
    ∃ ses' last, Runs Search.turn ses (.onward (.ofOption o) (rs.map goal))
      (o.bind (rs.foldlM (impose st))).toList ses' last ∧ Ends Search.turn ses' last := by
  induction rs generalizing o ses with
  | nil => cases o with
    | none => exact ⟨_, _, .refl, .of_finished rfl⟩
    | some s => exact ⟨_, _, .yielded rfl .refl, .of_finished rfl⟩
  | cons r rest ih => cases o with
    | none =>
      have ended : Search.turn (.onward .empty (goal r :: rest.map goal)) ses = (.finished, _) :=
        Search.turn_exhausted (Search.step_onward_exhausted rfl _)
      exact ⟨_, _, .refl, .of_finished ended⟩
    | some s =>
      let counted := (Session.count Counters.countStep ses).2
      have enter : Search.turn (.onward (.unit s) (goal r :: rest.map goal)) ses =
          (.working (.onward (.apply r.goal s) (rest.map goal)), counted) :=
        Search.turn_continue (Search.step_onward_unit s r.goal (rest.map goal) counted)
      obtain ⟨ses₁, apply, kept⟩ := r.turn_apply s rest counted
      obtain ⟨ses', last, run, ends⟩ := ih (impose st s r) ses₁ (kept.trans store)
      rw [show counted.store = st from store] at apply
      exact ⟨ses', last, .working enter (.working apply run), ends⟩

/-- The search for a conjunction imposes the requirements one after the other, and ends. -/
theorem conj_drains (rs : List Requirement) (s : Subst) (ses : Session) :
    Drains Search.turn ses (.apply (.conj (rs.map goal)) s)
      (rs.foldlM (impose ses.store) s).toList := by
  let counted := (Session.count Counters.countStep ses).2
  match rs with
  | [] =>
    obtain ⟨ses', last, run, ends⟩ := onward_ends ses.store (some s) [] counted rfl
    exact (Runs.working (Search.turn_continue rfl) run).drains ends
  | [r] =>
    obtain ⟨ses₁, apply, kept⟩ := r.turn_apply s [] ses
    obtain ⟨ses', last, run, ends⟩ := onward_ends ses.store (impose ses.store s r) [] ses₁ kept
    exact (Runs.working apply run).drains ends
  | r :: r' :: rest =>
    have enter : Search.turn (.apply (.conj ((r :: r' :: rest).map goal)) s) ses =
        (.working (.onward (.apply r.goal s) ((r' :: rest).map goal)), counted) :=
      Search.turn_continue rfl
    obtain ⟨ses₁, apply, kept⟩ := r.turn_apply s (r' :: rest) counted
    obtain ⟨ses', last, run, ends⟩ :=
      onward_ends ses.store (impose ses.store s r) (r' :: rest) ses₁ kept
    exact (Runs.working enter (.working apply run)).drains ends

/-- A conjunction of equations and disequalities of bare terms behaves alike in any order: it has at most
    one answer, and has one just when the equations have a most general solution under which no
    disequality has the same sides. The answers for two orders admit the same assignments and carry
    the same disequalities. -/
theorem conj_in_any_order (valid : ses.store.Valid)
    (bare : ∀ r ∈ rs, r.Over Tree.bareLabel ses.store) (perm : rs.Perm rs') :
    ∃ o o' : Option Subst,
      Drains Search.turn ses (.apply (.conj (rs.map goal)) .empty) o.toList ∧
      Drains Search.turn ses (.apply (.conj (rs'.map goal)) .empty) o'.toList ∧
      ((∃ s, o = some s) ↔ ∃ θ, MostGeneral ses.store (equations rs) θ ∧
        ∀ d ∈ disequalities rs, ¬ ses.store.Equates θ d.lhs d.rhs) ∧
      ((∃ s', o' = some s') ↔ ∃ s, o = some s) ∧
      ∀ s s', o = some s → o' = some s' →
        (∀ θ, s.Admits ses.store θ ↔ s'.Admits ses.store θ) ∧
          s.constraints.Perm s'.constraints := by
  have bare' : ∀ r ∈ rs', r.Over Tree.bareLabel ses.store := fun r hr => bare r (perm.mem_iff.mpr hr)
  have rigid := Tree.rigid_bare
  have exists_iff := Imposed.exists_iff rigid valid bare
  have exists_iff' := Imposed.exists_iff rigid valid bare'
  refine ⟨_, _, conj_drains rs .empty ses, conj_drains rs' .empty ses, ?_, ?_, fun s s' h h' => ?_⟩
  · exact exists_iff.1.trans exists_iff.2
  · rw [exists_iff.1, exists_iff'.1]
    exact ⟨fun ⟨θ, met⟩ => ⟨θ, met.perm perm.symm⟩, fun ⟨θ, met⟩ => ⟨θ, met.perm perm⟩⟩
  · have first := foldlM_impose rigid rs (imposed_nil valid) bare
    have second := foldlM_impose rigid rs' (imposed_nil valid) bare'
    rw [h] at first
    rw [h'] at second
    exact first.perm rigid bare perm second

/-- Two variables and an input. -/
def twoVariables : Session := .holding .none [.var 0, .var 1, .leaf (.input "a")]

/-- That `x` is not `y` may be required before or after `x` is `a`. -/
theorem twoVariables_in_any_order :
    ∃ s s', Drains Search.turn twoVariables
        (.apply (.conj ([distinct ⟨0⟩ ⟨1⟩, equal ⟨0⟩ ⟨2⟩].map goal)) .empty) [s] ∧
      Drains Search.turn twoVariables
        (.apply (.conj ([equal ⟨0⟩ ⟨2⟩, distinct ⟨0⟩ ⟨1⟩].map goal)) .empty) [s'] ∧
      (∀ θ, s.Admits twoVariables.store θ ↔ s'.Admits twoVariables.store θ) ∧
      s.constraints.Perm s'.constraints := by
  have valid : twoVariables.store.Valid := by decide +kernel
  have x := valid.tree_var (show twoVariables.store.term? ⟨0⟩ = some (.var 0) by decide +kernel)
  have y := valid.tree_var (show twoVariables.store.term? ⟨1⟩ = some (.var 1) by decide +kernel)
  have a := valid.tree_leaf
    (show twoVariables.store.term? ⟨2⟩ = some (.leaf (.input "a")) by decide +kernel)
  have bare : ∀ r ∈ [distinct ⟨0⟩ ⟨1⟩, equal ⟨0⟩ ⟨2⟩],
      r.Over Tree.bareLabel twoVariables.store := by
    rw [List.forall_mem_cons, List.forall_mem_singleton]
    refine ⟨⟨by decide +kernel, by decide +kernel, ?_, ?_⟩,
      ⟨by decide +kernel, by decide +kernel, ?_, ?_⟩⟩
    · exact x ▸ .var 0
    · exact y ▸ .var 1
    · exact x ▸ .var 0
    · exact a ▸ .leaf trivial
  obtain ⟨o, o', drains, drains', exists_iff, same, alike⟩ := conj_in_any_order valid bare (.swap ..)
  obtain ⟨s, rfl⟩ := exists_iff.mpr <| by
    refine ⟨fun v => if v = 0 then .leaf (.input "a") else .var v, ⟨?_, fun σ solves => ⟨σ, ?_⟩⟩, ?_⟩
    · refine List.forall_mem_singleton.mpr ?_
      simp only [Store.Equates, x, a, Tree.subst_var, Tree.subst_leaf, if_true]
      exact .refl _
    · have solved : Tree.Same (σ 0) (.leaf (.input "a")) := by
        have := solves (⟨0⟩, ⟨2⟩) (List.mem_singleton_self _)
        rwa [Store.Equates, x, a, Tree.subst_var, Tree.subst_leaf] at this
      intro v
      by_cases h : v = 0
      · subst h
        exact solved
      · simp only [h, if_false, Tree.subst_var]
        exact .refl _
    · refine List.forall_mem_singleton.mpr ?_
      simp only [Store.Equates, x, y, Tree.subst_var, if_true]
      intro same
      cases same
  obtain ⟨s', rfl⟩ := same.mpr ⟨s, rfl⟩
  exact ⟨s, s', drains, drains', alike s s' rfl rfl⟩

end Requirement

end Regraft
