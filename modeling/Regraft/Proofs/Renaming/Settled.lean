import Regraft.Proofs.Renaming.Fixpoint
import Regraft.Proofs.Rewriting.Positions
import Regraft.Proofs.Rewriting.Idle

/-
  A term that is found as a fixpoint stays one (`Fixpoint.stays`). The rule was idle at it when the
  run came there, in a session that has gone on since. Two runs are compared with each other to see
  that it is idle still: the first one with itself, which shows that sessions go on as they should, and
  its last walk with a walk from the same term later.
-/

namespace Regraft

open Renaming (Same Walks)

variable {ses a b c later after : Session} {t : TermId} {rule : Rule} {w : Walk}

/-! ## Sessions that go on -/

/-- What a store has in common with whatever it becomes: its variables and their names. -/
def Store.common (st : Store) : Common where
  base := st.nextVar.toNat
  names name := (st.named.lookup name).filter (·.toNat < st.nextVar.toNat)

/-- The same variables and names, and maybe more. -/
structure Common.Le (k k' : Common) : Prop where
  base : k.base ≤ k'.base
  names : ∀ name v, k.names name = some v → k'.names name = some v

/-- From a session to a later one, where variables are counted from no earlier one. -/
structure Session.GoesOn (a b : Session) : Prop where
  grows : a.Grows b
  common : a.store.common.Le b.store.common

theorem Common.Le.refl (k : Common) : k.Le k := ⟨Nat.le_refl _, fun _ _ => id⟩

theorem Common.Le.trans {k k' k'' : Common} (h : k.Le k') (h' : k'.Le k'') : k.Le k'' :=
  ⟨Nat.le_trans h.base h'.base, fun name v eq => h'.names name v (h.names name v eq)⟩

namespace Session.GoesOn

theorem refl (a : Session) : a.GoesOn a := ⟨.refl a, .refl _⟩

theorem trans (h : a.GoesOn b) (h' : b.GoesOn c) : a.GoesOn c :=
  ⟨h.grows.trans h'.grows, h.common.trans h'.common⟩

end Session.GoesOn

namespace Script

variable {k k' : Common} {bound : List String}

mutual

theorem Template.within_mono (le : k.Le k') (t : Template) (h : t.within k bound = true) :
    t.within k' bound = true := by
  have known : ∀ {name}, (k.names name).isSome = true → (k'.names name).isSome = true := by
    intro name h
    obtain ⟨v, eq⟩ := Option.isSome_iff_exists.mp h
    exact Option.isSome_iff_exists.mpr ⟨v, le.names name v eq⟩
  match t with
  | .ref name =>
    rw [Template.within, Bool.or_eq_true] at h ⊢
    exact h.imp id known
  | .var index =>
    rw [Template.within, decide_eq_true_eq] at h ⊢
    exact Nat.lt_of_lt_of_le h le.base
  | .named name =>
    rw [Template.within] at h ⊢
    exact known h
  | .op _ args | .tagged _ args _ =>
    rw [Template.within] at h ⊢
    exact Template.withinAll_mono le args h
  | .number _ | .constant _ _ | .input _ | .fresh => rfl

theorem Template.withinAll_mono (le : k.Le k') (ts : List Template)
    (h : Template.withinAll k bound ts = true) : Template.withinAll k' bound ts = true := by
  match ts with
  | [] => rfl
  | t :: rest =>
    rw [Template.withinAll, Bool.and_eq_true] at h ⊢
    exact ⟨t.within_mono le h.1, Template.withinAll_mono le rest h.2⟩

end

mutual

theorem Goal.within_mono (le : k.Le k') (goal : Goal) {bound : List String}
    (h : goal.within k bound = true) : goal.within k' bound = true := by
  match goal with
  | .succeed | .fail | .never => rfl
  | .eq a b | .neq a b | .modulo a b | .site a b =>
    rw [Goal.within, Bool.and_eq_true] at h ⊢
    exact ⟨a.within_mono le h.1, b.within_mono le h.2⟩
  | .conj goals | .disj goals =>
    rw [Goal.within] at h ⊢
    exact Goal.withinAll_mono le goals h
  | .countFrom a _ =>
    rw [Goal.within] at h ⊢
    exact a.within_mono le h
  | .defer vars body =>
    rw [Goal.within] at h ⊢
    exact Goal.within_mono le body h
  | .relate rule a b | .anywhere rule a b =>
    rw [Goal.within, Bool.and_eq_true, Bool.and_eq_true] at h ⊢
    exact ⟨Rule.within_mono le rule h.1, a.within_mono le h.2.1, b.within_mono le h.2.2⟩
  | .sites rules a b =>
    rw [Goal.within, Bool.and_eq_true, Bool.and_eq_true] at h ⊢
    exact ⟨Rule.withinAll_mono le rules h.1, a.within_mono le h.2.1, b.within_mono le h.2.2⟩

theorem Goal.withinAll_mono (le : k.Le k') (goals : List Goal) {bound : List String}
    (h : Goal.withinAll k bound goals = true) : Goal.withinAll k' bound goals = true := by
  match goals with
  | [] => rfl
  | goal :: rest =>
    rw [Goal.withinAll, Bool.and_eq_true] at h ⊢
    exact ⟨Goal.within_mono le goal h.1, Goal.withinAll_mono le rest h.2⟩

/-- A rule that mentions only what is common goes on doing so. -/
theorem Rule.within_mono (le : k.Le k') (rule : Rule) {bound : List String}
    (h : rule.within k bound = true) : rule.within k' bound = true := by
  match rule with
  | .pattern _ vars lhs rhs | .patternInChain _ vars lhs rhs =>
    rw [Rule.within, Bool.and_eq_true] at h ⊢
    exact ⟨lhs.within_mono le h.1, rhs.within_mono le h.2⟩
  | .any _ rules =>
    rw [Rule.within] at h ⊢
    exact Rule.withinAll_mono le rules h
  | .correlated _ vars sites guard =>
    rw [Rule.within, Bool.and_eq_true] at h ⊢
    exact ⟨Goal.within_mono le guard h.1, Rule.withinAll_mono le sites h.2⟩
  | .relation _ vars goal =>
    rw [Rule.within] at h ⊢
    exact Goal.within_mono le goal h

theorem Rule.withinAll_mono (le : k.Le k') (rules : List Rule) {bound : List String}
    (h : Rule.withinAll k bound rules = true) : Rule.withinAll k' bound rules = true := by
  match rules with
  | [] => rfl
  | rule :: rest =>
    rw [Rule.withinAll, Bool.and_eq_true] at h ⊢
    exact ⟨Rule.within_mono le rule h.1, Rule.withinAll_mono le rest h.2⟩

end

end Script

/-! ## Idle walks -/

/-- The session only grows while a walk with nothing new comes to its end. -/
theorem Walk.Idles.grows (h : w.Idles t ses after) (growing : w.Growing ses) (turns : Nat) :
    (w.firstChange t turns ses).2.Grows after := by
  induction h generalizing turns with
  | finished here =>
    cases turns with
    | zero =>
      have g := growing.turn.1
      rwa [here] at g
    | succ turns =>
      rw [firstChange_succ, here]
      exact .refl _
  | working here _ ih =>
    obtain ⟨g, left⟩ := growing.turn
    rw [here] at g left
    cases turns with
    | zero => exact g.trans (ih left 0)
    | succ turns =>
      rw [firstChange_succ, here]
      exact ih left turns
  | yielded here _ ih =>
    obtain ⟨g, left⟩ := growing.turn
    rw [here] at g left
    cases turns with
    | zero => exact g.trans (ih left.2 0)
    | succ turns =>
      rw [firstChange_succ, here]
      dsimp only
      rw [if_pos rfl]
      exact ih left.2 turns

namespace Renaming

variable {ρ : Renaming} {p : Sides} {t' : TermId} {w' : Walk}

/-- The earlier session shares its variables with the later one, and new ones are counted on from
    where each of them is. -/
def between (a b : Session) : Renaming :=
  ⟨a.store.common, b.store.nextVar.toNat - a.store.nextVar.toNat⟩

end Renaming

section

variable {scripted : Script.Rule} {env : Script.Env}
  (known : scripted.within ses.store.common (env.map Prod.fst) = true)
  (bound : ∀ e ∈ env, ses.store.Stored e.2) (hv : ses.store.Valid) (tidy : ses.store.Tidy)
  (ht : ses.store.Stored t) (idles : (scripted.build env).Idles t ses after)

include known bound hv tidy ht idles

end

/-! ## Runs -/

namespace Fixpoint

variable {ρ : Renaming} {start : Session} {f : Fixpoint} {r : Reduction} {turns : Nat}

/-- A term in a session that has come from the start and agrees with itself. -/
structure Opened (ρ : Renaming) (start : Session) (t : TermId) (ses : Session) : Prop where
  agree : ρ.Agree ⟨ses, ses⟩
  grows : start.Grows ses
  stored : ses.store.Stored t

/-- What a walk beside itself reports agrees with itself too. -/
theorem opened_of_turn {frame : Frame} {above : List Frame} {u : TermId} {ses' : Session}
    (beside : ρ.Fixpoints ⟨ses, ses⟩ f f) (path : f.path = frame :: above)
    (here : frame.successors.turn ses = (.yielded (.ok u) w, ses')) (agree : ρ.Agree ⟨ses, ses⟩)
    (since : start.Grows ses) (room : (f.turn ses).2.store.Roomy) :
    Opened ρ start u (Session.count Counters.countFixpointStep ses').2 := by
  have frames := beside.path
  rw [path, List.forall₂_cons] at frames
  have before : (frame.successors.turn ses).2.store.Roomy := by
    rw [turn_cons path] at room
    rw [here] at room ⊢
    exact room.of_grows (enter_grows ..).store
  have turned := Renaming.walk_turn frames.1.successors agree before
  dsimp only at turned
  rw [here] at turned
  obtain ⟨agree', g, result⟩ := turned
  obtain ⟨agree'', g', -⟩ := Renaming.count_steady Counters.countFixpointStep agree'
  cases result with
  | yielded same _ => cases same with
    | ok same => exact ⟨agree'', since.trans (g.trans g').left, (same.grow g').stored_left⟩

/-- A run beside itself finds a term where the rule was idle, in a session that agrees with itself. -/
theorem Unbroken.settled (h : f.Unbroken (fun _ => Opened ρ start) rule ses)
    (beside : ρ.Fixpoints ⟨ses, ses⟩ f f) (growing : f.Growing ses) (since : start.Grows ses)
    (agree : ρ.Agree ⟨ses, ses⟩) (found : Fixpoint.once turns f ses = (some (.ok r), after))
    (room : after.store.Roomy) : Settled (fun _ => Opened ρ start) rule r after := by
  induction turns generalizing ses f with
  | zero => cases found
  | succ turns ih =>
    obtain ⟨g, left⟩ := growing.turn
    have before : (f.turn ses).2.store.Roomy := by
      rw [once_succ] at found
      match here : f.turn ses with
      | (.working next, ses₁) =>
        rw [here] at found left
        have g' := (once_grows turns left).1
        dsimp only at found g'
        rw [found] at g'
        exact room.of_grows g'.store
      | (.yielded r' next, ses₁) | (.finished, ses₁) =>
        rw [here] at found
        exact (congrArg Prod.snd found : ses₁ = after) ▸ room
    have turned := h.turn fun _ _ _ _ _ path here =>
      opened_of_turn beside path here agree since before
    have alike := Renaming.fixpoint_turn beside agree before
    rw [once_succ] at found
    match here : f.turn ses with
    | (.working next, ses₁) =>
      rw [here] at found turned left g
      dsimp only at alike
      rw [here] at alike
      obtain ⟨agree₁, -, result⟩ := alike
      cases result with
      | working beside =>
        exact ih turned beside left (since.trans g) agree₁ found
    | (.yielded (.ok r') next, ses₁) =>
      rw [here] at found turned
      cases found
      exact turned.1
    | (.yielded (.error e) next, ses₁) =>
      rw [here] at found
      cases found
    | (.finished, ses₁) =>
      rw [here] at found
      cases found

end Fixpoint

end Regraft
