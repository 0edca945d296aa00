import Regraft.Proofs.Rebuild.Again
import Regraft.Proofs.Renaming.Rewriter
import Regraft.Proofs.Rewriting.Idle

/-
  Graphs that a rule leaves as they are. All three calls of a rewriter begin with the same walk from the term of
  the graph, so that they agree on whether the rule matches anywhere (`Rewriter.agree_on_noMatch`): there is no
  single step just if the first fixpoint is found without one, and just if it is the only one. What is
  returned then is the graph itself, rebuilt from its own term.
-/

namespace Regraft

namespace Graph

variable {g : Graph} {ses later : Session}

/-- The term of a graph is rebuilt later as the graph itself. -/
theorem exists_rebuilt (hv : ses.store.Valid) (valid : g.validate = .ok ())
    (distinct : (g.contract.inputs.map Prod.fst).Nodup) (since : (g.toTerms ses).2.Grows later) :
    ∃ b, (ofTerm (g.toTerms ses).1.root g later).1 = .ok b ∧ b.created = 0 ∧
      b.graph.contract = g.contract ∧
      ∀ other : Session, other.store.Valid → (b.graph.equivalent g other).1 = true := by
  obtain ⟨src, last, ts, rfl, -, trip, eq⟩ := exists_later_trip hv valid distinct since
  exact ⟨_, eq, trip.lists.created, trip.contract.symm, fun other hv' => trip.equivalent hv'⟩

end Graph

namespace Rewriter

variable {α : Type} {run : Nat → Result α} {a b : Except RewriterError α} {rule : Rule}
  {config : Config} {r : Rewriter} {g : Graph} {ses ses' : Session} {turns : Nat} {w : Rewritten}

/-- A run answers as soon as the turns suffice. -/
def Answers (run : Nat → Result α) (answer : Except RewriterError α) : Prop :=
  ∃ turns, ∀ more, run (turns + more) = some answer

theorem Answers.exists_turns (h : Answers run a) : ∃ turns, run turns = some a :=
  h.imp fun _ all => all 0

/-- There is only one answer. -/
theorem Answers.unique (h : Answers run a) (h' : Answers run b) : a = b := by
  obtain ⟨m, all⟩ := h
  obtain ⟨n, all'⟩ := h'
  have same := all' m
  rw [Nat.add_comm, all n] at same
  exact Option.some.inj same

/-- The rule leaves the term of the graph as it is. -/
def Unmatched (rule : Rule) (g : Graph) (ses : Session) : Prop :=
  ∃ ses', rule.Idles (g.toTerms ses).1.root (g.toTerms ses).2 ses'

/-- The graph itself, rebuilt. -/
structure Unchanged (g : Graph) (w : Rewritten) : Prop where
  steps : w.steps = 0
  created : w.created = 0
  contract : w.graph.contract = g.contract
  equivalent : ∀ other : Session, other.store.Valid → (w.graph.equivalent g other).1 = true

/-! ## Where there is no match -/

theorem graphsOf_nil (base : Graph) (ses : Session) : graphsOf base [] ses = (.ok [], ses) := rfl

theorem startAt_eq (rule : Rule) (config : Config) (base : Graph) (ses : Session) :
    startAt rule config base ses =
      Fixpoint.start rule config.stepLimit (base.toTerms ses).1.root (base.toTerms ses).2 := rfl

/-- There is no single step only where the rule leaves the term as it is. -/
theorem unmatched_of_singleStep
    (h : (singleStep rule turns g ses).1 = some (.error (.reduction .patternNotFound))) :
    Unmatched rule g ses := by
  rw [singleStep_eq, settle_apply] at h
  match stepped : rule.applyOnce (g.toTerms ses).1.root turns (g.toTerms ses).2 with
  | (none, ses') =>
    rw [stepped] at h
    cases h
  | (some (.error e), ses') =>
    rw [stepped] at h
    cases h
    exact ⟨ses', Rule.idles_of_applyOnce stepped⟩
  | (some (.ok t), ses') =>
    rw [stepped] at h
    have rebuilt := Option.some.inj h
    rw [graphOf_apply] at rebuilt
    split at rebuilt
    · cases rebuilt
    · cases rebuilt

theorem singleStep_of_unmatched (h : Unmatched rule g ses) :
    Answers (fun turns => (singleStep rule turns g ses).1) (.error (.reduction .patternNotFound)) := by
  obtain ⟨ses', idles⟩ := h
  obtain ⟨turns, eq⟩ := idles.applyOnce
  refine ⟨turns, fun more => ?_⟩
  dsimp only
  rw [singleStep_eq, settle_apply, eq]

/-- A first fixpoint is found without a step only where the rule leaves the term as it is. -/
theorem unmatched_of_firstFixpoint (h : (firstFixpoint rule config turns g ses).1 = some (.ok w))
    (still : w.steps = 0) : Unmatched rule g ses := by
  rw [firstFixpoint_eq, settle_apply] at h
  match found : (startAt rule config g ses).1.once turns (startAt rule config g ses).2 with
  | (none, ses') =>
    rw [found] at h
    cases h
  | (some (.error e), ses') =>
    rw [found] at h
    cases h
  | (some (.ok q), ses') =>
    rw [found] at h
    have rebuilt := Option.some.inj h
    rw [graphOf_apply] at rebuilt
    split at rebuilt
    · cases rebuilt
    · cases rebuilt
      exact Fixpoint.idles_of_once found still

/-- A fixpoint is found without a step only where the rule leaves the term as it is. -/
theorem unmatched_of_allFixpoints (h : (allFixpoints rule config turns g ses).1 = some (.ok [w]))
    (still : w.steps = 0) : Unmatched rule g ses := by
  rw [allFixpoints_eq, settle_apply] at h
  match found : (startAt rule config g ses).1.all config.maxResults turns
    (startAt rule config g ses).2 with
  | (none, ses') =>
    rw [found] at h
    cases h
  | (some (.error e), ses') =>
    rw [found] at h
    cases h
  | (some (.ok []), ses') =>
    rw [found] at h
    cases h
  | (some (.ok (q :: rest)), ses') =>
    rw [found] at h
    have rebuilt := Option.some.inj h
    rw [graphsOf_cons, graphOf_apply] at rebuilt
    match first : Graph.ofTerm q.term g ses' with
    | (.error e, ses₁) =>
      rw [first] at rebuilt
      cases rebuilt
    | (.ok b, ses₁) =>
      rw [first] at rebuilt
      dsimp only at rebuilt
      split at rebuilt
      · cases rebuilt
      · cases rebuilt
        exact Fixpoint.idles_of_collect found (.head _) still

section

variable (h : Unmatched rule g ses) (builds : rule.Builds Tree.anyLabel ses) (hv : ses.store.Valid)
  (valid : g.validate = .ok ()) (distinct : (g.contract.inputs.map Prod.fst).Nodup) (config : Config)

include h builds hv valid distinct

/-- The first fixpoint is the graph itself, and so is the only one. -/
theorem exists_unchanged : ∃ w, Unchanged g w ∧
    Answers (fun turns => (firstFixpoint rule config turns g ses).1) (.ok w) ∧
    (config.maxResults ≠ some 0 →
      Answers (fun turns => (allFixpoints rule config turns g ses).1) (.ok [w])) := by
  obtain ⟨ses', idles⟩ := h
  obtain ⟨turns, once⟩ := Fixpoint.once_of_idles config.stepLimit idles
  -- the graph is rebuilt in a session that the run has let grow
  have growing := Renaming.startAt_growing builds hv config g
  have grown := (Fixpoint.once_grows (turns + 0) growing).1
  rw [startAt_eq, once 0] at grown
  have since : (g.toTerms ses).2.Grows (Session.count Counters.countFixpoint ses').2 :=
    (Walk.start_grows rule (g.toTerms ses).1.root (g.toTerms ses).2).trans grown
  obtain ⟨b, made, created, contract, equivalent⟩ := Graph.exists_rebuilt hv valid distinct since
  have rebuilt : ∃ ses'', graphOf g ⟨(g.toTerms ses).1.root, 0⟩
      (Session.count Counters.countFixpoint ses').2 = (.ok ⟨b.graph, 0, b.reused, b.created⟩, ses'') := by
    rw [graphOf_apply]
    generalize Graph.ofTerm (g.toTerms ses).1.root g _ = result at made ⊢
    obtain ⟨_, ses''⟩ := result
    cases made
    exact ⟨ses'', rfl⟩
  obtain ⟨ses'', rebuilt⟩ := rebuilt
  refine ⟨⟨b.graph, 0, b.reused, b.created⟩, ⟨rfl, created, contract, equivalent⟩, ⟨turns, fun more => ?_⟩, fun asked => ?_⟩
  · dsimp only
    rw [firstFixpoint_eq, settle_apply, startAt_eq, once more]
    dsimp only
    rw [rebuilt]
  · obtain ⟨turns, collect⟩ := Fixpoint.collect_of_idles config.stepLimit idles asked
    refine ⟨turns, fun more => ?_⟩
    dsimp only
    rw [allFixpoints_eq, settle_apply, startAt_eq, Fixpoint.all, collect more]
    dsimp only
    rw [graphsOf_cons, rebuilt]
    dsimp only
    rw [graphsOf_nil]

end

/-! ## The three calls -/

variable {scripted : Script.Rule}

/-- The calls of a rewriter on a graph agree that its rule matches nowhere: there is no single step just if
    the first fixpoint is found without a step, and just if there is one fixpoint in all, found without
    a step. The graph that is returned then is the one that was given. -/
theorem agree_on_noMatch (calls : Relation.ReflTransGen Call (.new (scripted.build []) config) r)
    (valid : g.validate = .ok ()) (distinct : (g.contract.inputs.map Prod.fst).Nodup)
    (asked : config.maxResults ≠ some 0) :
    let once := Answers fun turns => (r.rewriteOnce turns g).1
    let first := Answers fun turns => (r.rewriteFirst turns g).1
    let all := Answers fun turns => (r.rewriteAll turns g).1
    (once (.error (.reduction .patternNotFound)) ↔ ∃ w, first (.ok w) ∧ w.steps = 0) ∧
    ((∃ w, first (.ok w) ∧ w.steps = 0) ↔ ∃ w, all (.ok [w]) ∧ w.steps = 0) ∧
    ∀ w, w.steps = 0 → first (.ok w) ∨ all (.ok [w]) → Unchanged g w := by
  obtain ⟨rule, config', ses⟩ := r
  have ready := ready_of_calls calls
  obtain rfl : rule = scripted.build [] := ready.sameRule
  obtain rfl : config' = config := ready.sameConfig
  have builds : (scripted.build []).Builds Tree.anyLabel ses := scripted.build_builds nofun
  intro once first all
  have unchanged := fun unmatched : Unmatched (scripted.build []) g ses =>
    exists_unchanged unmatched builds ready.valid valid distinct config'
  have stepped : once (.error (.reduction .patternNotFound)) ↔ Unmatched (scripted.build []) g ses := by
    refine ⟨fun answers => ?_, singleStep_of_unmatched⟩
    obtain ⟨turns, answer⟩ := answers.exists_turns
    exact unmatched_of_singleStep answer
  have found : (∃ w, first (.ok w) ∧ w.steps = 0) ↔ Unmatched (scripted.build []) g ses := by
    refine ⟨fun ⟨w, answers, still⟩ => ?_, fun unmatched => ?_⟩
    · obtain ⟨turns, answer⟩ := answers.exists_turns
      exact unmatched_of_firstFixpoint answer still
    · obtain ⟨w, same, answers, -⟩ := unchanged unmatched
      exact ⟨w, answers, same.steps⟩
  have collected : (∃ w, all (.ok [w]) ∧ w.steps = 0) ↔ Unmatched (scripted.build []) g ses := by
    refine ⟨fun ⟨w, answers, still⟩ => ?_, fun unmatched => ?_⟩
    · obtain ⟨turns, answer⟩ := answers.exists_turns
      exact unmatched_of_allFixpoints answer still
    · obtain ⟨w, same, -, answers⟩ := unchanged unmatched
      exact ⟨w, answers asked, same.steps⟩
  refine ⟨stepped.trans found.symm, found.trans collected.symm, fun w still answers => ?_⟩
  rcases answers with answers | answers
  · obtain ⟨w', same, answers', -⟩ := unchanged (found.mp ⟨w, answers, still⟩)
    cases answers.unique answers'
    exact same
  · obtain ⟨w', same, -, answers'⟩ := unchanged (collected.mp ⟨w, answers, still⟩)
    cases answers.unique (answers' asked)
    exact same

/-- No negations are cancelled in `x + 0`, which is the only fixpoint then. -/
theorem agree_on_noMatch_neutralSum :
    Answers (fun turns => ((new (Script.Rule.negNeg.build []) .default).rewriteOnce turns neutralSum).1)
        (.error (.reduction .patternNotFound)) ∧
      ∃ w, Answers (fun turns =>
          ((new (Script.Rule.negNeg.build []) .default).rewriteAll turns neutralSum).1) (.ok [w]) ∧
        Unchanged neutralSum w := by
  have calls : Relation.ReflTransGen Call (new (Script.Rule.negNeg.build []) .default)
      (new (Script.Rule.negNeg.build []) .default) := .refl
  have valid : neutralSum.validate = .ok () := by decide +kernel
  have distinct : (neutralSum.contract.inputs.map Prod.fst).Nodup := by decide +kernel
  obtain ⟨first, all, unchanged⟩ := agree_on_noMatch calls valid distinct (by decide +kernel)
  have still : (firstFixpoint (Script.Rule.negNeg.build []) .default 40 neutralSum
      (.ofConfig .default)).1.elim none (·.toOption.map Rewritten.steps) = some 0 := by decide +kernel
  have unmatched : Unmatched (Script.Rule.negNeg.build []) neutralSum (.ofConfig .default) := by
    cases found : (firstFixpoint (Script.Rule.negNeg.build []) .default 40 neutralSum
      (.ofConfig .default)).1 with
    | none =>
      rw [found] at still
      cases still
    | some answer => cases answer with
      | error e =>
        rw [found] at still
        cases still
      | ok w =>
        rw [found] at still
        exact unmatched_of_firstFixpoint found (Option.some.inj still)
  have once := singleStep_of_unmatched unmatched
  obtain ⟨w, answers, noSteps⟩ := all.mp (first.mp once)
  exact ⟨once, w, answers, unchanged w noSteps (.inr answers)⟩

end Rewriter

end Regraft
