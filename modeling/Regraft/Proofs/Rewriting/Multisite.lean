import Regraft.Proofs.Rewriting.Positions
import Regraft.Proofs.Rewriting.Together
import Regraft.Proofs.Script.Sites

/-
  The results of a walk with a rule for several sites: at every position of a term all that the sites do
  together there, each as a result or as two records that are not consistent
  (`Rule.exists_walked`). The records are those of the sites, and one more of what the rule as a whole has
  replaced, with which a site at the root of the match may be in conflict (`Correlation.log`).
-/

namespace Regraft

open Regraft.Tree (Pattern Effect Correlation)
open Search (MakesSites)

variable {ses ses' : Session} {t x y : TermId} {outer : UInt32 → Prop} {c : Correlation}
  {build : SessionM (List Rule × Goal)} {e : Effect} {name : String} {path : List Nat}

namespace Tree.Correlation

/-- What has been recorded: the sites, and what the rule as a whole has replaced. -/
def log (e : Effect) (x : Tree) : List (Tree × Tree) := e.sites ++ [(x, e.result)]

/-- The result of a walk for what a rule does at a position: a term with that in its place, or two records
    of one term with different replacements. -/
def Found (ses : Session) (t : TermId) (path : List Nat) (x : TermId) (X : Tree) (e : Effect) :
    Except RewriteError TermId → Prop
  | .ok u => Consistent (log e X) ∧ ∃ y, ses.store.Replaces x y path t u ∧ ses.store.tree y = e.result
  | .error r => ∃ node first second, r = .inconsistent node first second ∧
      ses.store.Conflict (log e X) node first second

/-- The results of a walk are what sites that are rewritten together do at the positions of a term. -/
structure Walked (c : Correlation) (ses : Session) (t : TermId) (rs : List (Except RewriteError TermId))
    (ses' : Session) : Prop where
  sound : ∀ r ∈ rs, ∃ path x e, ses.store.At path t x ∧ c.Does ses.facts (ses.store.tree x) e ∧
    Found ses' t path x (ses.store.tree x) e r
  complete : ∀ path x e, ses.store.At path t x → c.Does ses.facts (ses.store.tree x) e →
    ∃ r ∈ rs, Found ses' t path x (ses.store.tree x) e r

end Tree.Correlation

/-- A walk with a rule for several sites comes to its end, with all that its sites do together. -/
theorem Rule.exists_walked (h : MakesSites ses outer build c) (closed : c.Closed)
    (known : ∀ v, outer v → ses.store.Knows v) (hv : ses.store.Valid) (tidy : ses.store.Tidy)
    (ht : ses.store.Stored t) (ground : (ses.store.tree t).Ground)
    (room : ∀ n, ((Rule.correlated name build).walk t n ses).2.store.Roomy) :
    ∃ n rs ses', (Rule.correlated name build).walk t n ses = ((rs, true), ses') ∧ ses.Grows ses' ∧
      c.Walked ses t rs ses' := by
  obtain ⟨n, g, finished, reported⟩ :=
    Rule.exists_reported (Search.correlated_relates name h closed known) hv tidy ht ground room
  refine ⟨n, ?_⟩
  generalize (Rule.correlated name build).walk t n ses = walked at g finished reported
  obtain ⟨⟨rs, done⟩, ses'⟩ := walked
  obtain rfl : done = true := finished
  refine ⟨rs, ses', rfl, g, ?_⟩
  dsimp only at g reported
  have hv' := g.store.valid hv
  have same := g.store.tree_eq hv ht
  -- What is reported for an effect at a place is found there.
  have found : ∀ {path x e} {T : Tree} {sites r}, ses.store.At path t x →
      Tree.Replaces (ses.store.tree x) e.result path (ses.store.tree t) T →
      sites = Correlation.log e (ses.store.tree x) → ses'.Reports ⟨Pattern.keeping outer e.binds, T, sites⟩ r →
      Correlation.Found ses' t path x (ses.store.tree x) e r := by
    rintro path x e T _ r there replaces rfl reports
    cases r with
    | error r => exact reports
    | ok u =>
      obtain ⟨consistent, stored, tree⟩ := reports
      change ses'.store.tree u = T at tree
      rw [← same, ← tree] at replaces
      obtain ⟨x', y, there', replaced, -, result⟩ :=
        hv'.exists_replaces (g.store.stored ht) stored replaces
      obtain rfl := (there'.of_grows hv ht g.store).unique there
      exact ⟨consistent, y, replaced, result⟩
  constructor
  · intro r hr
    obtain ⟨⟨binds, T, sites⟩, ⟨path, X, _, ⟨e, does, rfl⟩, replaces, rfl, rfl⟩, reports⟩ :=
      reported.each r hr
    obtain ⟨x, there, rfl⟩ := hv.exists_at replaces
    exact ⟨path, x, e, there, does, found there replaces rfl reports⟩
  · intro path x e there does
    obtain ⟨T, replaces⟩ := there.exists_replaces hv e.result
    have mem : (⟨Pattern.keeping outer e.binds, T, Correlation.log e (ses.store.tree x)⟩ : Effect) ∈
        Tree.anywhere (c.effects ses.facts outer) (ses.store.tree t) :=
      ⟨path, _, _, ⟨e, does, rfl⟩, replaces, rfl, rfl⟩
    obtain ⟨r, hr, reports⟩ := (reported.all _ mem).resolve_right (by simp)
    exact ⟨r, hr, found there replaces rfl reports⟩

/-- Each result of a walk is the term with what the sites make of the term at some position, all of them
    rewritten one after the other under one assignment for which the condition holds. All that the sites do
    so is found, as a result or as a report of records that are not consistent. -/
structure Tree.Correlation.RewritesTogether (c : Correlation) (ses : Session) (t : TermId)
    (rs : List (Except RewriteError TermId)) (ses' : Session) : Prop where
  sound : ∀ u, .ok u ∈ rs → ∃ path x y σ sites, ses.store.At path t x ∧ ses'.store.Replaces x y path t u ∧
    Pattern.Together ses.facts c.shared σ c.sites (ses.store.tree x) (ses'.store.tree y) sites ∧ c.Apart σ
  complete : ∀ path x e, ses.store.At path t x → c.Does ses.facts (ses.store.tree x) e →
    ∃ r ∈ rs, Found ses' t path x (ses.store.tree x) e r

/-- A walk with a rule for several sites comes to its end, and rewrites them together. -/
theorem Rule.exists_rewritesTogether (h : MakesSites ses outer build c) (closed : c.Closed)
    (known : ∀ v, outer v → ses.store.Knows v) (hv : ses.store.Valid) (tidy : ses.store.Tidy)
    (ht : ses.store.Stored t) (ground : (ses.store.tree t).Ground)
    (room : ∀ n, ((Rule.correlated name build).walk t n ses).2.store.Roomy) :
    ∃ n rs ses', (Rule.correlated name build).walk t n ses = ((rs, true), ses') ∧
      c.RewritesTogether ses t rs ses' := by
  obtain ⟨n, rs, ses', walk, -, walked⟩ := Rule.exists_walked h closed known hv tidy ht ground room
  refine ⟨n, rs, ses', walk, fun u hu => ?_, walked.complete⟩
  obtain ⟨path, x, e, there, does, -, y, replaces, result⟩ := walked.sound _ hu
  have together := does.1.together (there.ground hv ground) (Correlation.settled_start _) closed.sites
  rw [Tree.var_andThen, ← result] at together
  exact ⟨path, x, y, e.binds, e.sites, there, replaces, together, does.2⟩

/-! ### A logarithm and an exponential that are both dropped -/

/-- The terms `a`, `log a` and `exp (log a)`. -/
def expOfLog : Session := .holding .none [.leaf (.input "a"), .app "log" [⟨0⟩] .unspecified,
  .app "exp" [⟨1⟩] .unspecified]

/-- Both `log x` and `exp x` become `x`, unless that is `-x`. -/
def dropBoth : SessionM (List Rule × Goal) := Script.buildCorrelated [] ["x"]
  [.pattern "log" [] (.op "log" [.ref "x"]) (.ref "x"), .pattern "exp" [] (.op "exp" [.ref "x"]) (.ref "x")]
  (.neq (.ref "x") (.neg (.ref "x")))

/-- The two patterns, with a variable to share. -/
def droppedSites : Correlation := Script.correlation expOfLog.store.Knows [0]
  (Script.sharedTrees ["x"] [0] [] expOfLog.store)
  [⟨1, .app "log" [.var 0] .unspecified, .var 0⟩, ⟨1, .app "exp" [.var 0] .unspecified, .var 0⟩]
  [(.ref "x", .neg (.ref "x"))]

theorem droppedSites_own : ¬ droppedSites.shared 1 := by
  show ¬ (expOfLog.store.Knows 1 ∨ (1 : UInt32) ∈ [(0 : UInt32)])
  decide

theorem dropBoth_makes : MakesSites expOfLog expOfLog.store.Knows dropBoth droppedSites := by
  have log : (Script.Template.op "log" [.ref "x"]).simple ["exp", "log", "neg"] ["witness", "x"] = true := by
    decide
  have exp : (Script.Template.op "exp" [.ref "x"]).simple ["exp", "log", "neg"] ["witness", "x"] = true := by
    decide
  have neg : (Script.Template.neg (.ref "x")).simple ["exp", "log", "neg"] ["x"] = true := by decide
  exact Script.correlated_makes (by decide) nofun (fun _ => id) rfl (by decide)
    (List.forall_mem_singleton.mpr (by decide)) (List.cons_ne_nil _ _)
    (.cons (.plain "log" log (by decide) droppedSites_own)
      (.cons (.plain "exp" exp (by decide) droppedSites_own) .nil))
    (Script.guards_neq (by decide) neg)

theorem droppedSites_closed : droppedSites.Closed where
  sites := by
    refine ⟨⟨droppedSites_own, fun v hv => .inl ?_⟩, ⟨droppedSites_own, fun v hv => .inl ?_⟩, trivial⟩ <;>
      simpa using hv
  apart := by
    refine List.forall_mem_singleton.mpr fun v hv => ⟨_, .head _, ?_⟩
    change (Tree.var 0).HasVar v ∨ (Tree.app "neg" [.var 0] .unspecified).HasVar v at hv
    obtain rfl : v = 0 := by simpa using hv
    exact ⟨.inr (.head _), by simp⟩

theorem expOfLog_ground : (expOfLog.store.tree ⟨2⟩).Ground := by
  have tree : expOfLog.store.tree ⟨2⟩ =
    .app "exp" [.app "log" [.leaf (.input "a")] .unspecified] .unspecified := rfl
  rw [tree]
  intro v
  simp

theorem dropBoth_roomy (n : Nat) : ((Rule.correlated "drop" dropBoth).walk ⟨2⟩ n expOfLog).2.store.Roomy :=
  Walk.roomy_of_endsRoomy (show Walk.endsRoomy 110 (Walk.start (.correlated "drop" dropBoth) ⟨2⟩ expOfLog).1
    (Walk.start (.correlated "drop" dropBoth) ⟨2⟩ expOfLog).2 = true by decide +kernel) n

/-- Both are dropped in one step. -/
theorem exists_rewritesTogether_dropBoth :
    ((Rule.correlated "drop" dropBoth).walk ⟨2⟩ 110 expOfLog).1 = ([.ok ⟨0⟩], true) ∧
    ∃ n rs ses', (Rule.correlated "drop" dropBoth).walk ⟨2⟩ n expOfLog = ((rs, true), ses') ∧
      droppedSites.RewritesTogether expOfLog ⟨2⟩ rs ses' :=
  ⟨by decide +kernel, Rule.exists_rewritesTogether dropBoth_makes droppedSites_closed (fun _ => id)
    (by decide) (by decide) (by decide) expOfLog_ground dropBoth_roomy⟩

/-! ### Behind the last variable -/

/-- One more variable, which is still closer to the last. -/
def lateVariables : Session := (Session.onStore (Store.var 0xFFFFFFFD) fewVariables).2

/-- A single site, where what is negated is squared. The first variable stands for what that is. -/
def squareSite : SessionM (List Rule × Goal) := Script.buildCorrelated [("x", ⟨3⟩)] []
  [.pattern "square" [] (.neg (.ref "x")) (.square (.ref "x"))] .succeed

def squaredSite : Correlation := Script.correlation lateVariables.store.Knows []
  (Script.sharedTrees [] [] [("x", ⟨3⟩)] lateVariables.store)
  [⟨1, .app "neg" [.var 0] .unspecified, .app "square" [.var 0] .unspecified⟩] []

theorem squaredSite_own : ¬ squaredSite.shared 1 := by
  show ¬ (lateVariables.store.Knows 1 ∨ (1 : UInt32) ∈ ([] : List UInt32))
  decide

theorem squareSite_makes : MakesSites lateVariables lateVariables.store.Knows squareSite squaredSite := by
  have x : lateVariables.store.tree ⟨3⟩ = .var 0 := rfl
  have within : Script.Env.Within [("x", ⟨3⟩)] lateVariables.store lateVariables.store.Knows := by
    refine List.forall_mem_singleton.mpr ⟨by decide, fun v hv => ?_⟩
    rw [x, Tree.hasVar_var] at hv
    subst hv
    decide
  have neg : (Script.Template.neg (.ref "x")).simple ["neg", "square"] ["witness", "x"] = true := by
    decide
  exact Script.correlated_makes (by decide) within (fun _ => id) rfl List.nodup_nil
    (List.forall_mem_nil _) (List.cons_ne_nil _ _)
    (.cons (.plain "square" neg (by decide) squaredSite_own) .nil) (Script.guards_succeed _)

theorem squaredSite_closed : squaredSite.Closed where
  sites := ⟨⟨squaredSite_own, fun v hv => .inl (by simpa using hv)⟩, trivial⟩
  apart := List.forall_mem_nil _

/-- The variables that the walk makes start over with the first one, which stands for something else. The
    walk has no result, although its only site can be rewritten. -/
theorem exists_does_lateVariables :
    MakesSites lateVariables lateVariables.store.Knows squareSite squaredSite ∧ squaredSite.Closed ∧
    ((Rule.correlated "square" squareSite).walk ⟨1⟩ 60 lateVariables).1 = ([], true) ∧
    ∃ e, squaredSite.Does lateVariables.facts (lateVariables.store.tree ⟨1⟩) e ∧
      e.result = .app "square" [.leaf (.input "a")] .unspecified := by
  refine ⟨squareSite_makes, squaredSite_closed, by decide +kernel, ?_⟩
  have ground : (Tree.leaf (.input "a")).Ground := fun v => by simp
  have matched : Tree.Matches lateVariables.facts
      [(lateVariables.store.tree ⟨1⟩, .app "neg" [.var 0] .unspecified)] _ := .operand rfl (.bind ground .nil)
  have binds : Pattern.Binds lateVariables.facts
      ⟨1, .app "neg" [.var 0] .unspecified, .app "square" [.var 0] .unspecified⟩
      (lateVariables.store.tree ⟨1⟩) _ := .of_matches matched (by simp)
  rw [← Pattern.inst_var ⟨_, _, _⟩] at binds
  exact ⟨_, ⟨.cons binds .here .nil, List.forall_mem_nil _⟩, rfl⟩

/-! ## Reports -/

/-- Sites that have replaced the whole match, if any, made of it what the rule made of it in the end. -/
def Tree.Correlation.KeepsWhole (e : Effect) (x : Tree) : Prop := ∀ p ∈ e.sites, p.1 = x → p.2 = e.result

/-- Where the whole match is kept, only sites can be in conflict. -/
theorem Tree.Correlation.KeepsWhole.conflict {st : Store} {X : Tree} {node first second : TermId}
    (h : KeepsWhole e X) (hv : st.Valid) (conflict : st.Conflict (log e X) node first second) :
    st.Conflict e.sites node first second := by
  obtain ⟨stored, one, two, ne⟩ := conflict
  have distinct : st.tree first ≠ st.tree second := fun eq => ne (hv.eq_of_tree_eq stored.2.1 stored.2.2 eq)
  rcases List.mem_append.mp one with one | one <;> rcases List.mem_append.mp two with two | two
  · exact ⟨stored, one, two, ne⟩
  · obtain ⟨eq, result⟩ := Prod.mk.inj (List.mem_singleton.mp two)
    exact absurd ((h _ one eq).trans result.symm) distinct
  · obtain ⟨eq, result⟩ := Prod.mk.inj (List.mem_singleton.mp one)
    exact absurd (result.trans (h _ two eq).symm) distinct
  · obtain ⟨-, result⟩ := Prod.mk.inj (List.mem_singleton.mp one)
    obtain ⟨-, result'⟩ := Prod.mk.inj (List.mem_singleton.mp two)
    exact absurd (result.trans result'.symm) distinct

/-- Sites on different subterms that keep the whole match are consistent. -/
theorem Tree.Correlation.KeepsWhole.consistent {X : Tree} (h : KeepsWhole e X)
    (different : (e.sites.map Prod.fst).Nodup) : Consistent (log e X) := by
  intro p hp q hq eq
  rcases List.mem_append.mp hp with hp | hp <;> rcases List.mem_append.mp hq with hq | hq
  · exact congrArg Prod.snd (List.inj_on_of_nodup_map different hp hq eq)
  · obtain rfl := List.mem_singleton.mp hq
    exact h p hp eq
  · obtain rfl := List.mem_singleton.mp hp
    exact (h q hq eq.symm).symm
  · rw [List.mem_singleton.mp hp, List.mem_singleton.mp hq]

/-- An error is reported only where two records of what the sites have done give one term two different
    replacements: two sites do, or a site and the rule as a whole. Where the sites have replaced different
    subterms, and the whole match only by what became of it in the end, there is a result. -/
structure Tree.Correlation.ReportsConflicts (c : Correlation) (ses : Session) (t : TermId)
    (rs : List (Except RewriteError TermId)) (ses' : Session) : Prop where
  errors : ∀ r, .error r ∈ rs → ∃ path x e node first second, ses.store.At path t x ∧
    c.Does ses.facts (ses.store.tree x) e ∧ r = .inconsistent node first second ∧
    ses'.store.Conflict (log e (ses.store.tree x)) node first second ∧
    (KeepsWhole e (ses.store.tree x) → ses'.store.Conflict e.sites node first second)
  results : ∀ path x e, ses.store.At path t x → c.Does ses.facts (ses.store.tree x) e →
    (e.sites.map Prod.fst).Nodup → KeepsWhole e (ses.store.tree x) →
    ∃ u y, .ok u ∈ rs ∧ ses'.store.Replaces x y path t u ∧ ses'.store.tree y = e.result

/-- A walk with a rule for several sites comes to its end, and reports only conflicts. -/
theorem Rule.exists_reportsConflicts (h : MakesSites ses outer build c) (closed : c.Closed)
    (known : ∀ v, outer v → ses.store.Knows v) (hv : ses.store.Valid) (tidy : ses.store.Tidy)
    (ht : ses.store.Stored t) (ground : (ses.store.tree t).Ground)
    (room : ∀ n, ((Rule.correlated name build).walk t n ses).2.store.Roomy) :
    ∃ n rs ses', (Rule.correlated name build).walk t n ses = ((rs, true), ses') ∧
      c.ReportsConflicts ses t rs ses' := by
  obtain ⟨n, rs, ses', walk, g, walked⟩ := Rule.exists_walked h closed known hv tidy ht ground room
  have hv' := g.store.valid hv
  refine ⟨n, rs, ses', walk, fun r hr => ?_, fun path x e there does different keeps => ?_⟩
  · obtain ⟨path, x, e, there, does, node, first, second, eq, conflict⟩ := walked.sound _ hr
    exact ⟨path, x, e, node, first, second, there, does, eq, conflict, fun keeps => keeps.conflict hv' conflict⟩
  · obtain ⟨r, hr, found⟩ := walked.complete path x e there does
    match r, found with
    | .ok u, ⟨_, y, replaces, result⟩ => exact ⟨u, y, hr, replaces, result⟩
    | .error r, ⟨node, first, second, _, conflict⟩ =>
      exact absurd (keeps.consistent different) (conflict.not_consistent hv')

/-- The step that drops both is no conflict. -/
theorem exists_reportsConflicts_dropBoth :
    ∃ n rs ses', (Rule.correlated "drop" dropBoth).walk ⟨2⟩ n expOfLog = ((rs, true), ses') ∧
      droppedSites.ReportsConflicts expOfLog ⟨2⟩ rs ses' :=
  Rule.exists_reportsConflicts dropBoth_makes droppedSites_closed (fun _ => id)
    (by decide) (by decide) (by decide) expOfLog_ground dropBoth_roomy

/-! ### A site below another one -/

/-- The terms `a`, `log a` and `-(log a)`. -/
def negOfLog : Session := .holding .none [.leaf (.input "a"), .app "log" [⟨0⟩] .unspecified,
  .app "neg" [⟨1⟩] .unspecified]

/-- First `-(log x)` becomes `exp (log x)`, then `log x` becomes `x`. -/
def undoLog : SessionM (List Rule × Goal) := Script.buildCorrelated [] ["x"]
  [.pattern "neg" [] (.neg (.op "log" [.ref "x"])) (.op "exp" [.op "log" [.ref "x"]]),
    .pattern "log" [] (.op "log" [.ref "x"]) (.ref "x")] .succeed

/-- The two patterns, with a variable to share. -/
def undoneSites : Correlation := Script.correlation negOfLog.store.Knows [0]
  (Script.sharedTrees ["x"] [0] [] negOfLog.store)
  [⟨1, .app "neg" [.app "log" [.var 0] .unspecified] .unspecified,
      .app "exp" [.app "log" [.var 0] .unspecified] .unspecified⟩,
    ⟨1, .app "log" [.var 0] .unspecified, .var 0⟩] []

theorem undoneSites_own : ¬ undoneSites.shared 1 := by
  show ¬ (negOfLog.store.Knows 1 ∨ (1 : UInt32) ∈ [(0 : UInt32)])
  decide

theorem undoLog_makes : MakesSites negOfLog negOfLog.store.Knows undoLog undoneSites := by
  have neg : (Script.Template.neg (.op "log" [.ref "x"])).simple ["exp", "log", "neg"]
    ["witness", "x"] = true := by decide
  have exp : (Script.Template.op "exp" [.op "log" [.ref "x"]]).simple ["exp", "log", "neg"]
    ["witness", "x"] = true := by decide
  have log : (Script.Template.op "log" [.ref "x"]).simple ["exp", "log", "neg"] ["witness", "x"] = true := by
    decide
  exact Script.correlated_makes (by decide) nofun (fun _ => id) rfl (by decide)
    (List.forall_mem_singleton.mpr (by decide)) (List.cons_ne_nil _ _)
    (.cons (.plain "neg" neg exp undoneSites_own)
      (.cons (.plain "log" log (by decide) undoneSites_own) .nil))
    (Script.guards_succeed _)

theorem undoneSites_closed : undoneSites.Closed where
  sites := by
    refine ⟨⟨undoneSites_own, fun v hv => .inl ?_⟩, ⟨undoneSites_own, fun v hv => .inl ?_⟩, trivial⟩ <;>
      simpa using hv
  apart := List.forall_mem_nil _

/-- The sites are on different subterms. The walk reports them nevertheless, since the first one is the
    whole match, and so is recorded with what it gave and with what became of that. -/
theorem exists_does_negOfLog :
    MakesSites negOfLog negOfLog.store.Knows undoLog undoneSites ∧ undoneSites.Closed ∧
    ((Rule.correlated "undo" undoLog).walk ⟨2⟩ 110 negOfLog).1 =
      ([.error (.inconsistent ⟨2⟩ ⟨42⟩ ⟨43⟩)], true) ∧
    ∃ e, undoneSites.Does negOfLog.facts (negOfLog.store.tree ⟨2⟩) e ∧
      e.result = .app "exp" [.leaf (.input "a")] .unspecified ∧ (e.sites.map Prod.fst).Nodup := by
  refine ⟨undoLog_makes, undoneSites_closed, by decide +kernel, ?_⟩
  have ground : (Tree.leaf (.input "a")).Ground := fun v => by simp
  -- The first site matches as a whole, and the variable gets `a`.
  obtain ⟨σ, first, eq⟩ : ∃ σ, Pattern.Binds negOfLog.facts
      ⟨1, .app "neg" [.app "log" [.var 0] .unspecified] .unspecified,
        .app "exp" [.app "log" [.var 0] .unspecified] .unspecified⟩ (negOfLog.store.tree ⟨2⟩) σ ∧
      σ 0 = .leaf (.input "a") :=
    ⟨_, .of_matches (.operand rfl (.operand rfl (.bind ground .nil))) (by simp), rfl⟩
  have made : (Tree.app "exp" [.app "log" [.var 0] .unspecified] .unspecified).subst σ =
      .app "exp" [.app "log" [.leaf (.input "a")] .unspecified] .unspecified := by simp [eq]
  have kept : Pattern.keeping undoneSites.shared σ 0 = .leaf (.input "a") :=
    (Pattern.keeping_of_outer (.inr (.head _))).trans eq
  -- The second one matches below, with that for the variable.
  have put : Pattern.inst (Tree.andThen .var (Pattern.keeping undoneSites.shared σ))
      ⟨1, .app "log" [.var 0] .unspecified, .var 0⟩ =
      ⟨1, .app "log" [.leaf (.input "a")] .unspecified, .leaf (.input "a")⟩ := by
    simp [Pattern.inst, kept]
  have second : Pattern.Binds negOfLog.facts ⟨1, .app "log" [.leaf (.input "a")] .unspecified,
      .leaf (.input "a")⟩ (.app "log" [.leaf (.input "a")] .unspecified) _ :=
    .of_matches (.same (fun v => by simp) .nil) (by simp)
  have below : Tree.Replaces (.app "log" [.leaf (.input "a")] .unspecified) (.leaf (.input "a")) [0]
      (.app "exp" [.app "log" [.leaf (.input "a")] .unspecified] .unspecified)
      (.app "exp" [.leaf (.input "a")] .unspecified) := .inside rfl .here
  obtain ⟨e, turn, result, sites⟩ := Pattern.InTurn.exists_cons (Pattern.inst_var _) first made .here
    (Pattern.InTurn.exists_cons put second rfl below ⟨_, .nil, rfl, rfl⟩)
  refine ⟨e, ⟨turn, List.forall_mem_nil _⟩, result, ?_⟩
  rw [sites]
  show List.Nodup [Tree.app "neg" [.app "log" [.leaf (.input "a")] .unspecified] .unspecified,
    .app "log" [.leaf (.input "a")] .unspecified]
  simp

end Regraft
