import Regraft.Proofs.Rewriting.Built
import Regraft.Proofs.Search.Meets
import Regraft.Script.Library

/-
  Scripts make goals and rules that are built of elementary ones (`Goal.build_built`,
  `Rule.build_builds`). Whatever is built of elementary goals, every answer keeps all bindings and sites,
  and stays acyclic with its disequalities pending (`Goal.Built.answer_keeps`).
-/

namespace Regraft

/-- An action that adds to a session and leaves a stored term. -/
structure Session.Adds (ses : Session) (r : TermId × Session) : Prop where
  grows : ses.Grows r.2
  stored : r.2.store.Stored r.1

theorem Session.Adds.back {ses ses' : Session} {r : TermId × Session} (h : ses'.Adds r)
    (g : ses.Grows ses') : ses.Adds r := ⟨g.trans h.grows, h.stored⟩

namespace Script

variable {env : Env} {ses ses' : Session}

/-! ## Terms -/

/-- Storing a term, whatever happens to the counter and the names of variables. -/
theorem intern_adds {x : Term} {f : Store → TermId × Store} {st : Store}
    (interns : f ses.store = Store.intern x st) (same : st.terms = ses.store.terms)
    (closed : ses.store.Closed x) : ses.Adds (Session.onStore f ses) := by
  have terms : st.term? = ses.store.term? := by
    funext t
    rw [Store.term?, Store.term?, same]
  have g : ses.store.Grows st :=
    ⟨fun t y h => by rwa [terms], fun hv t op args attrs h => hv t op args attrs (terms ▸ h)⟩
  have closed' : st.Closed x := by
    cases x with
    | app op args attrs => exact fun u hu => g.stored (closed u hu)
    | _ => trivial
  rw [Session.onStore_apply, interns]
  exact ⟨⟨rfl, g.trans (Store.intern_grows closed')⟩, Store.stored_of_term? (Store.term?_intern x st)⟩

theorem note_grows (name : String) (ses : Session) : ses.Grows (Session.note name ses).2 :=
  ⟨rfl, .refl _⟩

theorem named_adds (name : String) (ses : Session) : ses.Adds (Session.named name ses) := by
  refine Session.Adds.back ?_ (note_grows name ses)
  show (Session.note name ses).2.Adds
    (Session.onStore (Store.namedVar name) (Session.note name ses).2)
  cases known : ses.store.named.lookup name with
  | some i =>
    have made : Store.namedVar name ses.store = Store.intern (.var i) ses.store := by
      rw [Store.namedVar, known]
    exact intern_adds made rfl trivial
  | none =>
    have made : Store.namedVar name ses.store = Store.intern (.var ses.store.nextVar)
        { ses.store with nextVar := ses.store.nextVar + 1
                         named := (name, ses.store.nextVar) :: ses.store.named } := by
      rw [Store.namedVar, known]
    exact intern_adds made rfl trivial

namespace Template

mutual

/-- Building a template adds a term. -/
theorem build_adds (t : Template) {ses : Session} (stored : ∀ e ∈ env, ses.store.Stored e.2) :
    ses.Adds (t.build env ses) := by
  match t with
  | ref name =>
    cases found : env.lookup name with
    | some u =>
      have built : (ref name).build env ses = (u, ses) := by
        rw [build, found]
        rfl
      obtain ⟨as, bs, eq, -⟩ := List.lookup_eq_some_iff.mp found
      rw [built]
      exact ⟨.refl ses, stored (name, u) (eq ▸ List.mem_append_right as (.head bs))⟩
    | none =>
      have built : (ref name).build env ses = Session.named name ses := by rw [build, found]
      exact built ▸ named_adds name ses
  | number x =>
    show ses.Adds (Session.onStore (Store.scalar x) ses)
    exact intern_adds rfl rfl trivial
  | constant value elem =>
    show ses.Adds (Session.onStore (Store.constant (.ofTensor value elem)) ses)
    exact intern_adds rfl rfl trivial
  | input name =>
    show ses.Adds (Session.onStore (Store.input name) (Session.note name ses).2)
    exact .back (intern_adds rfl rfl trivial) (note_grows name ses)
  | var index =>
    show ses.Adds (Session.onStore (Store.var index) ses)
    exact intern_adds rfl rfl trivial
  | named name => exact named_adds name ses
  | fresh =>
    show ses.Adds (Session.onStore Store.fresh ses)
    exact intern_adds rfl rfl trivial
  | op raw args =>
    obtain ⟨g, operands⟩ := buildAll_adds args stored
    let attrs := { Attrs.unspecified with output := (OpName.normalize raw).output }
    show ses.Adds (Session.onStore (Store.app (OpName.normalize raw).name (buildAll env args ses).1 attrs)
      (Session.note (OpName.normalize raw).name (buildAll env args ses).2).2)
    exact .back (intern_adds rfl rfl operands) (g.trans (note_grows _ _))
  | tagged tag args attrs =>
    obtain ⟨g, operands⟩ := buildAll_adds args stored
    show ses.Adds (Session.onStore (Store.app tag (buildAll env args ses).1 attrs)
      (Session.note tag (buildAll env args ses).2).2)
    exact .back (intern_adds rfl rfl operands) (g.trans (note_grows _ _))

theorem buildAll_adds (ts : List Template) {ses : Session}
    (stored : ∀ e ∈ env, ses.store.Stored e.2) : ses.Grows (buildAll env ts ses).2 ∧
      ∀ u ∈ (buildAll env ts ses).1, (buildAll env ts ses).2.store.Stored u := by
  match ts with
  | [] => exact ⟨.refl ses, nofun⟩
  | t :: rest =>
    have first := build_adds t stored
    obtain ⟨g, later⟩ := buildAll_adds rest fun e he => first.grows.store.stored (stored e he)
    show ses.Grows (buildAll env rest (t.build env ses).2).2 ∧
      ∀ u ∈ (t.build env ses).1 :: (buildAll env rest (t.build env ses).2).1,
        (buildAll env rest (t.build env ses).2).2.store.Stored u
    exact ⟨first.grows.trans g, List.forall_mem_cons.mpr ⟨g.store.stored first.stored, later⟩⟩

end

end Template

/-- New names are bound to stored terms, as the old ones. -/
theorem Env.extend_stored (vars : List String) (stored : ∀ e ∈ env, ses.store.Stored e.2) :
    ses.Grows (env.extend vars ses).2 ∧
      ∀ e ∈ (env.extend vars ses).1, (env.extend vars ses).2.store.Stored e.2 := by
  obtain ⟨news, eq, -, g, new⟩ := Env.extend_spec env vars ses
  refine ⟨g, fun e he => ?_⟩
  rw [eq] at he
  rcases List.mem_append.mp he with he | he
  · obtain ⟨v, var⟩ := new e he
    exact Store.stored_of_term? var
  · exact g.store.stored (stored e he)

/-- Two terms that are built one after the other. -/
theorem Template.build_both (a b : Template) (hv : ses.store.Valid)
    (stored : ∀ e ∈ env, ses.store.Stored e.2) : ses.Grows (b.build env (a.build env ses).2).2 ∧
      (b.build env (a.build env ses).2).2.store.Holds Tree.anyLabel (a.build env ses).1 ∧
      (b.build env (a.build env ses).2).2.store.Holds Tree.anyLabel
        (b.build env (a.build env ses).2).1 := by
  have first := build_adds a stored
  have second := build_adds b fun e he => first.grows.store.stored (stored e he)
  have g := first.grows.trans second.grows
  have valid := g.store.valid hv
  exact ⟨g, .of_stored valid (second.grows.store.stored first.stored),
    .of_stored valid second.stored⟩

/-- A pattern that a script describes is made of stored terms. -/
theorem Template.buildPattern_stored (vars : List String) (lhs rhs : Template)
    (stored : ∀ e ∈ env, ses.store.Stored e.2) :
    Regraft.Rule.Makes Tree.anyLabel ses (buildPattern env vars lhs rhs) := by
  intro ses' w g hw
  obtain ⟨g', extended⟩ := Env.extend_stored vars fun e he => g.store.stored (stored e he)
  have names : ∀ e ∈ ("witness", w) :: (env.extend vars ses').1,
      (env.extend vars ses').2.store.Stored e.2 :=
    List.forall_mem_cons.mpr ⟨g'.store.stored hw.stored, extended⟩
  obtain ⟨g'', both⟩ := build_both lhs rhs (g'.store.valid hw.valid) names
  exact ⟨g'.trans g'', both⟩

/-! ## Goals and rules -/

mutual

/-- What a script makes a goal of is built of elementary goals. -/
theorem Goal.build_built (goal : Goal) {env : Env} {ses : Session} (hv : ses.store.Valid)
    (stored : ∀ e ∈ env, ses.store.Stored e.2) : ses.Grows (goal.build env ses).2 ∧
      Regraft.Goal.Built Tree.anyLabel (goal.build env ses).2 (goal.build env ses).1 := by
  match goal with
  | .succeed => exact ⟨.refl ses, .succeed⟩
  | .fail => exact ⟨.refl ses, .fail⟩
  | .never => exact ⟨.refl ses, .never⟩
  | .eq a b =>
    obtain ⟨g, left, right⟩ := Template.build_both a b hv stored
    exact ⟨g, .eq left right⟩
  | .neq a b =>
    obtain ⟨g, left, right⟩ := Template.build_both a b hv stored
    exact ⟨g, .neq left right⟩
  | .modulo a b =>
    obtain ⟨g, left, right⟩ := Template.build_both a b hv stored
    exact ⟨g, .modulo left right⟩
  | .site a b =>
    obtain ⟨g, -, -⟩ := Template.build_both a b hv stored
    exact ⟨g, .site _ _⟩
  | .conj goals =>
    obtain ⟨g, each⟩ := Goal.buildAll_built goals hv stored
    exact ⟨g, .conj each⟩
  | .disj goals =>
    obtain ⟨g, each⟩ := Goal.buildAll_built goals hv stored
    exact ⟨g, .disj each⟩
  | .countFrom a x =>
    have made := Template.build_adds a stored
    exact ⟨made.grows, .countFrom (.of_stored (made.grows.store.valid hv) made.stored) fun _ => trivial⟩
  | .defer vars body =>
    have each : ∀ ses', ses.Grows ses' → ses'.Grows (body.build (env.extend vars ses').1
        (env.extend vars ses').2).2 ∧ Regraft.Goal.Built Tree.anyLabel
          (body.build (env.extend vars ses').1 (env.extend vars ses').2).2
          (body.build (env.extend vars ses').1 (env.extend vars ses').2).1 := by
      intro ses' g
      obtain ⟨g', extended⟩ := Env.extend_stored vars fun e he => g.store.stored (stored e he)
      obtain ⟨g'', built⟩ := Goal.build_built body ((g.trans g').store.valid hv) extended
      exact ⟨g'.trans g'', built⟩
    exact ⟨.refl ses, .defer (fun ses' g => (each ses' g).1) fun ses' g => (each ses' g).2⟩
  | .relate rule a b =>
    obtain ⟨g, left, right⟩ := Template.build_both a b hv stored
    obtain ⟨g', built⟩ := Rule.build_builds rule (fun e he => g.store.stored (stored e he))
      _ _ _ (.refl _) left right
    exact ⟨g.trans g', built⟩
  | .anywhere rule a b =>
    obtain ⟨g, left, right⟩ := Template.build_both a b hv stored
    exact ⟨g, Regraft.Goal.rewriteAnywhere_built
      (Rule.build_builds rule fun e he => g.store.stored (stored e he)) left right⟩
  | .sites rules a b =>
    obtain ⟨g, left, right⟩ := Template.build_both a b hv stored
    exact ⟨g, Regraft.Goal.sites_built
      (Rule.buildAll_builds rules fun e he => g.store.stored (stored e he)) left right⟩

theorem Goal.buildAll_built (goals : List Goal) {env : Env} {ses : Session} (hv : ses.store.Valid)
    (stored : ∀ e ∈ env, ses.store.Stored e.2) : ses.Grows (Goal.buildAll env goals ses).2 ∧
      ∀ goal ∈ (Goal.buildAll env goals ses).1,
        Regraft.Goal.Built Tree.anyLabel (Goal.buildAll env goals ses).2 goal := by
  match goals with
  | [] => exact ⟨.refl ses, nofun⟩
  | goal :: rest =>
    obtain ⟨g, built⟩ := Goal.build_built goal hv stored
    obtain ⟨g', later⟩ := Goal.buildAll_built rest (g.store.valid hv)
      fun e he => g.store.stored (stored e he)
    refine ⟨g.trans g', ?_⟩
    show ∀ made ∈ (goal.build env ses).1 :: (Goal.buildAll env rest (goal.build env ses).2).1,
      Regraft.Goal.Built Tree.anyLabel (Goal.buildAll env rest (goal.build env ses).2).2 made
    exact List.forall_mem_cons.mpr ⟨built.grows g', later⟩

/-- What a script makes a rule of relates terms by goals that are built of elementary ones. -/
theorem Rule.build_builds (rule : Rule) {env : Env} {ses : Session}
    (stored : ∀ e ∈ env, ses.store.Stored e.2) : (rule.build env).Builds Tree.anyLabel ses := by
  match rule with
  | .pattern name vars lhs rhs =>
    rw [Rule.build]
    exact Regraft.Rule.pattern_builds name (Template.buildPattern_stored vars lhs rhs stored)
  | .patternInChain name vars lhs rhs =>
    rw [Rule.build]
    exact Regraft.Rule.patternInChain_builds name (fun _ _ _ _ _ => trivial)
      (Template.buildPattern_stored vars lhs rhs stored)
  | .any name rules =>
    rw [Rule.build]
    exact Regraft.Rule.any_builds name (Rule.buildAll_builds rules stored)
  | .correlated name vars sites guard =>
    rw [Rule.build]
    refine Regraft.Rule.correlated_builds name fun ses' g hv => ?_
    obtain ⟨g', extended⟩ := Env.extend_stored vars fun e he => g.store.stored (stored e he)
    obtain ⟨g'', built⟩ := Goal.build_built guard (g'.store.valid hv) extended
    exact ⟨g'.trans g'', Rule.buildAll_builds sites fun e he => g''.store.stored (extended e he),
      built⟩
  | .relation name vars goal =>
    rw [Rule.build]
    intro ses' t u g ht hu
    obtain ⟨g', extended⟩ := Env.extend_stored vars fun e he => g.store.stored (stored e he)
    have names : ∀ e ∈ ("output", u) :: ("input", t) :: (env.extend vars ses').1,
        (env.extend vars ses').2.store.Stored e.2 :=
      List.forall_mem_cons.mpr ⟨g'.store.stored hu.stored,
        List.forall_mem_cons.mpr ⟨g'.store.stored ht.stored, extended⟩⟩
    obtain ⟨g'', built⟩ := Goal.build_built goal (g'.store.valid ht.valid) names
    exact ⟨g'.trans g'', built⟩

theorem Rule.buildAll_builds (rules : List Rule) {env : Env} {ses : Session}
    (stored : ∀ e ∈ env, ses.store.Stored e.2) :
    ∀ rule ∈ Rule.buildAll env rules, rule.Builds Tree.anyLabel ses := by
  match rules with
  | [] => exact nofun
  | rule :: rest =>
    rw [Rule.buildAll]
    exact List.forall_mem_cons.mpr ⟨Rule.build_builds rule stored, Rule.buildAll_builds rest stored⟩

end

end Script

/-! ## Answers -/

/-- Every answer of a goal that is built of elementary ones keeps all bindings and adds sites at the
    end. It is acyclic and its disequalities are pending if it was so at the start, so that reading
    terms under it ends by itself. -/
theorem Goal.Built.answer_keeps {ses ses' : Session} {s s' : Subst} {goal : Goal}
    (built : Goal.Built Tree.anyLabel ses goal) (hs : s.Sound ses.store) (pending : s.Pending ses.store)
    (answer : Search.Answer ses (.apply goal s) s' ses') :
    s.Extends s' ∧ s.sites <+: s'.sites ∧ s'.Sound ses'.store ∧ s'.Pending ses'.store ∧
      s.Resolves ses.store ∧ s'.Resolves ses'.store := by
  have scene : Search.Scene ses.facts Tree.anyLabel ses s := ⟨rfl, hs, fun v => Tree.over_any _⟩
  have meets := fun n => built.evolves (fun _ _ _ _ _ => trivial) n (.refl ses) scene
  obtain ⟨-, evolved⟩ := answer.meets meets
  have adv := evolved.advance hs
  exact ⟨adv.kept, evolved.sites hs, adv.sound, evolved.pending hs pending, hs.resolves,
    adv.sound.resolves⟩

/-- Variables `x`, `y` and `z`, the input `a`, and the goal that cancels two negations of `a`
    somewhere in `-(-a)`, with the result `x`. -/
def cancelNegations : Goal × Session :=
  (Script.Goal.anywhere .negNeg (.neg (.neg (.input "a"))) (.named "x")).build []
    (Script.Template.buildAll [] [.named "x", .named "y", .named "z", .input "a"] .bare).2

/-- That `x` is not `y` is still pending when `x` has become `a`, and `z` stays what it was. -/
theorem cancelNegations_keeps : ∃ s' ses', Search.Answer cancelNegations.2 (.apply cancelNegations.1
      ⟨(Subst.empty.bind 2 ⟨3⟩).bindings, [⟨⟨0⟩, ⟨1⟩⟩], []⟩) s' ses' ∧
    s'.get? 2 = some ⟨3⟩ ∧ s'.constraints = [⟨⟨0⟩, ⟨1⟩⟩] ∧ s'.sites = [⟨⟨5⟩, ⟨0⟩⟩] ∧
    s'.Pending ses'.store ∧ s'.Resolves ses'.store := by
  generalize hs : (⟨(Subst.empty.bind 2 ⟨3⟩).bindings, [⟨⟨0⟩, ⟨1⟩⟩], []⟩ : Subst) = s
  have run : (match (pull Search.turn 30 (.apply cancelNegations.1 s) cancelNegations.2).1 with
      | .result s' _ => some (s'.constraints, s'.sites)
      | _ => none) = some ([⟨⟨0⟩, ⟨1⟩⟩], [⟨⟨5⟩, ⟨0⟩⟩]) := by
    rw [← hs]
    decide +kernel
  match pulled : pull Search.turn 30 (.apply cancelNegations.1 s) cancelNegations.2 with
  | (.result s' rest, ses') =>
    rw [pulled] at run
    obtain ⟨constraints, sites⟩ := Prod.mk.inj (Option.some.inj run)
    have bare : (Script.Template.buildAll [] [.named "x", .named "y", .named "z", .input "a"]
      .bare).2.store.Valid := by decide +kernel
    have valid : cancelNegations.2.store.Valid := by decide +kernel
    have built := (Script.Goal.build_built (.anywhere .negNeg (.neg (.neg (.input "a"))) (.named "x"))
      bare (List.forall_mem_nil _)).2
    have sound : s.Sound cancelNegations.2.store := by
      have start := (Subst.Sound.empty valid).bind (t := ⟨3⟩) (v := 2) (by decide +kernel)
        (Subst.get?_empty 2) (by rw [← (Subst.Sound.empty valid).occurs_iff]; decide +kernel)
      exact hs ▸ start.congr rfl
    have pending : s.Pending cancelNegations.2.store := by
      subst hs
      exact List.forall_mem_singleton.mpr ⟨by decide +kernel, by decide +kernel⟩
    obtain ⟨kept, -, -, pending', -, resolves⟩ :=
      Goal.Built.answer_keeps built sound pending (.here pulled)
    exact ⟨s', ses', .here pulled, kept 2 ⟨3⟩ (by rw [← hs]; decide +kernel), constraints, sites,
      pending', resolves⟩
  | (.finished _, ses) | (.outOfTurns _, ses) =>
    rw [pulled] at run
    cases run

end Regraft
