import Regraft.Proofs.Meaning.Graph
import Regraft.Rewriter
import Mathlib.Algebra.Ring.Int.Defs

/-
  Rewriting keeps what graphs mean. A step by an identity changes no value of a bundle of outputs, however
  many steps a path has, and rebuilding keeps the values; so every graph that a rewriter returns
  denotes what the graph it was given denotes (`denote_eq_of_returns`).
-/

namespace Regraft

variable {F : Facts} {M : Type*} {I : Interpretation M} {input : String → M} {xs : List M}
  {es : List Tree} {t u : Tree}

/-! ## Steps -/

/-- Where nothing is said of the operators, everything respects it. -/
theorem respects_none (I : Interpretation M) : I.Respects .none where
  permuted _ h := by cases h
  folded _ h := by cases h

theorem map_set_of_eq {α β : Type*} {f : α → β} {ts : List α} {i : Nat} {t u : α}
    (here : ts[i]? = some t) (same : f t = f u) : (ts.set i u).map f = ts.map f := by
  rw [List.map_set, ← same, ← List.map_set]
  obtain ⟨lt, rfl⟩ := List.getElem?_eq_some_iff.mp here
  rw [List.set_getElem_self]

/-- Rewriting at one position keeps the value. -/
theorem Tree.Rewrites.value_eq (h : Tree.Rewrites (Script.SameValue I es) t u) (ρ : Valuation M) :
    I.value ρ t = I.value ρ u := by
  induction h with
  | here h => exact h.2 ρ
  | inside operand _ rebuilt ih =>
    rw [(respects_none I).value_eq (rebuilt .none), Interpretation.value_app,
      Interpretation.value_app, map_set_of_eq operand ih]

/-- A step leaves a bundle of outputs with the same values. -/
theorem Graph.Bundles.step {σ : UInt32 → Tree} (h : Graph.Bundles I input xs t)
    (step : Tree.Rewrites (Script.SameValue I []) (t.subst σ) u) (labels : u.Over operationLabel) :
    Graph.Bundles I input xs u := by
  obtain ⟨-, ts, attrs, rfl, value⟩ := h
  rw [Tree.subst_app] at step
  cases step with
  | here h =>
    obtain ⟨⟨op, ne, app⟩, -⟩ := h
    exact absurd app.symm ne
  | @inside _ _ _ i t' u' _ operand step rebuilt =>
    obtain ⟨ws, attrs', rfl, alike⟩ := (rebuilt .none).operands_of_ordered rfl
    refine ⟨labels, ws, attrs', rfl, fun ρ hρ => ?_⟩
    have same : ws.map (I.value ρ) = ((ts.map (Tree.subst σ)).set i u').map (I.value ρ) := by
      rw [← List.forall₂_eq_eq_eq, List.forall₂_map_left_iff, List.forall₂_map_right_iff]
      exact alike.imp fun _ _ h => (respects_none I).value_eq h
    rw [same, map_set_of_eq operand (step.value_eq ρ), List.map_map]
    have after := value { ρ with var := fun v => I.value ρ (σ v) } hρ
    exact (List.map_congr_left fun t _ => Interpretation.value_subst σ t).trans after

/-- Walks by an identity keep the values of outputs. -/
theorem Script.identities_keep (hI : I.Respects F) (h : I.Identities) {rule : Script.Rule}
    (mem : rule ∈ Rule.identities :: Rule.identityRules) :
    (rule.build []).Keeps F (Graph.Bundles I input xs) := by
  intro ses t facts holds
  refine Walk.start_yields (V := Vocabulary.operations F) (sameValue_stable I)
    (identities_sound hI h mem) facts ⟨holds.valid, holds.stored, holds.tree.1⟩ ?_
  intro σ u step labels
  exact holds.tree.step step labels

/-! ## Rewriters -/

namespace Rewriter

variable {base : Graph} {ses : Session} {rule : Rule} {config : Config} {turns : Nat}

theorem graphOf_apply (base : Graph) (r : Reduction) (ses : Session) :
    graphOf base r ses = match Graph.ofTerm r.term base ses with
      | (.error e, ses') => (.error (.rebuild e), ses')
      | (.ok b, ses') => (.ok ⟨b.graph, r.steps, b.reused, b.created⟩, ses') := by
  rw [graphOf, SessionM.bind_apply]
  generalize Graph.ofTerm r.term base ses = result
  obtain ⟨b, ses'⟩ := result
  cases b <;> rfl

theorem graphOf_denotes {r : Reduction} (h : Holds (Graph.Bundles I input xs) ses r.term)
    (valid : base.validate = .ok ()) : ses.Grows (graphOf base r ses).2 ∧ ∀ w,
      (graphOf base r ses).1 = .ok w → w.graph.denote I input = some xs := by
  obtain ⟨g, denotes⟩ := Graph.ofTerm_denotes h valid
  rw [graphOf_apply]
  match built : Graph.ofTerm r.term base ses with
  | (.error e, ses') =>
    rw [built] at g
    exact ⟨g, nofun⟩
  | (.ok b, ses') =>
    rw [built] at g denotes
    refine ⟨g, fun w hw => ?_⟩
    cases hw
    exact denotes b rfl

theorem graphsOf_cons (base : Graph) (r : Reduction) (rest : List Reduction) (ses : Session) :
    graphsOf base (r :: rest) ses = match graphOf base r ses with
      | (.error e, ses') => (.error e, ses')
      | (.ok w, ses') => match graphsOf base rest ses' with
        | (.error e, ses'') => (.error e, ses'')
        | (.ok ws, ses'') => (.ok (w :: ws), ses'') := by
  rw [graphsOf, SessionM.bind_apply]
  generalize graphOf base r ses = result
  obtain ⟨w, ses'⟩ := result
  cases w with
  | error e => rfl
  | ok w =>
    dsimp only
    rw [SessionM.bind_apply]
    generalize graphsOf base rest ses' = results
    obtain ⟨ws, ses''⟩ := results
    cases ws <;> rfl

theorem graphsOf_denotes {rs : List Reduction}
    (h : ∀ r ∈ rs, Holds (Graph.Bundles I input xs) ses r.term) (valid : base.validate = .ok ()) :
    ses.Grows (graphsOf base rs ses).2 ∧ ∀ ws, (graphsOf base rs ses).1 = .ok ws →
      ∀ w ∈ ws, w.graph.denote I input = some xs := by
  induction rs generalizing ses with
  | nil =>
    refine ⟨.refl ses, fun ws hws => ?_⟩
    cases hws
    nofun
  | cons r rest ih =>
    rw [List.forall_mem_cons] at h
    obtain ⟨g, denotes⟩ := graphOf_denotes h.1 valid
    rw [graphsOf_cons]
    match first : graphOf base r ses with
    | (.error e, ses') =>
      rw [first] at g
      exact ⟨g, nofun⟩
    | (.ok w, ses') =>
      rw [first] at g denotes
      obtain ⟨g', all⟩ := ih fun r' mem => (h.2 r' mem).grows g
      dsimp only
      match later : graphsOf base rest ses' with
      | (.error e, ses'') =>
        rw [later] at g'
        exact ⟨g.trans g', nofun⟩
      | (.ok ws, ses'') =>
        rw [later] at g' all
        refine ⟨g.trans g', fun ws' hws => ?_⟩
        cases hws
        rw [List.forall_mem_cons]
        exact ⟨denotes w rfl, all ws rfl⟩

/-! ## Runs -/

/-- Go on with what a run comes to. -/
def settle {α β : Type} (run : SessionM (Option (Except RewriteError α)))
    (finish : α → SessionM (Except RewriterError β)) : SessionM (Result β) := do
  match ← run with
  | none => return none
  | some (.error e) => return some (.error (.reduction e))
  | some (.ok a) => return some (← finish a)

theorem settle_apply {α β : Type} (run : SessionM (Option (Except RewriteError α)))
    (finish : α → SessionM (Except RewriterError β)) (ses : Session) :
    settle run finish ses = match run ses with
      | (none, ses') => (none, ses')
      | (some (.error e), ses') => (some (.error (.reduction e)), ses')
      | (some (.ok a), ses') => (some (finish a ses').1, (finish a ses').2) := by
  rw [settle, SessionM.bind_apply]
  generalize run ses = r
  obtain ⟨outcome, ses'⟩ := r
  cases outcome with
  | none => rfl
  | some outcome => cases outcome <;> rfl

/-- What every result of a run satisfies, and what its finish makes of it. -/
theorem settle_gives {α β : Type} {run : SessionM (Option (Except RewriteError α))}
    {finish : α → SessionM (Except RewriterError β)} {P : α → Session → Prop} {Q : β → Prop}
    (ran : ses.Grows (run ses).2 ∧ ∀ a, (run ses).1 = some (.ok a) → P a (run ses).2)
    (finished : ∀ {a ses}, P a ses → ses.Grows (finish a ses).2 ∧
      ∀ b, (finish a ses).1 = .ok b → Q b) :
    ses.Grows (settle run finish ses).2 ∧ ∀ b, (settle run finish ses).1 = some (.ok b) → Q b := by
  obtain ⟨g, results⟩ := ran
  rw [settle_apply]
  match outcome : run ses with
  | (none, ses') =>
    rw [outcome] at g
    exact ⟨g, nofun⟩
  | (some (.error e), ses') =>
    rw [outcome] at g
    exact ⟨g, nofun⟩
  | (some (.ok a), ses') =>
    rw [outcome] at g results
    obtain ⟨g', good⟩ := finished (results a rfl)
    refine ⟨g.trans g', fun b hb => good b (Option.some.inj hb)⟩

theorem singleStep_eq (rule : Rule) (turns : Nat) (base : Graph) (ses : Session) :
    singleStep rule turns base ses = settle (rule.applyOnce (base.toTerms ses).1.root turns)
      (fun t => graphOf base ⟨t, 1⟩) (base.toTerms ses).2 := by
  rw [singleStep, SessionM.bind_apply, SessionM.bind_apply, settle_apply]
  generalize rule.applyOnce (base.toTerms ses).1.root turns (base.toTerms ses).2 = r
  obtain ⟨outcome, ses'⟩ := r
  cases outcome with
  | none => rfl
  | some outcome => cases outcome <;> rfl

/-- The run over fixpoints that begins at the term of a graph. -/
def startAt (rule : Rule) (config : Config) (base : Graph) : SessionM Fixpoint := do
  let source ← base.toTerms
  Fixpoint.start rule config.stepLimit source.root

theorem firstFixpoint_eq (rule : Rule) (config : Config) (turns : Nat) (base : Graph)
    (ses : Session) : firstFixpoint rule config turns base ses =
      settle ((startAt rule config base ses).1.once turns) (graphOf base)
        (startAt rule config base ses).2 := by
  have same : Fixpoint.start rule config.stepLimit (base.toTerms ses).1.root (base.toTerms ses).2 =
    startAt rule config base ses := rfl
  rw [firstFixpoint, SessionM.bind_apply, SessionM.bind_apply, SessionM.bind_apply, settle_apply, same]
  generalize (startAt rule config base ses).1.once turns (startAt rule config base ses).2 = r
  obtain ⟨outcome, ses'⟩ := r
  cases outcome with
  | none => rfl
  | some outcome => cases outcome <;> rfl

theorem allFixpoints_eq (rule : Rule) (config : Config) (turns : Nat) (base : Graph)
    (ses : Session) : allFixpoints rule config turns base ses =
      settle ((startAt rule config base ses).1.all config.maxResults turns) (graphsOf base)
        (startAt rule config base ses).2 := by
  have same : Fixpoint.start rule config.stepLimit (base.toTerms ses).1.root (base.toTerms ses).2 =
    startAt rule config base ses := rfl
  rw [allFixpoints, SessionM.bind_apply, SessionM.bind_apply, SessionM.bind_apply, settle_apply, same]
  generalize (startAt rule config base ses).1.all config.maxResults turns
    (startAt rule config base ses).2 = r
  obtain ⟨outcome, ses'⟩ := r
  cases outcome with
  | none => rfl
  | some outcome => cases outcome <;> rfl

variable (kept : rule.Keeps F (Graph.Bundles I input xs)) (facts : ses.facts = F)
  (hv : ses.store.Valid) (valid : base.validate = .ok ()) (hxs : base.denote I input = some xs)

include kept facts hv valid hxs

theorem singleStep_denotes : ses.Grows (singleStep rule turns base ses).2 ∧ ∀ w,
    (singleStep rule turns base ses).1 = some (.ok w) → w.graph.denote I input = some xs := by
  obtain ⟨g, ys, hys, holds⟩ := Graph.toTerms_bundles I input hv valid
  rw [hxs, Option.some_inj] at hys
  subst hys
  rw [singleStep_eq]
  have stepped := rule.applyOnce_holds kept (g.facts.trans facts) holds turns
  have rebuilt : ∀ {t ses}, Holds (Graph.Bundles I input xs) ses t →
      ses.Grows (graphOf base ⟨t, 1⟩ ses).2 ∧ ∀ w, (graphOf base ⟨t, 1⟩ ses).1 = .ok w →
        w.graph.denote I input = some xs := fun holds => graphOf_denotes holds valid
  obtain ⟨g', good⟩ := settle_gives stepped rebuilt
  exact ⟨g.trans g', good⟩

theorem startAt_keeps : ses.Grows (startAt rule config base ses).2 ∧
    Fixpoint.Keeps (Graph.Bundles I input xs) rule (startAt rule config base ses).2
      (startAt rule config base ses).1 := by
  obtain ⟨g, ys, hys, holds⟩ := Graph.toTerms_bundles I input hv valid
  rw [hxs, Option.some_inj] at hys
  subst hys
  obtain ⟨g', keeps⟩ := Fixpoint.start_keeps kept (g.facts.trans facts) holds config.stepLimit
  exact ⟨g.trans g', keeps⟩

theorem firstFixpoint_denotes : ses.Grows (firstFixpoint rule config turns base ses).2 ∧ ∀ w,
    (firstFixpoint rule config turns base ses).1 = some (.ok w) →
      w.graph.denote I input = some xs := by
  obtain ⟨g, keeps⟩ : ses.Grows (startAt rule config base ses).2 ∧ _ :=
    startAt_keeps kept facts hv valid hxs
  rw [firstFixpoint_eq]
  have found := Fixpoint.once_holds turns kept (g.facts.trans facts) keeps
  obtain ⟨g', good⟩ := settle_gives found fun holds => graphOf_denotes holds valid
  exact ⟨g.trans g', good⟩

theorem allFixpoints_denotes : ses.Grows (allFixpoints rule config turns base ses).2 ∧ ∀ ws,
    (allFixpoints rule config turns base ses).1 = some (.ok ws) →
      ∀ w ∈ ws, w.graph.denote I input = some xs := by
  obtain ⟨g, keeps⟩ : ses.Grows (startAt rule config base ses).2 ∧ _ :=
    startAt_keeps kept facts hv valid hxs
  rw [allFixpoints_eq]
  have found := Fixpoint.all_holds config.maxResults turns kept (g.facts.trans facts) keeps
  obtain ⟨g', good⟩ := settle_gives found fun holds => graphsOf_denotes holds valid
  exact ⟨g.trans g', good⟩

omit kept facts hv valid hxs

/-! ## All uses -/

/-- A rewriter that was made from a rule and a configuration, and used on checked graphs since. -/
inductive Used (rule : Rule) (config : Config) : Rewriter → Prop
  | new : Used rule config (.new rule config)
  | first {r : Rewriter} {g : Graph} (turns : Nat) (used : Used rule config r)
      (valid : g.validate = .ok ()) : Used rule config (r.rewriteFirst turns g).2
  | all {r : Rewriter} {g : Graph} (turns : Nat) (used : Used rule config r)
      (valid : g.validate = .ok ()) : Used rule config (r.rewriteAll turns g).2
  | once {r : Rewriter} {g : Graph} (turns : Nat) (used : Used rule config r)
      (valid : g.validate = .ok ()) : Used rule config (r.rewriteOnce turns g).2

/-- A graph that a rewriter returns for a graph. -/
inductive Returns (r : Rewriter) (g : Graph) : Graph → Prop
  | first {turns : Nat} {w : Rewritten} (result : (r.rewriteFirst turns g).1 = some (.ok w)) :
      Returns r g w.graph
  | all {turns : Nat} {ws : List Rewritten} {w : Rewritten}
      (result : (r.rewriteAll turns g).1 = some (.ok ws)) (mem : w ∈ ws) : Returns r g w.graph
  | once {turns : Nat} {w : Rewritten} (result : (r.rewriteOnce turns g).1 = some (.ok w)) :
      Returns r g w.graph

/-- What uses keep of a rewriter. -/
structure Ready (rule : Rule) (config : Config) (r : Rewriter) : Prop where
  sameRule : r.rule = rule
  sameConfig : r.config = config
  facts : r.session.facts = (Session.ofConfig config).facts
  valid : r.session.store.Valid

theorem store_ofConfig (config : Config) : (Session.ofConfig config).store = .empty := by
  have kept : ∀ (declare : Session → String → Session), (∀ s name, (declare s name).store = s.store) →
      ∀ (names : List String) (s : Session), (names.foldl declare s).store = s.store := by
    intro declare same names
    induction names with
    | nil => exact fun s => rfl
    | cons name rest ih => exact fun s => (ih _).trans (same s name)
  unfold Session.ofConfig
  rw [kept Session.declareAssociative fun _ _ => rfl, kept Session.declareCommutative fun _ _ => rfl]
  rfl

theorem Ready.new (rule : Rule) (config : Config) : Ready rule config (.new rule config) := by
  refine ⟨rfl, rfl, rfl, ?_⟩
  show (Session.ofConfig config).store.Valid
  rw [store_ofConfig]
  exact Store.valid_empty

/-- A run that lets the session grow leaves the rewriter ready. -/
theorem Ready.perform {α : Type} {r : Rewriter} (h : Ready rule config r) {act : SessionM α}
    (g : r.session.Grows (act r.session).2) : Ready rule config (r.perform act).2 where
  sameRule := h.sameRule
  sameConfig := h.sameConfig
  facts := g.facts.trans h.facts
  valid := g.store.valid h.valid

variable {scripted : Script.Rule} {r : Rewriter} {g g' : Graph}

/-- What the runs of a rewriter by an identity come to on a checked graph. -/
structure Runs (I : Interpretation M) (input : String → M) (r : Rewriter) (g : Graph) (xs : List M)
    (turns : Nat) : Prop where
  first : r.session.Grows (r.rewriteFirst turns g).2.session ∧ ∀ w,
    (r.rewriteFirst turns g).1 = some (.ok w) → w.graph.denote I input = some xs
  all : r.session.Grows (r.rewriteAll turns g).2.session ∧ ∀ ws,
    (r.rewriteAll turns g).1 = some (.ok ws) → ∀ w ∈ ws, w.graph.denote I input = some xs
  once : r.session.Grows (r.rewriteOnce turns g).2.session ∧ ∀ w,
    (r.rewriteOnce turns g).1 = some (.ok w) → w.graph.denote I input = some xs

variable (mem : scripted ∈ Script.Rule.identities :: Script.Rule.identityRules)
  (hI : I.Respects (Session.ofConfig config).facts) (h : I.Identities)

include mem hI h

theorem Ready.runs (input : String → M) (ready : Ready (scripted.build []) config r)
    (valid : g.validate = .ok ()) :
    ∃ xs, g.denote I input = some xs ∧ ∀ turns, Runs I input r g xs turns := by
  obtain ⟨-, xs, hxs, -⟩ := Graph.toTerms_bundles I input ready.valid valid
  have kept : r.rule.Keeps (Session.ofConfig config).facts (Graph.Bundles I input xs) := by
    rw [ready.sameRule]
    exact Script.identities_keep hI h mem
  refine ⟨xs, hxs, fun turns => ⟨?_, ?_, ?_⟩⟩
  · exact firstFixpoint_denotes kept ready.facts ready.valid valid hxs
  · exact allFixpoints_denotes kept ready.facts ready.valid valid hxs
  · exact singleStep_denotes kept ready.facts ready.valid valid hxs

theorem Used.ready (used : Used (scripted.build []) config r) :
    Ready (scripted.build []) config r := by
  have input : String → M := fun _ => I.const .scalar []
  induction used with
  | new => exact .new _ _
  | first turns _ valid ih =>
    obtain ⟨xs, -, runs⟩ := ih.runs mem hI h input valid
    exact ih.perform (runs turns).first.1
  | all turns _ valid ih =>
    obtain ⟨xs, -, runs⟩ := ih.runs mem hI h input valid
    exact ih.perform (runs turns).all.1
  | once turns _ valid ih =>
    obtain ⟨xs, -, runs⟩ := ih.runs mem hI h input valid
    exact ih.perform (runs turns).once.1

/-- A graph that a rewriter returns denotes what the graph that it was given denotes. -/
theorem denote_eq_of_returns (input : String → M) (used : Used (scripted.build []) config r)
    (valid : g.validate = .ok ()) (returned : r.Returns g g') :
    ∃ xs, g.denote I input = some xs ∧ g'.denote I input = some xs := by
  obtain ⟨xs, hxs, runs⟩ := (used.ready mem hI h).runs mem hI h input valid
  refine ⟨xs, hxs, ?_⟩
  cases returned with
  | first result => exact (runs _).first.2 _ result
  | all result mem => exact (runs _).all.2 _ result _ mem
  | once result => exact (runs _).once.2 _ result

omit mem hI h

/-! ## A sum with zero -/

/-- The operations on integers; zero is the only constant that is read as zero. -/
def integers : Interpretation ℤ where
  op
    | "add", xs => xs.sum
    | "mul", xs => xs.prod
    | "sub", [x, y] => x - y
    | "div", [x, y] => x / y
    | "neg", [x] => -x
    | "square", [x] => x * x
    | _, _ => 0
  const _ values := if values = [0.0] then 0 else 1

theorem facts_default : (Session.ofConfig .default).facts = ⟨["mul", "add"], ["mul", "add"]⟩ := by
  decide +kernel

theorem integers_respects : integers.Respects (Session.ofConfig .default).facts := by
  rw [facts_default]
  exact Interpretation.respects_arithmetic (fun _ => rfl) fun _ => rfl

theorem integers_identities : integers.Identities := by
  have zero : integers.const .scalar [0.0] = 0 := by decide +kernel
  have one : integers.const .scalar [1.0] = 1 := by decide +kernel
  refine ⟨fun x => ?_, fun x => ?_, fun x => ?_, fun x => ?_, fun x => ?_, fun x => ?_⟩
  · rw [zero]
    show [x, 0].sum = x
    simp
  · rw [one]
    show [x, 1].prod = x
    simp
  · rw [zero]
    exact sub_zero x
  · rw [one]
    exact Int.ediv_one x
  · exact neg_neg x
  · show x * x = [x, x].prod
    simp

/-- The graph of `x + 0`. -/
def neutralSum : Graph where
  nodes := [⟨.placeholder "x", [], (.f64, .scalar)⟩, ⟨.const (.scalar 0.0), [], (.f64, .scalar)⟩,
    ⟨.binary .add, [⟨0⟩, ⟨1⟩], (.f64, .scalar)⟩]
  outputs := [⟨2⟩]

/-- The identities rewrite the sum, and what they return still denotes the value of `x`. -/
theorem exists_returns_neutralSum :
    ∃ g', (Rewriter.new (Script.Rule.identities.build []) .default).Returns neutralSum g' ∧
      ∃ xs, neutralSum.denote integers (fun _ => 0) = some xs ∧
        g'.denote integers (fun _ => 0) = some xs := by
  have found : ((Rewriter.new (Script.Rule.identities.build []) .default).rewriteFirst 200
      neutralSum).1.elim false Except.isOk = true := by decide +kernel
  cases run : ((Rewriter.new (Script.Rule.identities.build []) .default).rewriteFirst 200
      neutralSum).1 with
  | none =>
    rw [run] at found
    cases found
  | some result => cases result with
    | error e =>
      rw [run] at found
      cases found
    | ok w =>
      refine ⟨w.graph, .first run, denote_eq_of_returns (.head _) integers_respects
        integers_identities _ .new (by decide +kernel) (.first run)⟩

end Rewriter

end Regraft
