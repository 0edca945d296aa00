import Regraft.Proofs.Meaning.Rewriter
import Regraft.Proofs.Renaming.Fixpoint
import Regraft.Proofs.Renaming.Graph

/-
  A rewriter has no memory (`Rewriter.forgets`). Whatever it was used for, what it makes of a graph is
  what a new one makes of it, node for node, as long as there are variables left: the terms that
  earlier calls have stored do not matter, and neither does how far their variables are counted.
-/

namespace Regraft

variable {α β γ δ : Type} {ses : Session} {ts : List TermId}

/-! ## Growth -/

namespace Graph

theorem nodeTerms_grows (nodes : List Node) (stored : ∀ t ∈ ts, ses.store.Stored t) :
    ses.Grows (nodeTerms ts nodes ses).2 ∧
      ∀ t ∈ (nodeTerms ts nodes ses).1, (nodeTerms ts nodes ses).2.store.Stored t := by
  induction nodes generalizing ts ses with
  | nil => exact ⟨.refl ses, stored⟩
  | cons node rest ih =>
    obtain ⟨g, term⟩ := nodeTerm_spec node stored
    have stored' : ∀ t ∈ ts ++ [(nodeTerm ts node ses).1], (nodeTerm ts node ses).2.store.Stored t :=
      List.forall_mem_append.mpr ⟨fun t mem => g.store.stored (stored t mem),
        List.forall_mem_singleton.mpr (Store.stored_of_term? term)⟩
    obtain ⟨g', all⟩ := ih stored'
    exact ⟨g.trans g', all⟩

theorem toTerms_grows (g : Graph) (ses : Session) :
    ses.Grows (g.toTerms ses).2 ∧ (g.toTerms ses).2.store.Stored (g.toTerms ses).1.root := by
  have made : ses.Grows (nodeTerms [] g.nodes ses).2 ∧ _ := nodeTerms_grows g.nodes nofun
  obtain ⟨grows, stored⟩ := made
  have operands : ∀ t ∈ termsAt (nodeTerms [] g.nodes ses).1 g.outputs,
      (nodeTerms [] g.nodes ses).2.store.Stored t := fun t mem => stored t (mem_of_mem_termsAt mem)
  exact ⟨grows.trans (Renaming.tagged_grows outputsTag .unspecified operands),
    Store.stored_of_term? (Store.term?_app ..)⟩

theorem ofTerm_grows' (root : TermId) (base : Graph) (ses : Session) :
    ses.Grows (ofTerm root base ses).2 := by
  rw [ofTerm_apply]
  split
  · exact .refl ses
  · split
    · exact .refl ses
    · exact (toTerms_grows base ses).1

end Graph

namespace Rewriter

theorem graphOf_grows (base : Graph) (r : Reduction) (ses : Session) :
    ses.Grows (graphOf base r ses).2 := by
  have g := Graph.ofTerm_grows' r.term base ses
  rw [graphOf_apply]
  generalize Graph.ofTerm r.term base ses = result at g ⊢
  obtain ⟨b, ses'⟩ := result
  cases b <;> exact g

theorem graphsOf_grows (base : Graph) (rs : List Reduction) (ses : Session) :
    ses.Grows (graphsOf base rs ses).2 := by
  induction rs generalizing ses with
  | nil => exact .refl ses
  | cons r rest ih =>
    have g := graphOf_grows base r ses
    rw [graphsOf_cons]
    generalize graphOf base r ses = first at g ⊢
    obtain ⟨w, ses'⟩ := first
    cases w with
    | error e => exact g
    | ok w =>
      have g' := g.trans (ih ses')
      dsimp only
      generalize graphsOf base rest ses' = later at g' ⊢
      obtain ⟨ws, ses''⟩ := later
      cases ws <;> exact g'

theorem settle_grows {run : SessionM (Option (Except RewriteError α))}
    {finish : α → SessionM (Except RewriterError β)} (ran : ses.Grows (run ses).2)
    (finished : ∀ a (ses : Session), ses.Grows (finish a ses).2) : ses.Grows (settle run finish ses).2 := by
  rw [settle_apply]
  generalize run ses = outcome at ran ⊢
  obtain ⟨outcome, ses'⟩ := outcome
  cases outcome with
  | none => exact ran
  | some outcome => cases outcome with
    | error e => exact ran
    | ok a => exact ran.trans (finished a ses')

/-! ## The same result -/

/-- The same error, but for the numbers of terms and variables. -/
inductive SameError : RewriterError → RewriterError → Prop
  | same (e : RewriterError) : SameError e e
  | inconsistent (node first second node' first' second' : TermId) :
      SameError (.reduction (.inconsistent node first second))
        (.reduction (.inconsistent node' first' second'))
  | unresolvedVariable (v w : UInt32) :
      SameError (.rebuild (.unresolvedVariable v)) (.rebuild (.unresolvedVariable w))

/-- The same graphs, or the same error. -/
inductive SameOutcome : Except RewriterError α → Except RewriterError α → Prop
  | ok (a : α) : SameOutcome (.ok a) (.ok a)
  | error {e e' : RewriterError} (h : SameError e e') : SameOutcome (.error e) (.error e')

end Rewriter

namespace Renaming

open Rewriter (SameError SameOutcome graphOf graphsOf settle)

variable {ρ : Renaming} {p q : Sides} {r r' : Reduction} {rs rs' : List Reduction}

theorem graphOf_steady (base : Graph) (h : ρ.Reductions p r r') :
    ρ.Steady p (fun _ => SameOutcome) (graphOf base r) (graphOf base r') := by
  intro agree
  have rebuilt := ofTerm_steady h.1 base agree
  rw [Rewriter.graphOf_apply, Rewriter.graphOf_apply, h.2]
  generalize Graph.ofTerm r.term base p.left = x at rebuilt ⊢
  generalize Graph.ofTerm r'.term base p.right = x' at rebuilt ⊢
  obtain ⟨x, c⟩ := x
  obtain ⟨x', d⟩ := x'
  obtain ⟨agree', g, result⟩ := rebuilt
  cases result with
  | ok eq =>
    subst eq
    exact ⟨agree', g, .ok _⟩
  | error fault =>
    refine ⟨agree', g, .error ?_⟩
    cases fault with
    | unresolvedVariable v w => exact .unresolvedVariable v w
    | same e => exact .same _

theorem graphsOf_steady (base : Graph) (h : List.Forall₂ (ρ.Reductions p) rs rs') :
    ρ.Steady p (fun _ => SameOutcome) (graphsOf base rs) (graphsOf base rs') := by
  induction rs generalizing p rs' with
  | nil =>
    cases h
    exact .pure (.ok [])
  | cons r rest ih =>
    cases h with | @cons _ r' _ rest' first others => ?_
    intro agree
    have here := graphOf_steady base first agree
    rw [Rewriter.graphsOf_cons, Rewriter.graphsOf_cons]
    generalize graphOf base r p.left = x at here ⊢
    generalize graphOf base r' p.right = x' at here ⊢
    obtain ⟨x, c⟩ := x
    obtain ⟨x', d⟩ := x'
    obtain ⟨agree₁, g₁, same⟩ := here
    cases same with
    | error e => exact ⟨agree₁, g₁, .error e⟩
    | ok w =>
      dsimp only
      have later := ih (reductions_grow others g₁) agree₁
      dsimp only at later
      generalize graphsOf base rest c = y at later ⊢
      generalize graphsOf base rest' d = y' at later ⊢
      obtain ⟨y, c'⟩ := y
      obtain ⟨y', d'⟩ := y'
      obtain ⟨agree₂, g₂, same⟩ := later
      cases same with
      | error e => exact ⟨agree₂, g₁.trans g₂, .error e⟩
      | ok ws => exact ⟨agree₂, g₁.trans g₂, .ok _⟩

theorem SameError.reduction {e e' : RewriteError} (h : ρ.SameError p e e') :
    Rewriter.SameError (.reduction e) (.reduction e') := by
  cases h with
  | inconsistent => exact .inconsistent ..
  | _ => exact .same _

/-- Runs that go alike are finished alike. -/
theorem settle_acts {R : Sides → α → β → Prop}
    {run : SessionM (Option (Except RewriteError α))} {run' : SessionM (Option (Except RewriteError β))}
    {finish : α → SessionM (Except RewriterError γ)} {finish' : β → SessionM (Except RewriterError γ)}
    (ran : ρ.Acts p (fun q => Option.Rel (ρ.SameResult R q)) run run')
    (grows : ∀ b (ses : Session), ses.Grows (finish' b ses).2)
    (finished : ∀ q a b, R q a b → ρ.Steady q (fun _ => SameOutcome) (finish a) (finish' b)) :
    ρ.Acts p (fun _ => Option.Rel SameOutcome) (settle run finish) (settle run' finish') := by
  intro agree room
  rw [Rewriter.settle_apply] at room
  rw [Rewriter.settle_apply, Rewriter.settle_apply]
  replace ran := ran agree
  generalize run p.left = x at ran ⊢
  generalize run' p.right = x' at ran room ⊢
  obtain ⟨x, c⟩ := x
  obtain ⟨x', d⟩ := x'
  have before : d.store.Roomy := by
    cases x' with
    | none => exact room
    | some outcome => cases outcome with
      | error e => exact room
      | ok b => exact room.of_grows (grows b d).store
  obtain ⟨agree₁, g, same⟩ := ran before
  cases same with
  | none => exact ⟨agree₁, g, .none⟩
  | some same => cases same with
    | error e => exact ⟨agree₁, g, .some (.error e.reduction)⟩
    | ok same =>
      obtain ⟨agree₂, g', outcome⟩ := finished _ _ _ same agree₁
      exact ⟨agree₂, g.trans g', .some outcome⟩

variable {rule rule' : Rule}

theorem singleStep_acts (h : ρ.Rules p rule rule') (turns : Nat) (base : Graph) :
    ρ.Acts p (fun _ => Option.Rel SameOutcome) (Rewriter.singleStep rule turns base)
      (Rewriter.singleStep rule' turns base) := by
  intro agree room
  obtain ⟨agree₁, g, twins⟩ := toTerms_steady base agree
  rw [Rewriter.singleStep_eq] at room
  rw [Rewriter.singleStep_eq, Rewriter.singleStep_eq]
  have ran := applyOnce_acts (h.grow g) twins.root turns
  have finished : ∀ q t t', ρ.Same q t t' → ρ.Steady q (fun _ => SameOutcome) (graphOf base ⟨t, 1⟩)
      (graphOf base ⟨t', 1⟩) := fun q t t' same => graphOf_steady base ⟨same, rfl⟩
  have settled := settle_acts ran (fun t ses => Rewriter.graphOf_grows base ⟨t, 1⟩ ses) finished
  exact (settled agree₁ room).after g

theorem startAt_acts (h : ρ.Rules p rule rule') (config : Config) (base : Graph) :
    ρ.Acts p ρ.Fixpoints (Rewriter.startAt rule config base) (Rewriter.startAt rule' config base) :=
  (toTerms_steady base).bind fun _ _ _ g twins => fixpoint_start (h.grow g) twins.root config.stepLimit

theorem startAt_growing {ses : Session} (builds : rule.Builds Tree.anyLabel ses) (hv : ses.store.Valid)
    (config : Config) (base : Graph) :
    (Rewriter.startAt rule config base ses).1.Growing (Rewriter.startAt rule config base ses).2 := by
  obtain ⟨g, stored⟩ := Graph.toTerms_grows base ses
  exact Fixpoint.start_growing (builds.grows g) (g.store.valid hv) stored config.stepLimit

theorem firstFixpoint_acts (h : ρ.Rules p rule rule') (config : Config) (turns : Nat) (base : Graph) :
    ρ.Acts p (fun _ => Option.Rel SameOutcome) (Rewriter.firstFixpoint rule config turns base)
      (Rewriter.firstFixpoint rule' config turns base) := by
  intro agree room
  have growing := startAt_growing h.builds agree.stores.right config base
  rw [Rewriter.firstFixpoint_eq] at room
  rw [Rewriter.firstFixpoint_eq, Rewriter.firstFixpoint_eq]
  have before := room.of_grows (Rewriter.settle_grows (Fixpoint.once_grows turns growing).1
    fun r ses => Rewriter.graphOf_grows base r ses).store
  obtain ⟨agree₁, g, same⟩ := startAt_acts h config base agree before
  exact (settle_acts (once_acts turns same growing) (fun r ses => Rewriter.graphOf_grows base r ses)
    (fun q r r' same => graphOf_steady base same) agree₁ room).after g

theorem allFixpoints_acts (h : ρ.Rules p rule rule') (config : Config) (turns : Nat) (base : Graph) :
    ρ.Acts p (fun _ => Option.Rel SameOutcome) (Rewriter.allFixpoints rule config turns base)
      (Rewriter.allFixpoints rule' config turns base) := by
  intro agree room
  have growing := startAt_growing h.builds agree.stores.right config base
  rw [Rewriter.allFixpoints_eq] at room
  rw [Rewriter.allFixpoints_eq, Rewriter.allFixpoints_eq]
  have before := room.of_grows (Rewriter.settle_grows
    (Fixpoint.collect_grows growing (List.forall_mem_nil _)).1
    fun rs ses => Rewriter.graphsOf_grows base rs ses).store
  obtain ⟨agree₁, g, same⟩ := startAt_acts h config base agree before
  exact (settle_acts (collect_acts config.maxResults turns same growing .nil)
    (fun rs ses => Rewriter.graphsOf_grows base rs ses)
    (fun q rs rs' same => graphsOf_steady base same) agree₁ room).after g

end Renaming

namespace Rewriter

variable {rule : Rule} {scripted : Script.Rule} {config : Config} {r r' : Rewriter}

/-! ## Calls -/

theorem startAt_grows (rule : Rule) (config : Config) (base : Graph) (ses : Session) :
    ses.Grows (startAt rule config base ses).2 :=
  (Graph.toTerms_grows base ses).1.trans (Session.fresh_grows _)

section

variable (builds : rule.Builds Tree.anyLabel ses) (hv : ses.store.Valid) (turns : Nat) (base : Graph)

include builds hv

theorem singleStep_grows : ses.Grows (singleStep rule turns base ses).2 := by
  obtain ⟨g, stored⟩ := Graph.toTerms_grows base ses
  rw [singleStep_eq]
  exact g.trans (settle_grows (rule.applyOnce_grows (builds.grows g) (g.store.valid hv) stored turns).1
    fun t ses => graphOf_grows base ⟨t, 1⟩ ses)

theorem firstFixpoint_grows (config : Config) :
    ses.Grows (firstFixpoint rule config turns base ses).2 := by
  have growing := Renaming.startAt_growing builds hv config base
  rw [firstFixpoint_eq]
  exact (startAt_grows rule config base ses).trans (settle_grows
    (Fixpoint.once_grows turns growing).1 fun r ses => graphOf_grows base r ses)

theorem allFixpoints_grows (config : Config) :
    ses.Grows (allFixpoints rule config turns base ses).2 := by
  have growing := Renaming.startAt_growing builds hv config base
  rw [allFixpoints_eq]
  exact (startAt_grows rule config base ses).trans (settle_grows
    (Fixpoint.collect_grows growing (List.forall_mem_nil _)).1 fun rs ses => graphsOf_grows base rs ses)

end

/-- What one call on some graph makes of a rewriter. -/
inductive Call : Rewriter → Rewriter → Prop
  | first (r : Rewriter) (turns : Nat) (g : Graph) : Call r (r.rewriteFirst turns g).2
  | all (r : Rewriter) (turns : Nat) (g : Graph) : Call r (r.rewriteAll turns g).2
  | once (r : Rewriter) (turns : Nat) (g : Graph) : Call r (r.rewriteOnce turns g).2

theorem Ready.call (h : Ready (scripted.build []) config r) (call : Call r r') :
    Ready (scripted.build []) config r' := by
  have builds : r.rule.Builds Tree.anyLabel r.session :=
    h.sameRule ▸ Script.Rule.build_builds scripted nofun
  cases call with
  | first turns g => exact h.perform (firstFixpoint_grows builds h.valid turns g r.config)
  | all turns g => exact h.perform (allFixpoints_grows builds h.valid turns g r.config)
  | once turns g => exact h.perform (singleStep_grows builds h.valid turns g)

theorem ready_of_calls (calls : Relation.ReflTransGen Call (.new (scripted.build []) config) r) :
    Ready (scripted.build []) config r := by
  induction calls with
  | refl => exact .new _ _
  | tail _ call ih => exact ih.call call

/-- What a new rewriter and another one share: nothing but the facts. -/
def sides (config : Config) (r : Rewriter) : Sides := ⟨.ofConfig config, r.session⟩

/-- The variables of a new rewriter are those of another one, counted from where that one is. -/
def onward (r : Rewriter) : Renaming := ⟨⟨0, fun _ => none⟩, r.session.store.nextVar.toNat⟩

theorem Ready.agree (h : Ready rule config r) : (onward r).Agree (sides config r) := by
  have start : (sides config r).left.store = .empty := store_ofConfig config
  refine ⟨h.facts, ?_, h.valid, ?_, Nat.zero_le _, ?_, nofun⟩
  · exact start ▸ Store.valid_empty
  · rw [start]
    rintro v ⟨t, ht⟩
    simp [Store.term?, Store.empty, Numbering.get?, Numbering.empty] at ht
  · rw [start]
    exact (Nat.zero_add _).symm

/-- The same graphs with the same counts or the same error, or no result within the turns on either
    side. -/
abbrev SameResult : Result α → Result α → Prop := Option.Rel SameOutcome

/-- A rewriter makes of a graph what a new one makes of it, whatever calls it has had on whatever
    graphs, if its rule makes its variables anew and the last variable is not in use in the end. -/
theorem forgets (anew : scripted.within ⟨0, fun _ => none⟩ [] = true)
    (calls : Relation.ReflTransGen Call (.new (scripted.build []) config) r) (turns : Nat) (g : Graph) :
    let new := Rewriter.new (scripted.build []) config
    ((r.rewriteFirst turns g).2.session.store.Roomy →
      SameResult (new.rewriteFirst turns g).1 (r.rewriteFirst turns g).1) ∧
    ((r.rewriteOnce turns g).2.session.store.Roomy →
      SameResult (new.rewriteOnce turns g).1 (r.rewriteOnce turns g).1) ∧
    ((r.rewriteAll turns g).2.session.store.Roomy →
      SameResult (new.rewriteAll turns g).1 (r.rewriteAll turns g).1) := by
  have ready := ready_of_calls calls
  have agree := ready.agree
  have same : (onward r).Rules (sides config r) (scripted.build []) (scripted.build []) :=
    Renaming.rule_rules scripted anew .nil
  obtain ⟨rule, config', session⟩ := r
  obtain rfl : rule = scripted.build [] := ready.sameRule
  obtain rfl : config' = config := ready.sameConfig
  exact ⟨fun room => (Renaming.firstFixpoint_acts same config' turns g agree room).result,
    fun room => (Renaming.singleStep_acts same turns g agree room).result,
    fun room => (Renaming.allFixpoints_acts same config' turns g agree room).result⟩

/-- The graph of `-(-x)`. -/
def negatedTwice : Graph where
  nodes := [⟨.placeholder "x", [], (.f64, .scalar)⟩, ⟨.unary .neg, [⟨0⟩], (.f64, .scalar)⟩,
    ⟨.unary .neg, [⟨1⟩], (.f64, .scalar)⟩]
  outputs := [⟨2⟩]

/-- A rewriter that cancels negations and has taken a single step. -/
def usedOnce : Rewriter :=
  ((Rewriter.new (Script.Rule.negNeg.build []) .default).rewriteOnce 30 negatedTwice).2

/-- After a single step the two negations are cancelled as a new rewriter cancels them. -/
theorem forgets_negatedTwice :
    (usedOnce.rewriteFirst 44 negatedTwice).1.elim false Except.isOk = true ∧
      SameResult ((Rewriter.new (Script.Rule.negNeg.build []) .default).rewriteFirst 44 negatedTwice).1
        (usedOnce.rewriteFirst 44 negatedTwice).1 := by
  have calls : Relation.ReflTransGen Call (.new (Script.Rule.negNeg.build []) .default) usedOnce :=
    .single (.once _ 30 negatedTwice)
  have room : (usedOnce.rewriteFirst 44 negatedTwice).2.session.store.Roomy := by decide +kernel
  obtain ⟨first, -, -⟩ := forgets (by decide +kernel) calls 44 negatedTwice
  exact ⟨by decide +kernel, first room⟩

end Rewriter

end Regraft
