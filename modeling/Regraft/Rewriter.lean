import Regraft.Graph.Rebuild
import Regraft.Rewriting.Fixpoint

/-
  Rewriting graphs by a rule: a graph becomes a term, the term is reduced, and the result becomes a
  graph again. A rewriter keeps its session from one graph to the next.
-/

namespace Regraft

/-- A rewritten graph and how it was obtained. -/
structure Rewritten where
  graph : Graph
  /-- Steps from the input to this graph. -/
  steps : Nat
  /-- Operations taken over from the input. -/
  reused : Nat
  /-- Operations that are new. -/
  created : Nat
deriving DecidableEq, Repr

inductive RewriterError
  /-- There is no result. -/
  | reduction (e : RewriteError)
  /-- The rewritten term is no graph. -/
  | rebuild (e : RebuildError)
deriving DecidableEq, Repr

namespace RewriterError

def message : RewriterError → String
  | reduction e => e.message
  | rebuild e => "adapter error: " ++ e.message

end RewriterError

structure Rewriter where
  rule : Rule
  config : Config
  session : Session

namespace Rewriter

/-- A rewriter with a session of its own. -/
def new (rule : Rule) (config : Config) : Rewriter := ⟨rule, config, .ofConfig config⟩

/-- The result of a rewriting run; `none` when the turns did not suffice. -/
abbrev Result (α : Type) := Option (Except RewriterError α)

/-- The graph of a term that the base graph was reduced to. -/
def graphOf (base : Graph) (r : Reduction) : SessionM (Except RewriterError Rewritten) := do
  match ← Graph.ofTerm r.term base with
  | .error e => return .error (.rebuild e)
  | .ok b => return .ok ⟨b.graph, r.steps, b.reused, b.created⟩

/-- The graphs of terms, up to the first that has none. -/
def graphsOf (base : Graph) :
    List Reduction → SessionM (Except RewriterError (List Rewritten))
  | [] => return .ok []
  | r :: rest => do
    match ← graphOf base r with
    | .error e => return .error e
    | .ok g => match ← graphsOf base rest with
      | .error e => return .error e
      | .ok gs => return .ok (g :: gs)

/-- The first fixpoint. -/
def firstFixpoint (rule : Rule) (config : Config) (turns : Nat) (g : Graph) :
    SessionM (Result Rewritten) := do
  let source ← g.toTerms
  let run ← Fixpoint.start rule config.stepLimit source.root
  match ← run.once turns with
  | none => return none
  | some (.error e) => return some (.error (.reduction e))
  | some (.ok r) => return some (← graphOf g r)

/-- All distinct fixpoints, as many as the configuration asks for. -/
def allFixpoints (rule : Rule) (config : Config) (turns : Nat) (g : Graph) :
    SessionM (Result (List Rewritten)) := do
  let source ← g.toTerms
  let run ← Fixpoint.start rule config.stepLimit source.root
  match ← run.all config.maxResults turns with
  | none => return none
  | some (.error e) => return some (.error (.reduction e))
  | some (.ok rs) => return some (← graphsOf g rs)

/-- The result of a single step. -/
def singleStep (rule : Rule) (turns : Nat) (g : Graph) : SessionM (Result Rewritten) := do
  let source ← g.toTerms
  match ← rule.applyOnce source.root turns with
  | none => return none
  | some (.error e) => return some (.error (.reduction e))
  | some (.ok t) => return some (← graphOf g ⟨t, 1⟩)

/-- Perform an action on the session of a rewriter. -/
def perform {α : Type} (r : Rewriter) (act : SessionM α) : α × Rewriter :=
  let (a, session) := act r.session
  (a, { r with session })

def rewriteFirst (r : Rewriter) (turns : Nat) (g : Graph) : Result Rewritten × Rewriter :=
  r.perform (firstFixpoint r.rule r.config turns g)

def rewriteAll (r : Rewriter) (turns : Nat) (g : Graph) : Result (List Rewritten) × Rewriter :=
  r.perform (allFixpoints r.rule r.config turns g)

def rewriteOnce (r : Rewriter) (turns : Nat) (g : Graph) : Result Rewritten × Rewriter :=
  r.perform (singleStep r.rule turns g)

end Rewriter

end Regraft
