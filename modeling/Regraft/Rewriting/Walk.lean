import Regraft.Rewriting.Rule
import Regraft.Search.Process

/-
  The terms one step away from a term: every result of a rule at one position, each once, in the
  order in which the search finds them.
-/

namespace Regraft

inductive RewriteError
  /-- The rule matches nowhere, or there is no fixpoint. -/
  | patternNotFound
  /-- All paths were cut by the step limit. -/
  | stepLimitExceeded (limit : Nat)
  /-- One matched term was given two replacements. -/
  | inconsistent (node first second : TermId)
deriving DecidableEq, Repr

namespace RewriteError

def message : RewriteError → String
  | patternNotFound => "no rewrite rule matched"
  | stepLimitExceeded limit => "no fixpoint reached within " ++ limit.repr ++ " rewrite steps"
  | inconsistent node first second =>
    "term " ++ node.index.repr ++ " has conflicting replacements " ++ first.index.repr ++ " and " ++
      second.index.repr

end RewriteError

namespace Subst

/-- Check that no term of the sites was given two different replacements, where `seen` holds the
    sites looked at before. -/
def checkSitesFrom (s : Subst) (seen : List (TermId × TermId)) :
    List Site → SessionM (Except RewriteError Unit)
  | [] => return .ok ()
  | site :: rest => do
    let matched ← Session.reify s site.matched
    let replacement ← Session.reify s site.replacement
    match seen.lookup matched with
    | none => s.checkSitesFrom ((matched, replacement) :: seen) rest
    | some first =>
      if first = replacement then s.checkSitesFrom seen rest
      else return .error (.inconsistent matched first replacement)

/-- Check that no term was given two different replacements. -/
def checkSites (s : Subst) : SessionM (Except RewriteError Unit) := s.checkSitesFrom [] s.sites

end Subst

structure Walk where
  /-- The variable that stands for the result. -/
  output : TermId
  search : Search
  /-- Results found so far. -/
  seen : List TermId

def Counters.countWalkResult (c : Counters) : Counters :=
  { c with walkResults := c.walkResults + 1 }

namespace Walk

/-- Begin the walk over the results of a rule in a term. -/
def start (rule : Rule) (input : TermId) : SessionM Walk := do
  let output ← Session.fresh
  return ⟨output, .apply (.rewriteAnywhere rule input output) .empty, []⟩

/-- An answer of the search as a result. An inconsistent one is reported, and the walk can go on
    behind it; a result that was found before is passed over. -/
def accept (w : Walk) (s : Subst) (rest : Search) :
    SessionM (Turn Walk (Except RewriteError TermId)) := do
  let next := { w with search := rest }
  match ← s.checkSites with
  | .error e => return .yielded (.error e) next
  | .ok () =>
    let result ← Session.reify s w.output
    if w.seen.contains result then return .working next
    else
      Session.count Counters.countWalkResult
      return .yielded (.ok result) { next with seen := result :: w.seen }

/-- One turn of a walk. -/
def turn (w : Walk) : SessionM (Turn Walk (Except RewriteError TermId)) := do
  match ← w.search.turn with
  | .working rest => return .working { w with search := rest }
  | .finished => return .finished
  | .yielded s rest => w.accept s rest

end Walk

/-- The first result of a walk that differs from the term it started from; `none` when the turns do
    not suffice. -/
def Walk.firstChange (input : TermId) : Nat → Walk → SessionM (Option (Except RewriteError TermId))
  | 0, _ => return none
  | turns + 1, w => do
    match ← w.turn with
    | .working next => firstChange input turns next
    | .finished => return some (.error .patternNotFound)
    | .yielded (.error e) _ => return some (.error e)
    | .yielded (.ok t) next =>
      if t = input then firstChange input turns next else return some (.ok t)

/-- Apply a rule once, at the first position where that changes the term. -/
def Rule.applyOnce (rule : Rule) (input : TermId) (turns : Nat) :
    SessionM (Option (Except RewriteError TermId)) := do
  let w ← Walk.start rule input
  w.firstChange input turns

end Regraft
