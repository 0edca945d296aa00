import Regraft.Search.Basic
import Regraft.Unify.Disequality

/-
  Elementary goals and their combinations.
-/

namespace Regraft

namespace Counters

def countUnification (c : Counters) : Counters := { c with unifications := c.unifications + 1 }

def countUnificationFailure (c : Counters) : Counters :=
  { c with unificationFailures := c.unificationFailures + 1 }

def countDisequalityFailure (c : Counters) : Counters :=
  { c with disequalityFailures := c.disequalityFailures + 1 }

def countRuleMatch (c : Counters) : Counters := { c with ruleMatches := c.ruleMatches + 1 }

end Counters

namespace Search

/-- A unification that is known to fail. -/
def mismatch : SessionM Search := do
  Session.count Counters.countUnificationFailure
  return empty

/-- The search that unifies two terms. -/
def unify (a b : TermId) (s : Subst) : SessionM Search := do
  match s.unify (← get).store a b with
  | none => mismatch
  | some t =>
    Session.count Counters.countUnification
    return unit t

end Search

namespace Goal

/-- Succeeds once and changes nothing. -/
def succeed : Goal := run fun s => (pure (Search.unit s) : SessionM Search)

/-- Has no answer. -/
def fail : Goal := run fun _ => (pure Search.empty : SessionM Search)

/-- Searches for ever without an answer. -/
def never : Goal := series (fun _ => fail) 0

/-- The two terms are equal. -/
def eq (a b : TermId) : Goal := run (Search.unify a b)

/-- The two terms never become equal: no answer if they are, and otherwise every later binding that
    makes them so fails its branch. -/
def neq (a b : TermId) : Goal := run fun s => (do
  match s.requireDistinct (← get).store a b with
  | some t => return Search.unit t
  | none =>
    Session.count Counters.countDisequalityFailure
    return Search.empty : SessionM Search)

/-- A rule has replaced one term by another. -/
def site (matched replacement : TermId) : Goal := run fun s => (do
  Session.count Counters.countRuleMatch
  return Search.unit (s.addSite ⟨matched, replacement⟩) : SessionM Search)

/-- All goals, every answer of one going into the next. -/
def conj : List Goal → Goal
  | [] => succeed
  | [g] => g
  | g :: gs => run fun s => (pure (Search.through g gs s) : SessionM Search)

/-- Any of the goals, taken in turn. -/
def disj : List Goal → Goal
  | [] => fail
  | [g] => g
  | gs => run fun s => (pure (Search.union (gs.map fun g => .apply g s)) : SessionM Search)

/-- The value is one of `x`, `x + 1`, `x + 2` and so on. -/
def countFrom (a : TermId) (x : Float) : Goal :=
  series (fun k => run fun s => (do
    let t ← Session.scalar (k.repeat (· + 1.0) x)
    return Search.apply (eq a t) s : SessionM Search)) 0

end Goal

end Regraft
