import Regraft.Decimal.Layout

/-
  Counts of what a session has done, and their report.
-/

namespace Regraft

structure Counters where
  /-- Steps of searches for an answer. -/
  steps : Nat
  unifications : Nat
  unificationFailures : Nat
  disequalityFailures : Nat
  ruleMatches : Nat
  /-- Distinct results of walks. -/
  walkResults : Nat
  fixpointSteps : Nat
  fixpoints : Nat
deriving DecidableEq, Repr

namespace Counters

def zero : Counters := ⟨0, 0, 0, 0, 0, 0, 0, 0⟩

/-- The share of unifications that succeeded, one when there were none. -/
def successRate (c : Counters) : Float :=
  let total := c.unifications + c.unificationFailures
  if total = 0 then 1.0 else Float.ofNat c.unifications / Float.ofNat total

def text (c : Counters) : String :=
  String.join [
    "=== Rewrite Metrics ===\n",
    "Stream steps:       ", c.steps.repr, "\n",
    "Unifications:       ", c.unifications.repr, " (", c.unificationFailures.repr, " failures, ",
    Decimal.fixed 1 (c.successRate * 100.0), "% success)\n",
    "Diseq failures:     ", c.disequalityFailures.repr, "\n",
    "Rule matches:       ", c.ruleMatches.repr, "\n",
    "Walker results:     ", c.walkResults.repr, "\n",
    "Fixpoint:           ", c.fixpointSteps.repr, " steps, ", c.fixpoints.repr, " fixpoints\n"]

end Counters

end Regraft
