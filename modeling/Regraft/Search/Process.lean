import Regraft.Search.Step

/-
  Processes that work on a session in small turns, and pulling results out of them. A process may
  work for ever, so pulling takes a number of turns after which it gives up.
-/

namespace Regraft

/-- What one turn of a process with states `σ` and results `α` comes to. -/
inductive Turn (σ α : Type)
  | working (next : σ)
  | yielded (result : α) (next : σ)
  | finished

/-- What pulling at a process comes to. -/
inductive Pulled (σ α : Type)
  | result (result : α) (next : σ)
  /-- There are no more results; `last` is the state in which that showed. -/
  | finished (last : σ)
  | outOfTurns (next : σ)

/-- Take turns until there is a result or no more will come. -/
def pull {σ α : Type} (turn : σ → SessionM (Turn σ α)) : Nat → σ → SessionM (Pulled σ α)
  | 0, p => pure (.outOfTurns p)
  | turns + 1, p => do
    match ← turn p with
    | .working next => pull turn turns next
    | .yielded a next => return .result a next
    | .finished => return .finished p

def Counters.countStep (c : Counters) : Counters := { c with steps := c.steps + 1 }

/-- A search as a process: its turns are its steps, which are counted. -/
def Search.turn (search : Search) : SessionM (Turn Search Subst) := do
  Session.count Counters.countStep
  match ← search.step with
  | .emit s rest => return .yielded s rest
  | .continue rest => return .working rest
  | .exhausted => return .finished

end Regraft
