import Regraft.Rewriting.Walk

/-
  Rewriting until nothing changes, depth first. A term is a fixpoint when no single step leads to
  another term. A term that has been explored is not explored again, which cuts cycles of steps
  and keeps paths that meet from being followed twice.
-/

namespace Regraft

/-- A fixpoint, and how many steps led to it. -/
structure Reduction where
  term : TermId
  steps : Nat
deriving DecidableEq, Repr

/-- A term on the current path, and the walk over the terms one step away. -/
structure Frame where
  term : TermId
  depth : Nat
  successors : Walk
  /-- The term can be rewritten to another one. -/
  moved : Bool

structure Fixpoint where
  rule : Rule
  /-- The current path, its last term first. -/
  path : List Frame
  expanded : List TermId
  yielded : List TermId
  stepLimit : Option Nat
  /-- Some path was cut by the step limit. -/
  limitHit : Bool

namespace Counters

def countFixpointStep (c : Counters) : Counters := { c with fixpointSteps := c.fixpointSteps + 1 }

def countFixpoint (c : Counters) : Counters := { c with fixpoints := c.fixpoints + 1 }

end Counters

namespace Fixpoint

def start (rule : Rule) (stepLimit : Option Nat) (term : TermId) : SessionM Fixpoint := do
  let successors ← Walk.start rule term
  return ⟨rule, [⟨term, 0, successors, false⟩], [term], [], stepLimit, false⟩

/-- What one turn of the run over fixpoints comes to. -/
abbrev FixpointTurn := Turn Fixpoint (Except RewriteError Reduction)

/-- The path is longer than the step limit allows. -/
def tooDeep (f : Fixpoint) (depth : Nat) : Bool :=
  match f.stepLimit with
  | none => false
  | some limit => limit < depth

/-- Go on from a frame to a term that it was rewritten to. -/
def enter (f : Fixpoint) (frame : Frame) (above : List Frame) (next : TermId) :
    SessionM FixpointTurn := do
  if next = frame.term then return .working { f with path := frame :: above }
  else
    let path := { frame with moved := true } :: above
    let depth := frame.depth + 1
    if f.tooDeep depth then return .working { f with path, limitHit := true }
    else if f.expanded.contains next then return .working { f with path }
    else
      Session.count Counters.countFixpointStep
      let successors ← Walk.start f.rule next
      return .working { f with
        path := ⟨next, depth, successors, false⟩ :: path
        expanded := next :: f.expanded }

/-- Leave a frame whose walk has ended. -/
def leave (f : Fixpoint) (frame : Frame) (above : List Frame) : SessionM FixpointTurn := do
  let next := { f with path := above }
  if frame.moved || f.yielded.contains frame.term then return .working next
  else
    Session.count Counters.countFixpoint
    return .yielded (.ok ⟨frame.term, frame.depth⟩) { next with yielded := frame.term :: f.yielded }

/-- One turn: the walk of the last term on the path takes one. -/
def turn (f : Fixpoint) : SessionM FixpointTurn := do
  match f.path with
  | [] => return .finished
  | frame :: above =>
    match ← frame.successors.turn with
    | .working w => return .working { f with path := { frame with successors := w } :: above }
    | .yielded (.error e) w =>
      return .yielded (.error e) { f with path := { frame with successors := w } :: above }
    | .yielded (.ok next) w => f.enter { frame with successors := w } above next
    | .finished => f.leave frame above

/-- The error when there are no more fixpoints and none was found. -/
def exhausted (f : Fixpoint) : RewriteError :=
  match f.limitHit, f.stepLimit with
  | true, some limit => .stepLimitExceeded limit
  | _, _ => .patternNotFound

/-- The first fixpoint; `none` when the turns do not suffice. -/
def once : Nat → Fixpoint → SessionM (Option (Except RewriteError Reduction))
  | 0, _ => return none
  | turns + 1, f => do
    match ← f.turn with
    | .working next => once turns next
    | .yielded r _ => return some r
    | .finished => return some (.error f.exhausted)

/-- The list of fixpoints, or an error when all paths were cut. -/
def conclude (f : Fixpoint) (found : List Reduction) : Except RewriteError (List Reduction) :=
  if found.isEmpty && f.limitHit then .error (.stepLimitExceeded (f.stepLimit.getD 0))
  else .ok found

/-- At most `max` fixpoints behind those found already; `none` when the turns do not suffice. -/
def collect (max : Option Nat) :
    Nat → Fixpoint → List Reduction → SessionM (Option (Except RewriteError (List Reduction)))
  | 0, _, _ => return none
  | turns + 1, f, found => do
    if max.any (· ≤ found.length) then return some (.ok found)
    else match ← f.turn with
      | .working next => collect max turns next found
      | .yielded (.error e) _ => return some (.error e)
      | .yielded (.ok r) next => collect max turns next (found ++ [r])
      | .finished => return some (f.conclude found)

/-- All distinct fixpoints, at most `max` of them. -/
def all (max : Option Nat) (turns : Nat) (f : Fixpoint) :
    SessionM (Option (Except RewriteError (List Reduction))) :=
  collect max turns f []

end Fixpoint

end Regraft
