import Regraft.Search.Goal

/-
  Rewriting at one position of a term. The root is tried, and beside it every operand; a subterm is
  only looked at when the search gets that far. Positions are paths: an operand that occurs twice is
  rewritten at one occurrence and stays as it was at the other.
-/

namespace Regraft

namespace Search

/-- What a rule relates. -/
abbrev Relation := TermId → TermId → Session → Goal × Session

/-- Apply a relation to the term itself. -/
def atRoot (relate : Relation) (input output : TermId) (s : Subst) : SessionM Search := fun ses =>
  let (goal, ses) := relate input output ses
  (through goal [.site input output] s, ses)

/-- Apply a relation somewhere in one operand, and build the application anew around its result. -/
def inOperand (relate : Relation) (op : String) (args : List TermId) (attrs : Attrs)
    (output : TermId) (i : Nat) (operand : TermId) (s : Subst) : SessionM Search := do
  let result ← Session.fresh
  let rebuilt ← Session.onStore (Store.app op (args.set i result) attrs)
  return through (.anywhere relate operand result) [.eq output rebuilt] s

/-- A branch for every operand of a term. -/
def belowRoot (relate : Relation) (input output : TermId) (s : Subst) :
    SessionM Search := fun ses =>
  match ses.store.app? (s.deref ses.store input) with
  | none => (empty, ses)
  | some (op, args, attrs) =>
    (union (args.zipIdx.map fun (operand, i) =>
      suspend (inOperand relate op args attrs output i operand s)), ses)

/-- The search for the ways to apply a relation at one position. An unbound variable is a place
    that a rule left open, and has no positions. -/
def anywhere (relate : Relation) (input output : TermId) (s : Subst) : SessionM Search := fun ses =>
  if (ses.store.var? (s.deref ses.store input)).isSome then (empty, ses)
  else
    let here := suspend (atRoot relate input output s)
    (plus here (suspend (belowRoot relate input output s)), ses)

end Search

end Regraft
