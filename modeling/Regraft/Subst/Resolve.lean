import Regraft.Subst.Basic

/-
  Reading terms under a substitution. On an acyclic substitution a path down a term passes every
  application of the store at most once, so the size of the store bounds the depth of all searches.
-/

namespace Regraft

namespace Subst

/-- Follow bindings for at most `hops` steps. -/
def derefWithin (s : Subst) (st : Store) : Nat → TermId → TermId
  | 0, t => t
  | hops + 1, t => match st.var? t with
    | none => t
    | some v => match s.get? v with
      | none => t
      | some u => s.derefWithin st hops u

/-- Follow bindings to an unbound variable or a term that is no variable. A chain of bindings
    without a cycle is never longer than the number of bound variables. -/
def deref (s : Subst) (st : Store) (t : TermId) : TermId := s.derefWithin st (s.size + 1) t

/-- How deep a term can be under an acyclic substitution. -/
def depthBound (st : Store) : Nat := st.size + 1

/-- The first unbound variable from the left, at most `depth` applications down. -/
def firstUnboundWithin (s : Subst) (st : Store) : Nat → TermId → Option UInt32
  | 0, _ => none
  | depth + 1, t => match st.term? (s.deref st t) with
    | some (.var v) => some v
    | some (.app _ args _) => args.findSome? (s.firstUnboundWithin st depth)
    | _ => none

/-- The first unbound variable of a term from the left. -/
def firstUnbound (s : Subst) (st : Store) (t : TermId) : Option UInt32 :=
  s.firstUnboundWithin st (depthBound st) t

/-- The term has no unbound variables. -/
def isGround (s : Subst) (st : Store) (t : TermId) : Bool := (s.firstUnbound st t).isNone

/-- A variable occurs in a term at most `depth` applications down; operands are searched from the
    right. -/
def occursWithin (s : Subst) (st : Store) (v : UInt32) : Nat → TermId → Bool
  | 0, _ => false
  | depth + 1, t => match st.term? (s.deref st t) with
    | some (.var w) => w = v
    | some (.app _ args _) => args.reverse.any (s.occursWithin st v depth)
    | _ => false

/-- A variable occurs in a term. -/
def occurs (s : Subst) (st : Store) (v : UInt32) (t : TermId) : Bool :=
  s.occursWithin st v (depthBound st) t

/-- Operands one after the other, each by `read`. -/
def mapOperands (read : TermId → Store → TermId × Store) :
    List TermId → Store → List TermId × Store
  | [], st => ([], st)
  | t :: rest, st =>
    let (u, st) := read t st
    let (us, st) := mapOperands read rest st
    (u :: us, st)

/-- Replace bound variables at most `depth` applications down. -/
def reifyWithin (s : Subst) : Nat → TermId → Store → TermId × Store
  | 0, t, st => (t, st)
  | depth + 1, t, st =>
    let u := s.deref st t
    match st.app? u with
    | none => (u, st)
    | some (op, args, attrs) =>
      let (args', st) := mapOperands (s.reifyWithin depth) args st
      if args' = args then (u, st) else st.app op args' attrs

/-- Replace every bound variable of a term by its value, down to the leaves. Unbound variables stay,
    and a term without bound variables is its own result. -/
def reify (s : Subst) (t : TermId) (st : Store) : TermId × Store :=
  s.reifyWithin (depthBound st) t st

end Subst

end Regraft
