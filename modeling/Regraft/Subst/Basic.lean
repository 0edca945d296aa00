import Regraft.Term.Store
import Std.Data.TreeMap

/-
  Substitutions: what variables stand for, the disequalities that wait to be decided, and the sites
  where rules have fired so far.
-/

namespace Regraft

/-- Two terms that must not become equal. -/
structure Disequality where
  lhs : TermId
  rhs : TermId
deriving DecidableEq, Repr

/-- A place where a rule fired: the matched term and what replaces it. -/
structure Site where
  matched : TermId
  replacement : TermId
deriving DecidableEq, Repr

structure Subst where
  bindings : Std.TreeMap UInt32 TermId
  /-- Oldest first. -/
  constraints : List Disequality
  /-- Oldest first. -/
  sites : List Site
deriving Repr

namespace Subst

def empty : Subst := ⟨∅, [], []⟩

/-- What a variable is bound to. -/
def get? (s : Subst) (v : UInt32) : Option TermId := s.bindings[v]?

def isBound (s : Subst) (v : UInt32) : Bool := (s.get? v).isSome

/-- The number of bound variables. -/
def size (s : Subst) : Nat := s.bindings.size

/-- The bindings by ascending variable. -/
def toList (s : Subst) : List (UInt32 × TermId) := s.bindings.toList

/-- Bind a variable, in place of an earlier binding of it. -/
def bind (s : Subst) (v : UInt32) (t : TermId) : Subst :=
  { s with bindings := s.bindings.insert v t }

theorem get?_empty (v : UInt32) : empty.get? v = none := by
  simp [get?, empty]

theorem get?_bind (s : Subst) (v w : UInt32) (t : TermId) :
    (s.bind v t).get? w = if v = w then some t else s.get? w := by
  simp [get?, bind, Std.TreeMap.getElem?_insert]

/-- Carry a disequality, once. -/
def addConstraint (s : Subst) (d : Disequality) : Subst :=
  if s.constraints.contains d then s else { s with constraints := s.constraints ++ [d] }

def addSite (s : Subst) (site : Site) : Subst := { s with sites := s.sites ++ [site] }

end Subst

end Regraft
