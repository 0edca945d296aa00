import Regraft.Unify.Basic

/-
  Disequalities. One whose sides can no longer become equal is dropped, one whose sides could still
  become equal is carried along, and a branch on which the sides are equal fails.
-/

namespace Regraft

inductive Verdict
  /-- The sides can never become equal. -/
  | satisfied
  /-- The sides are equal. -/
  | violated
  /-- The sides would become equal under further bindings. -/
  | pending
deriving DecidableEq, Repr

namespace Disequality

/-- Decide a disequality by trying to unify its sides. -/
def check (d : Disequality) (s : Subst) (st : Store) : Verdict :=
  match s.unifyBindings st d.lhs d.rhs with
  | none => .satisfied
  | some t => if t.size = s.size then .violated else .pending

end Disequality

namespace Subst

/-- Require that two terms do not become equal; `none` when they are. -/
def requireDistinct (s : Subst) (st : Store) (a b : TermId) : Option Subst :=
  match (Disequality.mk a b).check s st with
  | .satisfied => some s
  | .violated => none
  | .pending => some (s.addConstraint ⟨a, b⟩)

/-- The disequalities of a list that are still open; `none` when one is violated. -/
def openConstraints (s : Subst) (st : Store) : List Disequality → Option (List Disequality)
  | [] => some []
  | d :: rest => match d.check s st with
    | .satisfied => s.openConstraints st rest
    | .violated => none
    | .pending => (s.openConstraints st rest).map (d :: ·)

/-- Look at all disequalities again after new bindings. -/
def revalidate (s : Subst) (st : Store) : Option Subst :=
  (s.openConstraints st s.constraints).map fun ds => { s with constraints := ds }

/-- Make two terms equal; `none` when that is impossible or violates a disequality. -/
def unify (s : Subst) (st : Store) (a b : TermId) : Option Subst :=
  match s.unifyBindings st a b with
  | none => none
  | some t => if t.size = s.size then some t else t.revalidate st

/-- Unify two lists of terms place by place. -/
def unifyAll (s : Subst) (st : Store) (xs ys : List TermId) : Option Subst :=
  if xs.length = ys.length then unifyPairs (fun a b s => s.unify st a b) (xs.zip ys) s else none

end Subst

end Regraft
