import Regraft.Subst.Resolve

/-
  Unification of terms under a substitution, operands from left to right. Of two variables the
  younger is bound to the older, and no variable is bound to a term that contains it.
-/

namespace Regraft

namespace Subst

/-- How many applications deep a comparison can go before it repeats itself: there are at most
    `size * size` pairs of terms, and at most `size` variables to bind in between. -/
def pairBound (st : Store) : Nat := (st.size + 1) * (st.size + 1) * (st.size + 1)

/-- Unify pairs one after the other, each by `unify`. -/
def unifyPairs (unify : TermId → TermId → Subst → Option Subst) :
    List (TermId × TermId) → Subst → Option Subst
  | [], s => some s
  | (a, b) :: rest, s => (unify a b s).bind (unifyPairs unify rest)

/-- Bind a variable to a term that is no variable, unless the term contains it. -/
def bindTo (s : Subst) (st : Store) (v : UInt32) (t : TermId) : Option Subst :=
  if s.occurs st v t then none else some (s.bind v t)

/-- Unify at most `depth` applications down. -/
def unifyWithin (st : Store) : Nat → TermId → TermId → Subst → Option Subst
  | 0, _, _, _ => none
  | depth + 1, a, b, s =>
    let a := s.deref st a
    let b := s.deref st b
    if a = b then some s else
    match st.term? a, st.term? b with
    | some (.var i), some (.var j) => some (if i < j then s.bind j a else s.bind i b)
    | some (.var i), some _ => s.bindTo st i b
    | some _, some (.var j) => s.bindTo st j a
    | some (.leaf l), some (.leaf m) => if l.valueEq m then some s else none
    | some (.app f xs attrs), some (.app g ys attrs') =>
      if f = g ∧ xs.length = ys.length ∧ attrs.compatible attrs' then
        unifyPairs (unifyWithin st depth) (xs.zip ys) s
      else none
    | _, _ => none

/-- The bindings that make two terms equal; disequalities are not looked at. -/
def unifyBindings (s : Subst) (st : Store) (a b : TermId) : Option Subst :=
  unifyWithin st (pairBound st) a b s

end Subst

end Regraft
