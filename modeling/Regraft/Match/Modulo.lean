import Regraft.Match.Chain
import Regraft.Match.Groupings
import Regraft.Match.Orders
import Regraft.Search.Goal

/-
  Matching modulo the facts of the session. Operands of a commutative operator may be paired in any
  order, the given order first. Chains of an operator that also associates are flattened before; if
  one is longer, an unbound variable of the shorter one may stand for several of its operands.
-/

namespace Regraft

namespace Search

/-- How two terms are matched under a substitution. -/
abbrev Matcher := TermId → TermId → Subst → SessionM Search

/-- Match pairs one after the other: a single pair at once, several as goals. -/
def matchPairs (matchPair : Matcher) (s : Subst) : List (TermId × TermId) → SessionM Search
  | [] => pure (unit s)
  | [(a, b)] => matchPair a b s
  | (a, b) :: rest => pure (through (.modulo a b) (rest.map fun (a, b) => .modulo a b) s)

/-- A branch for every order of the left operands, set up one at a time. -/
def permuted (matchPair : Matcher) (orders : Orders) (xs ys : List TermId) (s : Subst) : Search :=
  match _h : orders.next? with
  | none => empty
  | some (order, later) => suspend fun ses =>
    let pairs := (order.filterMap (xs[·]?)).zip ys
    let (here, ses) := matchPairs matchPair s pairs ses
    (plus here (suspend fun ses => (permuted matchPair later xs ys s, ses)), ses)
termination_by orders.left
decreasing_by exact Orders.left_lt_of_next? _h

/-- The positions that an assignment gives to a slot. -/
def members (assignment : List Nat) (slot : Nat) : List Nat :=
  (List.range assignment.length).filter fun i => assignment[i]? = some slot

/-- A term of a chain for every slot, in order; `none` if a slot has no operand. -/
def groups (op : String) (long : Chain) (assignment : List Nat) :
    List Nat → Store → Option (List TermId) × Store
  | [], st => (some [], st)
  | slot :: rest, st => match long.group op (members assignment slot) st with
    | (none, st) => (none, st)
    | (some t, st) => match groups op long assignment rest st with
      | (none, st) => (none, st)
      | (some ts, st) => (some (t :: ts), st)

/-- A branch for every way to hand the operands of the longer chain to those of the shorter one, set
    up one at a time. -/
def grouped (matchPair : Matcher) (op : String) (short : List TermId) (long : Chain)
    (shortFirst : Bool) (groupings : Groupings) (s : Subst) : Search :=
  match _h : groupings.next? with
  | none => empty
  | some (assignment, later) => suspend fun ses =>
    match Session.onStore (groups op long assignment (List.range short.length)) ses with
    | (none, ses) => (empty, ses)
    | (some ts, ses) =>
      let pairs := if shortFirst then short.zip ts else ts.zip short
      let (here, ses) := matchPairs matchPair s pairs ses
      let later := fun ses => (grouped matchPair op short long shortFirst later s, ses)
      (plus here (suspend later), ses)
termination_by groupings.left
decreasing_by exact Groupings.left_lt_of_next? _h

/-- Match chains of different length. -/
def regroup (matchPair : Matcher) (op : String) (x y : Chain) (s : Subst) :
    SessionM Search := fun ses =>
  let shortFirst := x.items.length < y.items.length
  let (short, long) := if shortFirst then (x, y) else (y, x)
  let absorbs := short.items.map fun t => (ses.store.var? (s.deref ses.store t)).isSome
  if absorbs.contains true then
    (grouped matchPair op short.items long shortFirst (.all long.items.length absorbs) s, ses)
  else mismatch ses

/-- Match two applications of one operator. -/
def matchOperands (matchPair : Matcher) (op : String) (a b : TermId) (xs ys : List TermId)
    (s : Subst) : SessionM Search := fun ses =>
  if ses.facts.isCommutative op && ses.facts.isAssociative op then
    let x := Chain.flatten op s ses.store a
    let y := Chain.flatten op s ses.store b
    if x.items.length = y.items.length then
      (permuted matchPair (.all x.items.length) x.items y.items s, ses)
    else regroup matchPair op x y s ses
  else if xs.length ≠ ys.length then mismatch ses
  else if ses.facts.isCommutative op then (permuted matchPair (.all xs.length) xs ys s, ses)
  else matchPairs matchPair s (xs.zip ys) ses

/-- Match modulo the facts, going down at once through at most `depth` applications of one operand.
    Any deeper and the same two terms are met again, so that there is no answer. -/
def moduloWithin : Nat → Matcher
  | 0, _, _, s => pure (apply .never s)
  | depth + 1, a, b, s => fun ses =>
    let a := s.deref ses.store a
    let b := s.deref ses.store b
    if a = b then (unit s, ses) else
    match ses.store.app? a, ses.store.app? b with
    | some (f, xs, attrs), some (g, ys, attrs') =>
      if f = g ∧ attrs.compatible attrs' then
        matchOperands (moduloWithin depth) f a b xs ys s ses
      else mismatch ses
    | _, _ => unify a b s ses

/-- The search for the ways in which two terms are equal modulo the facts. -/
def modulo (a b : TermId) (s : Subst) : SessionM Search := fun ses =>
  moduloWithin (Subst.pairBound ses.store) a b s ses

end Search

end Regraft
