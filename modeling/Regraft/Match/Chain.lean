import Regraft.Subst.Resolve

/-
  Chains of one operator: nested applications flattened into their operands, together with the
  stretch of operands that each application in the chain covers.
-/

namespace Regraft

/-- The application `term` covers the operands from `start` up to `stop`. -/
structure Span where
  start : Nat
  stop : Nat
  term : TermId
deriving DecidableEq, Repr

structure Chain where
  /-- The operands from left to right. -/
  items : List TermId
  /-- The applications, inner ones first. -/
  spans : List Span
deriving DecidableEq, Repr

namespace Chain

def empty : Chain := ⟨[], []⟩

/-- Append a term to a chain, its own operands if it is an application of the operator, at most
    `depth` applications down. -/
def appendWithin (op : String) (s : Subst) (st : Store) : Nat → Chain → TermId → Chain
  | 0, c, _ => c
  | depth + 1, c, t =>
    let u := s.deref st t
    match st.app? u with
    | some (f, args, _) =>
      if f = op then
        let c' := args.foldl (appendWithin op s st depth) c
        { c' with spans := c'.spans ++ [⟨c.items.length, c'.items.length, u⟩] }
      else { c with items := c.items ++ [u] }
    | none => { c with items := c.items ++ [u] }

/-- The chain of a term. -/
def flatten (op : String) (s : Subst) (st : Store) (t : TermId) : Chain :=
  appendWithin op s st (Subst.depthBound st) empty t

/-- Apply the operator to operands, nested to the left. -/
def nest (op : String) : TermId → List TermId → Store → TermId × Store
  | t, [], st => (t, st)
  | t, u :: rest, st =>
    let (v, st) := st.app op [t, u] .unspecified
    nest op v rest st

/-- The positions are consecutive, from the first to the last. -/
def consecutive (positions : List Nat) : Option (Nat × Nat) := do
  let first ← positions.head?
  let last ← positions.getLast?
  if last + 1 = first + positions.length then some (first, last + 1) else none

/-- A term for the operands at some positions, given in ascending order: the operand itself if it is
    one, an application of the chain that covers just them, or else a new one nested to the left. -/
def group (c : Chain) (op : String) (positions : List Nat) (st : Store) : Option TermId × Store :=
  match positions.filterMap (c.items[·]?) with
  | [] => (none, st)
  | [t] => (some t, st)
  | t :: rest =>
    let covering := (consecutive positions).bind fun (start, stop) =>
      c.spans.find? fun span => span.start = start ∧ span.stop = stop
    match covering with
    | some span => (some span.term, st)
    | none =>
      let (u, st) := nest op t rest st
      (some u, st)

end Chain

end Regraft
