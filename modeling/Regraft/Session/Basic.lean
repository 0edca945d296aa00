import Regraft.Session.Config
import Regraft.Session.Counters
import Regraft.Session.Facts
import Regraft.Symbol.Table
import Regraft.Subst.Resolve
import Regraft.Term.Tree

/-
  The state that a rewriting run shares: names used, terms stored, algebraic facts and counts.
  What only the state makes possible, such as a new variable, is an action on it.
-/

namespace Regraft

structure Session where
  symbols : SymbolTable
  store : Store
  facts : Facts
  counters : Counters

/-- An action on a session. -/
abbrev SessionM := StateM Session

namespace Session

/-- A session that knows no facts. -/
def bare : Session := ⟨.empty, .empty, .none, .zero⟩

/-- Operands of the operator may come in any order from now on. The name is normalised. -/
def declareCommutative (s : Session) (raw : String) : Session :=
  let name := (OpName.normalize raw).name
  { s with
    symbols := s.symbols.note name
    facts := { s.facts with commutative := name :: s.facts.commutative } }

/-- Nested applications of the operator may be regrouped from now on. The name is normalised. -/
def declareAssociative (s : Session) (raw : String) : Session :=
  let name := (OpName.normalize raw).name
  { s with
    symbols := s.symbols.note name
    facts := { s.facts with associative := name :: s.facts.associative } }

/-- A session with the facts of a configuration. -/
def ofConfig (c : Config) : Session :=
  c.associative.foldl declareAssociative (c.commutative.foldl declareCommutative bare)

/-- A session in which sums and products commute and associate. -/
def standard : Session := ofConfig .default

/-! ## Actions -/

/-- An action on the store alone. -/
def onStore {α : Type} (f : Store → α × Store) : SessionM α
  | ⟨symbols, store, facts, counters⟩ =>
    let (a, store) := f store
    (a, ⟨symbols, store, facts, counters⟩)

/-- Change the counts. -/
def count (f : Counters → Counters) : SessionM Unit := fun s =>
  ((), { s with counters := f s.counters })

/-- Record the use of a name. -/
def note (name : String) : SessionM Unit := fun s =>
  ((), { s with symbols := s.symbols.note name })

def fresh : SessionM TermId := onStore Store.fresh

def scalar (x : Float) : SessionM TermId := onStore (Store.scalar x)

/-- The input of a name. -/
def input (name : String) : SessionM TermId := do
  note name
  onStore (Store.input name)

/-- The variable known by a name, new on first use. -/
def named (name : String) : SessionM TermId := do
  note name
  onStore (Store.namedVar name)

/-- An application of an exported operator name. The name is normalised, and an output index in it
    is kept among the attributes. -/
def op (raw : String) (args : List TermId) : SessionM TermId := do
  let ⟨name, output⟩ := OpName.normalize raw
  note name
  onStore (Store.app name args { Attrs.unspecified with output })

/-- An application whose operator is taken as it is. -/
def tagged (tag : String) (args : List TermId) (attrs : Attrs) : SessionM TermId := do
  note tag
  onStore (Store.app tag args attrs)

/-- Replace the bound variables of a term. -/
def reify (s : Subst) (t : TermId) : SessionM TermId := onStore (s.reify t)

/-- The text of a term. -/
def text (t : TermId) : SessionM String := fun s => (s.store.text t, s)

end Session

end Regraft
