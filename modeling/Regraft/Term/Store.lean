import Regraft.Term.Basic

/-
  The store of terms. Operands are stored before the terms that use them. Equal terms are stored
  once, so two terms are equal exactly when their ids are; that is what keeps the sharing of a
  graph.
-/

namespace Regraft

structure Store where
  terms : Numbering Term
  /-- The index of the next new variable. -/
  nextVar : UInt32
  /-- Variables that are known by a name. -/
  named : List (String × UInt32)

namespace Store

def empty : Store := ⟨.empty, 0, []⟩

def size (s : Store) : Nat := s.terms.size

def term? (s : Store) (id : TermId) : Option Term := s.terms.get? id.index

/-- The index of a variable. -/
def var? (s : Store) (id : TermId) : Option UInt32 :=
  match s.term? id with
  | some (.var i) => some i
  | _ => none

/-- The operator, operands and attributes of an application. -/
def app? (s : Store) (id : TermId) : Option (String × List TermId × Attrs) :=
  match s.term? id with
  | some (.app op args attrs) => some (op, args, attrs)
  | _ => none

/-- The id of a term, which is stored if it is new. -/
def intern (t : Term) : Store → TermId × Store
  | ⟨terms, nextVar, named⟩ =>
    let (i, terms) := terms.insert t
    (⟨i⟩, ⟨terms, nextVar, named⟩)

/-! ## Variables -/

/-- The next index, except behind the last one. -/
def nextIndex (i : UInt32) : UInt32 := if i = 0xFFFFFFFF then i else i + 1

/-- The variable of a given index; new variables come behind it from now on. -/
def var (i : UInt32) (s : Store) : TermId × Store :=
  intern (.var i) { s with nextVar := max s.nextVar (nextIndex i) }

/-- A new variable. -/
def fresh (s : Store) : TermId × Store :=
  intern (.var s.nextVar) { s with nextVar := s.nextVar + 1 }

/-- Some new variables, one after the other. -/
def freshVars : Nat → Store → List TermId × Store
  | 0, s => ([], s)
  | count + 1, s =>
    let (v, s) := fresh s
    let (vs, s) := freshVars count s
    (v :: vs, s)

/-- The variable known by a name, new on first use. -/
def namedVar (name : String) (s : Store) : TermId × Store :=
  match s.named.lookup name with
  | some i => intern (.var i) s
  | none =>
    intern (.var s.nextVar)
      { s with nextVar := s.nextVar + 1, named := (name, s.nextVar) :: s.named }

/-! ## Leaves and applications -/

def constant (c : Constant) (s : Store) : TermId × Store := intern (.leaf (.const c)) s

def scalar (x : Float) (s : Store) : TermId × Store := constant (.scalar x) s

def input (name : String) (s : Store) : TermId × Store := intern (.leaf (.input name)) s

def app (op : String) (args : List TermId) (attrs : Attrs) (s : Store) : TermId × Store :=
  intern (.app op args attrs) s

end Store

end Regraft
