import Regraft.Symbol.OpName

/-
  The names that have been used so far, each once, in order of first use.
-/

namespace Regraft

structure SymbolTable where
  names : List String
deriving DecidableEq, Repr

namespace SymbolTable

def empty : SymbolTable := ⟨[]⟩

def contains (t : SymbolTable) (name : String) : Bool := t.names.contains name

def size (t : SymbolTable) : Nat := t.names.length

/-- Record the use of a name. -/
def note (name : String) (t : SymbolTable) : SymbolTable :=
  if t.contains name then t else ⟨t.names ++ [name]⟩

end SymbolTable

end Regraft
