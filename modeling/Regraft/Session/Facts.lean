/-
  Algebraic facts about operators: which may have their operands in any order, and which of their
  nested applications may be regrouped.
-/

namespace Regraft

structure Facts where
  commutative : List String
  associative : List String
deriving DecidableEq, Repr

namespace Facts

def none : Facts := ⟨[], []⟩

def isCommutative (f : Facts) (op : String) : Bool := f.commutative.contains op

def isAssociative (f : Facts) (op : String) : Bool := f.associative.contains op

def isEmpty (f : Facts) : Bool := f.commutative.isEmpty && f.associative.isEmpty

end Facts

end Regraft
