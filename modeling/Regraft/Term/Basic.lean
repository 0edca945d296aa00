import Regraft.Numbering
import Regraft.Term.Attrs
import Regraft.Term.Constant

/-
  Terms, one layer at a time: a variable, a leaf, or an operator applied to terms that stand in the
  same store.
-/

namespace Regraft

/-- The place of a term in its store. -/
structure TermId where
  index : Nat
deriving DecidableEq, Repr

/-- A term without operands that is not a variable. -/
inductive Leaf
  | const (c : Constant)
  | input (name : String)
deriving DecidableEq, Repr

/-- Constants match by value, inputs by name. -/
def Leaf.valueEq : Leaf → Leaf → Bool
  | const a, const b => a.valueEq b
  | input a, input b => a = b
  | _, _ => false

/-- One layer of a term. -/
inductive Term
  | var (index : UInt32)
  | leaf (l : Leaf)
  | app (op : String) (args : List TermId) (attrs : Attrs)
deriving DecidableEq, Repr

namespace Term

/-- The numbers that a term is told apart by; attributes are left out. -/
def signature : Term → List Nat
  | var i => [0, i.toNat]
  | leaf (.const c) => 1 :: c.shape.dims ++ c.values.map fun x => x.toBits.toNat
  | leaf (.input name) => 2 :: name.toList.map Char.toNat
  | app op args _ => 3 :: args.map TermId.index ++ op.toList.map Char.toNat

/-- The signature read as digits, modulo a prime. -/
instance : Keyed Term where
  key t := t.signature.foldl (fun key n => (key * 65599 + n) % 4294967291) 0

end Term

end Regraft
