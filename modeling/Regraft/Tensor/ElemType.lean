/-
  Element types of graph values. Values are computed as doubles; `round` brings a computed double
  to one that the type can hold, and the wider of two types is the type of a binary operation.
-/

namespace Regraft

/-- Element types, narrowest first. -/
inductive ElemType
  | bool
  | i32
  | i64
  | f32
  | f64
deriving DecidableEq, Repr

namespace ElemType

def all : List ElemType := [bool, i32, i64, f32, f64]

def name : ElemType → String
  | bool => "bool"
  | i32 => "i32"
  | i64 => "i64"
  | f32 => "f32"
  | f64 => "f64"

def ofName? (s : String) : Option ElemType := all.find? (·.name = s)

def isFloat : ElemType → Bool
  | f32 => true
  | f64 => true
  | _ => false

/-- Position in the order from narrow to wide. -/
def width : ElemType → Nat
  | bool => 0
  | i32 => 1
  | i64 => 2
  | f32 => 3
  | f64 => 4

/-- The wider of two types. -/
def promote (a b : ElemType) : ElemType := if a.width ≤ b.width then b else a

/-- The value of the type that a computed double becomes: integers are cut toward zero and held
    inside their range, and not-a-number counts as zero for them. -/
def round : ElemType → Float → Float
  | f64, x => x
  | f32, x => x.toFloat32.toFloat
  | i32, x => x.toInt32.toFloat
  | i64, x => x.toInt64.toFloat
  | bool, x => if x != 0.0 then 1.0 else 0.0

end ElemType

end Regraft
