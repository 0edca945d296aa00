/-
  Shapes, their multi-indices in row-major order, and broadcasting: shapes are aligned at their last
  axes, an axis of size one stretches to any size, and missing leading axes count as size one.
-/

namespace Regraft

/-- The sizes of the axes of a value; a scalar has no axes. -/
structure Shape where
  dims : List Nat
deriving DecidableEq, Repr

namespace Shape

def scalar : Shape := ⟨[]⟩

def rank (s : Shape) : Nat := s.dims.length

def isScalar (s : Shape) : Bool := s.dims.isEmpty

/-- The number of elements. -/
def numel (s : Shape) : Nat := s.dims.foldr (· * ·) 1

/-! ## Broadcasting -/

/-- The common size of two aligned axes. -/
def axis (x y : Nat) : Option Nat :=
  if x = y then some x
  else if x = 1 then some y
  else if y = 1 then some x
  else none

/-- Leading axes of size one up to a rank. -/
def padded (rank : Nat) (dims : List Nat) : List Nat :=
  List.replicate (rank - dims.length) 1 ++ dims

/-- The common shape of two shapes, if all their axes agree. -/
def broadcast (a b : Shape) : Option Shape :=
  let rank := max a.rank b.rank
  let axes := (padded rank a.dims).zip (padded rank b.dims)
  (axes.mapM fun (x, y) => axis x y).map Shape.mk

/-! ## Indices -/

/-- The multi-indices of the given axes, the last one running fastest. -/
def indicesOf : List Nat → List (List Nat)
  | [] => [[]]
  | d :: rest => (List.range d).flatMap fun i => (indicesOf rest).map (i :: ·)

/-- All multi-indices of a shape. With an axis of size zero there are none, however long the other
    axes are. -/
def indices (s : Shape) : List (List Nat) := if s.numel = 0 then [] else indicesOf s.dims

/-- The place of a multi-index in row-major order. -/
def positionIn : List Nat → List Nat → Nat
  | _ :: dims, i :: index => i * dims.foldr (· * ·) 1 + positionIn dims index
  | _, _ => 0

def position (s : Shape) (index : List Nat) : Nat := positionIn s.dims index

/-- The multi-index of an operand that a multi-index of the common shape reads: leading axes that
    the operand lacks are dropped, and its axes of size one are read at zero. -/
def restrict (s : Shape) (index : List Nat) : List Nat :=
  (s.dims.zip (index.drop (index.length - s.rank))).map fun (d, i) => if d = 1 then 0 else i

/-- The sizes between square brackets. -/
def text (s : Shape) : String :=
  "[" ++ ", ".intercalate (s.dims.map Nat.repr) ++ "]"

end Shape

end Regraft
