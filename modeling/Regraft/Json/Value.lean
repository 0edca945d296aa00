/-
  JSON values, and reading records out of them.
  A record may be given as an object or as an array of its fields in order; unknown fields of an
  object are ignored, repeated known ones are refused.
-/

namespace Regraft

/-- A number: integers of at most 64 bits stay exact, all others are doubles. -/
inductive Number
  | natural (n : Nat)
  /-- The integer `-n`. -/
  | negative (n : Nat)
  | real (x : Float)
deriving DecidableEq, Repr

inductive Json
  | null
  | bool (b : Bool)
  | num (n : Number)
  | str (s : String)
  | arr (items : List Json)
  | obj (fields : List (String × Json))
  /-- Well-formed text that denotes no value: a number beyond every double, a string with half a
      surrogate pair, an object with such a key. It may stand where values are ignored. -/
  | unreadable
deriving Repr

namespace Json

/-- The known fields given by a value, by name. -/
def record? (names : List String) : Json → Option (List (String × Json))
  | obj fields =>
    let known := fields.filter (names.contains ·.1)
    if (known.map (·.1)).Pairwise (· ≠ ·) then some known else none
  | arr items => if items.length ≤ names.length then some (names.zip items) else none
  | _ => none

/-- A natural below a bound. -/
def natural? (bound : Nat) : Json → Option Nat
  | num (.natural n) => if n < bound then some n else none
  | _ => none

/-- Any number as a double. -/
def real? : Json → Option Float
  | num (.natural n) => some (Float.ofNat n)
  | num (.negative n) => some (-Float.ofNat n)
  | num (.real x) => some x
  | _ => none

def string? : Json → Option String
  | str s => some s
  | _ => none

/-- Every item of an array read by `read`. -/
def list? {α : Type} (read : Json → Option α) : Json → Option (List α)
  | arr items => items.mapM read
  | _ => none

/-- `null`, or a value read by `read`. -/
def nullable? {α : Type} (read : Json → Option α) : Json → Option (Option α)
  | null => some none
  | j => (read j).map some

mutual

/-- Every part of the value can be read, and containers nest at most `depth` deep. -/
def loadable (depth : Nat) : Json → Bool
  | unreadable => false
  | arr items => match depth with
    | 0 => false
    | d + 1 => loadableItems d items
  | obj fields => match depth with
    | 0 => false
    | d + 1 => loadableFields d fields
  | _ => true

def loadableItems (depth : Nat) : List Json → Bool
  | [] => true
  | j :: rest => loadable depth j && loadableItems depth rest

def loadableFields (depth : Nat) : List (String × Json) → Bool
  | [] => true
  | (_, j) :: rest => loadable depth j && loadableFields depth rest

end

end Json

end Regraft
