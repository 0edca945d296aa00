import Regraft.Json.Value

/-
  Reading JSON text. The grammar is strict: no leading zeros, no trailing commas, no text after the
  value. `Json.parse` is `none` exactly when the text is not well formed.
-/

namespace Regraft.Json

def blank (c : Char) : Bool := c = ' ' || c = '\t' || c = '\n' || c = '\r'

/-! ## Numbers -/

/-- A number keeps the leading digits that fit in 64 bits. -/
def significandBound : Nat := UInt64.size

def digitValue (c : Char) : Nat := c.toNat - '0'.toNat

/-- The leading digits that fit, and how many were left out behind them. -/
def keepWhole (digits : List Nat) : Nat × Nat :=
  digits.foldl (fun (kept, dropped) d =>
    if dropped = 0 ∧ kept * 10 + d < significandBound then (kept * 10 + d, 0)
    else (kept, dropped + 1)) (0, 0)

/-- Digits after the point, appended as long as they fit. -/
def keepFraction : List Nat → Nat × Int → Nat × Int
  | [], kept => kept
  | d :: rest, (n, e) =>
    if n * 10 + d < significandBound then keepFraction rest (n * 10 + d, e - 1) else (n, e)

/-- `x / 10 ^ k`, in steps of at most `10 ^ 308`. -/
def scaleDown (x : Float) (k : Nat) : Float :=
  if k ≤ 308 then x / Float.ofScientific 1 false k
  else if x == 0.0 then x
  else scaleDown (x / Float.ofScientific 1 false 308) (k - 308)
termination_by k

/-- `n * 10 ^ e` in floating point; `none` when it is too large. -/
def scaled (n : Nat) (e : Int) : Option Float :=
  let x := Float.ofNat n
  if e < 0 then some (scaleDown x e.natAbs)
  else if 308 < e then if n = 0 then some x else none
  else
    let y := x * Float.ofScientific 1 false e.natAbs
    if y.isInf then none else some y

/-- The value of a number literal from its sign, whole digits, fraction digits and power of ten. -/
def numberValue (minus : Bool) (whole fraction : List Nat) (power : Option Int) : Json :=
  let (kept, dropped) := keepWhole whole
  let real := fun (n : Nat) (e : Int) => match scaled n e with
    | some x => num (.real (if minus then -x else x))
    | none => unreadable
  match fraction, power with
  | [], none =>
    if 0 < dropped then real kept dropped
    else if !minus then num (.natural kept)
    else if 0 < kept ∧ kept ≤ 0x8000000000000000 then num (.negative kept)
    else num (.real (-Float.ofNat kept))
  | _, _ =>
    let (n, e) := keepFraction fraction (kept, dropped)
    real n (e + power.getD 0)

/-- A point and at least one digit, or nothing. -/
def fractionPart : List Char → Option (List Char × List Char)
  | '.' :: cs => match cs.takeWhile Char.isDigit with
    | [] => none
    | digits => some (digits, cs.dropWhile Char.isDigit)
  | cs => some ([], cs)

/-- An exponent mark, a sign at will and at least one digit, or nothing. -/
def powerPart (cs : List Char) : Option (Option Int × List Char) :=
  let unsigned := fun (minus : Bool) (cs : List Char) => match cs.takeWhile Char.isDigit with
    | [] => none
    | digits =>
      let n : Int := digits.foldl (fun n c => n * 10 + digitValue c) 0
      some (some (if minus then -n else n), cs.dropWhile Char.isDigit)
  let afterMark := fun (cs : List Char) => match cs with
    | '+' :: cs => unsigned false cs
    | '-' :: cs => unsigned true cs
    | cs => unsigned false cs
  match cs with
  | 'e' :: cs => afterMark cs
  | 'E' :: cs => afterMark cs
  | cs => some (none, cs)

def number (cs : List Char) : Option (Json × List Char) := do
  let (minus, cs) := match cs with
    | '-' :: cs => (true, cs)
    | cs => (false, cs)
  let whole := cs.takeWhile Char.isDigit
  match whole with
  | [] => none
  | '0' :: _ :: _ => none
  | _ =>
    let (fraction, cs) ← fractionPart (cs.dropWhile Char.isDigit)
    let (power, cs) ← powerPart cs
    some (numberValue minus (whole.map digitValue) (fraction.map digitValue) power, cs)

/-! ## Strings -/

/-- A character, or a 16-bit unit written as an escape. -/
inductive Piece
  | char (c : Char)
  | escaped (code : Nat)

def hexValue (c : Char) : Option Nat :=
  if c.isDigit then some (digitValue c)
  else if 'a' ≤ c ∧ c ≤ 'f' then some (c.toNat - 'a'.toNat + 10)
  else if 'A' ≤ c ∧ c ≤ 'F' then some (c.toNat - 'A'.toNat + 10)
  else none

def hexCode (a b c d : Char) : Option Nat := do
  let a ← hexValue a
  let b ← hexValue b
  let c ← hexValue c
  let d ← hexValue d
  some (((a * 16 + b) * 16 + c) * 16 + d)

/-- The character meant by a backslash and a letter. -/
def escapeLetter : Char → Option Char
  | '"' => some '"'
  | '\\' => some '\\'
  | '/' => some '/'
  | 'b' => some '\x08'
  | 'f' => some '\x0c'
  | 'n' => some '\n'
  | 'r' => some '\r'
  | 't' => some '\t'
  | _ => none

/-- The pieces of a string up to its closing quote, and the text behind it. -/
def pieces : List Char → Option (List Piece × List Char)
  | [] => none
  | '"' :: cs => some ([], cs)
  | '\\' :: 'u' :: a :: b :: c :: d :: cs => do
    let code ← hexCode a b c d
    let (rest, cs) ← pieces cs
    some (.escaped code :: rest, cs)
  | '\\' :: letter :: cs => do
    let c ← escapeLetter letter
    let (rest, cs) ← pieces cs
    some (.char c :: rest, cs)
  | c :: cs => if c.toNat < 0x20 || c = '\\' then none else do
    let (rest, cs) ← pieces cs
    some (.char c :: rest, cs)

/-- Put surrogate pairs together; `none` when half a pair is left over. -/
def joinPieces : List Piece → Option (List Char)
  | [] => some []
  | .char c :: rest => (joinPieces rest).map (c :: ·)
  | [.escaped u] => if u < 0xD800 || 0xE000 ≤ u then some [Char.ofNat u] else none
  | .escaped u :: .char c :: rest =>
    if u < 0xD800 || 0xE000 ≤ u then (joinPieces rest).map (Char.ofNat u :: c :: ·) else none
  | .escaped u :: .escaped v :: rest =>
    if u < 0xD800 || 0xE000 ≤ u then (joinPieces (.escaped v :: rest)).map (Char.ofNat u :: ·)
    else if u < 0xDC00 && 0xDC00 ≤ v && v < 0xE000 then
      (joinPieces rest).map (Char.ofNat (0x10000 + (u - 0xD800) * 0x400 + (v - 0xDC00)) :: ·)
    else none

/-- The text after an opening quote. -/
def string (cs : List Char) : Option (Option String × List Char) := do
  let (ps, cs) ← pieces cs
  some ((joinPieces ps).map String.ofList, cs)

/-! ## Values -/

/-- An object, if all its keys can be read. -/
def object (fields : List (Option String × Json)) : Json :=
  match fields.mapM fun (k, v) => k.map (·, v) with
  | some fields => obj fields
  | none => unreadable

mutual

/-- The value at the start of a text, and the text behind it. Each call reads at least one
    character before the next, so the length of the text is fuel enough. -/
def value : Nat → List Char → Option (Json × List Char)
  | 0, _ => none
  | fuel + 1, cs => match cs.dropWhile blank with
    | 'n' :: 'u' :: 'l' :: 'l' :: cs => some (null, cs)
    | 't' :: 'r' :: 'u' :: 'e' :: cs => some (bool true, cs)
    | 'f' :: 'a' :: 'l' :: 's' :: 'e' :: cs => some (bool false, cs)
    | '"' :: cs => do
      let (s, cs) ← string cs
      some (s.elim unreadable str, cs)
    | '[' :: cs => match cs.dropWhile blank with
      | ']' :: cs => some (arr [], cs)
      | cs => do
        let (items, cs) ← elements fuel cs
        some (arr items, cs)
    | '\x7b' :: cs => match cs.dropWhile blank with
      | '\x7d' :: cs => some (obj [], cs)
      | cs => do
        let (fields, cs) ← members fuel cs
        some (object fields, cs)
    | cs => number cs

/-- The items of an array up to its closing bracket. -/
def elements : Nat → List Char → Option (List Json × List Char)
  | 0, _ => none
  | fuel + 1, cs => do
    let (item, cs) ← value fuel cs
    match cs.dropWhile blank with
    | ',' :: cs =>
      let (items, cs) ← elements fuel cs
      some (item :: items, cs)
    | ']' :: cs => some ([item], cs)
    | _ => none

/-- The fields of an object up to its closing brace. -/
def members : Nat → List Char → Option (List (Option String × Json) × List Char)
  | 0, _ => none
  | fuel + 1, cs => match cs.dropWhile blank with
    | '"' :: cs => do
      let (key, cs) ← string cs
      match cs.dropWhile blank with
      | ':' :: cs =>
        let (item, cs) ← value fuel cs
        match cs.dropWhile blank with
        | ',' :: cs =>
          let (fields, cs) ← members fuel cs
          some ((key, item) :: fields, cs)
        | '\x7d' :: cs => some ([(key, item)], cs)
        | _ => none
      | _ => none
    | _ => none

end

/-- The value of a whole text. -/
def parse (text : String) : Option Json :=
  match value (text.length + 1) text.toList with
  | some (j, rest) => if rest.all blank then some j else none
  | none => none

end Regraft.Json
