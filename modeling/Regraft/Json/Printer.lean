import Regraft.Json.Value
import Regraft.Decimal.Layout
import Regraft.Text.Quoted

/-
  Writing JSON text: every item on a line of its own, two blanks of indentation a level.
-/

namespace Regraft.Json

/-- Doubles are written in shortest digits, positionally from `1e-5` up to `1e16`; what is not
    finite is `null`. -/
def realLayout : Decimal.Layout where
  positional e := -5 ≤ e && e < 16
  pointZero := true
  plus := true
  tie := .even
  nan := "null"
  infinity := "null"

def realText (x : Float) : String :=
  if x.isFinite then realLayout.render x else "null"

def numberText : Number → String
  | .natural n => String.ofList (Decimal.digitChars n)
  | .negative n => String.ofList ('-' :: Decimal.digitChars n)
  | .real x => realText x

/-- A character as it stands inside a string. -/
def escapedChar (c : Char) : List Char :=
  match c with
  | '"' => ['\\', '"']
  | '\\' => ['\\', '\\']
  | '\n' => ['\\', 'n']
  | '\r' => ['\\', 'r']
  | '\t' => ['\\', 't']
  | '\x08' => ['\\', 'b']
  | '\x0c' => ['\\', 'f']
  | c =>
    if c.toNat < 0x10 then ['\\', 'u', '0', '0', '0'] ++ Text.hexChars c.toNat
    else if c.toNat < 0x20 then ['\\', 'u', '0', '0'] ++ Text.hexChars c.toNat
    else [c]

def stringText (s : String) : String :=
  String.ofList ('"' :: s.toList.flatMap escapedChar ++ ['"'])

/-- A new line indented to a level. -/
def newLine (level : Nat) : String :=
  String.ofList ('\n' :: List.replicate (2 * level) ' ')

/-- The lines of a container between its brackets. -/
def block (level : Nat) (opening closing : String) : List String → String
  | [] => opening ++ closing
  | items =>
    opening ++ newLine (level + 1) ++ ("," ++ newLine (level + 1)).intercalate items ++
      newLine level ++ closing

mutual

/-- The text of a value that starts at a level of indentation. -/
def textAt (level : Nat) : Json → String
  | null => "null"
  | unreadable => "null"
  | bool b => if b then "true" else "false"
  | num n => numberText n
  | str s => stringText s
  | arr items => block level "[" "]" (itemTexts (level + 1) items)
  | obj fields => block level "\x7b" "\x7d" (fieldTexts (level + 1) fields)

def itemTexts (level : Nat) : List Json → List String
  | [] => []
  | j :: rest => textAt level j :: itemTexts level rest

def fieldTexts (level : Nat) : List (String × Json) → List String
  | [] => []
  | (k, j) :: rest => (stringText k ++ ": " ++ textAt level j) :: fieldTexts level rest

end

/-- The text of a value. -/
def text (j : Json) : String := j.textAt 0

end Regraft.Json
