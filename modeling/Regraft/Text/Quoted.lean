import Regraft.Text.Unprintable

/-
  Text between double quotes in which every character shows: quotes and backslashes are escaped,
  the common controls have letters, and other unprintable characters stand as a code point.
-/

namespace Regraft.Text

/-- Lower-case hexadecimal digits of a natural. -/
def hexChars (n : Nat) : List Char := Nat.toDigits 16 n

/-- A character as it stands between the quotes. -/
def quotedChar (c : Char) : List Char :=
  match c with
  | '"' => ['\\', '"']
  | '\\' => ['\\', '\\']
  | '\n' => ['\\', 'n']
  | '\r' => ['\\', 'r']
  | '\t' => ['\\', 't']
  | '\x00' => ['\\', '0']
  | c => if unprintable c then '\\' :: 'u' :: '\x7b' :: hexChars c.toNat ++ ['\x7d'] else [c]

/-- The text between double quotes. -/
def quoted (s : String) : String :=
  String.ofList ('"' :: s.toList.flatMap quotedChar ++ ['"'])

end Regraft.Text
