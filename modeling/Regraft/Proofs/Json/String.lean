import Regraft.Json.Printer
import Regraft.Json.Reader
import Regraft.Proofs.Results

/-
  Strings. Every character is read back from the way it stands between quotes: as it is, by a letter, or
  as a code unit (`pieces_escapedChar`). So a string is read back whatever characters it has
  (`string_escaped`).
-/

namespace Regraft.Json

variable {cs rest : List Char} {ps : List Piece} {c : Char}

/-! ## Pieces -/

theorem pieces_escaped {a b c d : Char} {code : Nat} (hex : hexCode a b c d = some code)
    (read : pieces cs = some (ps, rest)) :
    pieces ('\\' :: 'u' :: a :: b :: c :: d :: cs) = some (.escaped code :: ps, rest) := by
  show ((hexCode a b c d).bind fun _ => (pieces cs).bind _) = _
  rw [hex, read]
  rfl

theorem pieces_letter {letter : Char} (other : letter ≠ 'u') (known : escapeLetter letter = some c)
    (read : pieces cs = some (ps, rest)) :
    pieces ('\\' :: letter :: cs) = some (.char c :: ps, rest) := by
  rw [pieces, known, read]
  · rfl
  · exact fun _ _ _ _ _ eq => absurd eq other

theorem pieces_char (quote : c ≠ '"') (backslash : c ≠ '\\') (printed : ¬ c.toNat < 0x20)
    (read : pieces cs = some (ps, rest)) : pieces (c :: cs) = some (.char c :: ps, rest) := by
  rw [pieces, if_neg (by simp [printed, backslash]), read]
  · rfl
  · exact quote
  · exact fun _ _ _ _ _ eq => absurd eq backslash
  · exact fun _ _ eq => absurd eq backslash

/-- The control characters that are written with a letter. -/
def lettered : List Char := ['\n', '\r', '\t', '\x08', '\x0c']

/-- A character that is written as a code unit. -/
def unitEscaped (c : Char) : Bool := c.toNat < 0x20 && !lettered.contains c

/-- The piece that a character is read as. -/
def pieceOf (c : Char) : Piece := if unitEscaped c then .escaped c.toNat else .char c

theorem hexCode_unit : ∀ n < 0x20, hexCode '0' '0' (n / 16).digitChar (n % 16).digitChar = some n := by
  decide

theorem hexChars_unit : ∀ n < 0x20,
    (if n < 0x10 then ['\\', 'u', '0', '0', '0'] ++ Text.hexChars n
      else ['\\', 'u', '0', '0'] ++ Text.hexChars n) =
    ['\\', 'u', '0', '0', (n / 16).digitChar, (n % 16).digitChar] := by
  decide

/-- A character is read back as one piece, before any string that is read. -/
theorem pieces_escapedChar (c : Char) (read : pieces cs = some (ps, rest)) :
    pieces (escapedChar c ++ cs) = some (pieceOf c :: ps, rest) := by
  unfold escapedChar
  split
  iterate 7 exact pieces_letter (by decide) rfl read
  rename_i quote backslash line carriage tab back feed
  have common : lettered.contains c = false := by
    simp only [lettered, List.contains_eq_mem, List.mem_cons, List.not_mem_nil, or_false, not_or,
      decide_eq_false_iff_not]
    exact ⟨line, carriage, tab, back, feed⟩
  rcases Nat.lt_or_ge c.toNat 0x20 with control | printed
  · have unit : pieceOf c = .escaped c.toNat := by
      rw [pieceOf, unitEscaped, common, decide_eq_true control]
      rfl
    have chars := hexChars_unit c.toNat control
    rw [if_pos control, chars, unit]
    exact pieces_escaped (hexCode_unit c.toNat control) read
  · have plain : pieceOf c = .char c := by
      rw [pieceOf, unitEscaped, decide_eq_false (Nat.not_lt.mpr printed)]
      rfl
    have small : ¬ c.toNat < 0x10 := fun lt => absurd (Nat.lt_trans lt (by decide)) (Nat.not_lt.mpr printed)
    rw [if_neg small, if_neg (Nat.not_lt.mpr printed), plain]
    exact pieces_char quote backslash (Nat.not_lt.mpr printed) read

theorem pieces_escaped_all (cs rest : List Char) :
    pieces (cs.flatMap escapedChar ++ '"' :: rest) = some (cs.map pieceOf, rest) := by
  induction cs with
  | nil => rfl
  | cons c cs ih =>
    rw [List.flatMap_cons, List.append_assoc, List.map_cons]
    exact pieces_escapedChar c ih

/-! ## Characters -/

/-- A code unit below the surrogates is a character, whatever comes behind it. -/
theorem joinPieces_escaped {u : Nat} (low : u < 0xD800) (ps : List Piece) :
    joinPieces (.escaped u :: ps) = (joinPieces ps).map (Char.ofNat u :: ·) := by
  have here : (decide (u < 0xD800) || decide (0xE000 ≤ u)) = true := by
    rw [decide_eq_true low, Bool.true_or]
  cases ps with
  | nil => exact if_pos here
  | cons p ps =>
    cases p with
    | char c => exact (if_pos here).trans (Option.map_map ..).symm
    | escaped v => exact if_pos here

theorem joinPieces_pieceOf (c : Char) (ps : List Piece) :
    joinPieces (pieceOf c :: ps) = (joinPieces ps).map (c :: ·) := by
  unfold pieceOf
  split
  · rename_i unit
    have control : c.toNat < 0x20 := of_decide_eq_true ((Bool.and_eq_true _ _).mp unit).1
    rw [joinPieces_escaped (Nat.lt_trans control (by decide)), Char.ofNat_toNat]
  · rfl

theorem joinPieces_map (cs : List Char) : joinPieces (cs.map pieceOf) = some cs := by
  induction cs with
  | nil => rfl
  | cons c cs ih => rw [List.map_cons, joinPieces_pieceOf, ih]; rfl

/-- A string is read back from its text, up to the closing quote. -/
theorem string_escaped (s : String) (rest : List Char) :
    string (s.toList.flatMap escapedChar ++ '"' :: rest) = some (some s, rest) := by
  rw [string, pieces_escaped_all]
  show some ((joinPieces (s.toList.map pieceOf)).map String.ofList, rest) = _
  rw [joinPieces_map, Option.map_some, String.ofList_toList]

end Regraft.Json
