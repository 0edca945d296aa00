import Regraft.Json.Printer
import Regraft.Json.Reader

/-
  Number literals. What is read of a literal does not depend on the text behind it, as long as that text
  does not go on with a digit, a point or an exponent (`number_append`). The decimal digits of a natural
  that fits in 64 bits are read as the natural (`number_natural`).
-/

namespace Regraft.Json

variable {cs digits more rest : List Char} {c : Char} {j : Json} {n : Nat}

/-- A text that does not go on with a number literal. -/
def Ends (rest : List Char) : Prop :=
  ∀ c ∈ rest.head?, c.isDigit = false ∧ c ≠ '.' ∧ c ≠ 'e' ∧ c ≠ 'E'

theorem Ends.nil : Ends [] := nofun

theorem Ends.takeWhile (h : Ends rest) : rest.takeWhile Char.isDigit = [] := by
  cases rest with
  | nil => rfl
  | cons c cs => exact List.takeWhile_cons_of_neg (by simp [(h c rfl).1])

theorem Ends.dropWhile (h : Ends rest) : rest.dropWhile Char.isDigit = rest := by
  cases rest with
  | nil => rfl
  | cons c cs => exact List.dropWhile_cons_of_neg (by simp [(h c rfl).1])

theorem takeWhile_append (h : Ends rest) :
    (cs ++ rest).takeWhile Char.isDigit = cs.takeWhile Char.isDigit := by
  induction cs with
  | nil => exact h.takeWhile
  | cons c cs ih => simp only [List.cons_append, List.takeWhile_cons, ih]

theorem dropWhile_append (h : Ends rest) :
    (cs ++ rest).dropWhile Char.isDigit = cs.dropWhile Char.isDigit ++ rest := by
  induction cs with
  | nil => exact h.dropWhile
  | cons c cs ih =>
    simp only [List.cons_append, List.dropWhile_cons, ih]
    split <;> rfl

/-! ## The parts of a literal -/

theorem fractionPart_none (h : ∀ c ∈ cs.head?, c ≠ '.') : fractionPart cs = some ([], cs) := by
  unfold fractionPart
  split
  · exact absurd rfl (h '.' rfl)
  · rfl

theorem fractionPart_append (h : Ends rest) (part : fractionPart cs = some (digits, more)) :
    fractionPart (cs ++ rest) = some (digits, more ++ rest) := by
  unfold fractionPart at part
  split at part
  · rename_i cs
    rw [List.cons_append, fractionPart, takeWhile_append h, dropWhile_append h]
    split at part
    · cases part
    · cases part
      rfl
  · rename_i other
    cases part
    refine fractionPart_none fun c head => ?_
    cases cs with
    | nil => exact (h c head).2.1
    | cons d cs =>
      cases head
      rintro rfl
      exact other cs rfl

/-- The digits of an exponent. -/
def powerDigits (minus : Bool) (cs : List Char) : Option (Option Int × List Char) :=
  match cs.takeWhile Char.isDigit with
  | [] => none
  | digits =>
    let n : Int := digits.foldl (fun n c => n * 10 + digitValue c) 0
    some (some (if minus then -n else n), cs.dropWhile Char.isDigit)

/-- An exponent behind its mark. -/
def powerSigned : List Char → Option (Option Int × List Char)
  | '+' :: cs => powerDigits false cs
  | '-' :: cs => powerDigits true cs
  | cs => powerDigits false cs

variable {power : Option Int} {minus : Bool}

theorem powerDigits_append (h : Ends rest) (part : powerDigits minus cs = some (power, more)) :
    powerDigits minus (cs ++ rest) = some (power, more ++ rest) := by
  unfold powerDigits at part ⊢
  rw [takeWhile_append h, dropWhile_append h]
  split at part
  · cases part
  · cases part
    rfl

theorem powerSigned_append (h : Ends rest) (part : powerSigned cs = some (power, more)) :
    powerSigned (cs ++ rest) = some (power, more ++ rest) := by
  unfold powerSigned at part
  split at part
  · exact powerDigits_append h part
  · exact powerDigits_append h part
  · rename_i plus minus
    have same : powerSigned (cs ++ rest) = powerDigits false (cs ++ rest) := by
      cases cs with
      | nil => cases part
      | cons c cs =>
        rw [List.cons_append, powerSigned]
        · rintro cs' eq
          cases eq
          exact plus cs rfl
        · rintro cs' eq
          cases eq
          exact minus cs rfl
    rw [same]
    exact powerDigits_append h part

theorem powerPart_none (h : ∀ c ∈ cs.head?, c ≠ 'e' ∧ c ≠ 'E') : powerPart cs = some (none, cs) := by
  unfold powerPart
  dsimp only
  split
  · exact absurd rfl (h 'e' rfl).1
  · exact absurd rfl (h 'E' rfl).2
  · rfl

theorem powerPart_append (h : Ends rest) (part : powerPart cs = some (power, more)) :
    powerPart (cs ++ rest) = some (power, more ++ rest) := by
  have small : ∀ cs, powerPart ('e' :: cs) = powerSigned cs := fun _ => rfl
  have large : ∀ cs, powerPart ('E' :: cs) = powerSigned cs := fun _ => rfl
  by_cases marked : ∃ c cs', cs = c :: cs' ∧ (c = 'e' ∨ c = 'E')
  · obtain ⟨c, cs, rfl, rfl | rfl⟩ := marked
    · rw [small] at part
      exact powerSigned_append h part
    · rw [large] at part
      exact powerSigned_append h part
  · have unmarked : ∀ c ∈ cs.head?, c ≠ 'e' ∧ c ≠ 'E' := by
      intro c head
      cases cs with
      | nil => cases head
      | cons d cs =>
        cases head
        exact ⟨fun eq => marked ⟨c, cs, rfl, .inl eq⟩, fun eq => marked ⟨c, cs, rfl, .inr eq⟩⟩
    rw [powerPart_none unmarked] at part
    cases part
    refine powerPart_none fun c head => ?_
    cases cs with
    | nil => exact (h c head).2.2
    | cons d cs => exact unmarked c head

/-! ## Literals -/

/-- A literal without its sign. -/
def unsigned (minus : Bool) (cs : List Char) : Option (Json × List Char) :=
  let whole := cs.takeWhile Char.isDigit
  match whole with
  | [] => none
  | '0' :: _ :: _ => none
  | _ => do
    let (fraction, cs) ← fractionPart (cs.dropWhile Char.isDigit)
    let (power, cs) ← powerPart cs
    some (numberValue minus (whole.map digitValue) (fraction.map digitValue) power, cs)

theorem number_minus : number ('-' :: cs) = unsigned true cs := rfl

theorem number_of_ne (h : c ≠ '-') : number (c :: cs) = unsigned false (c :: cs) := by
  unfold number
  split
  rename_i eq
  split at eq
  · rename_i head
    exact absurd (List.cons.inj head).1 h
  · cases eq
    rfl

theorem unsigned_append (h : Ends rest) (read : unsigned minus cs = some (j, more)) :
    unsigned minus (cs ++ rest) = some (j, more ++ rest) := by
  unfold unsigned at read ⊢
  rw [takeWhile_append h, dropWhile_append h]
  dsimp only at read ⊢
  split at read
  · cases read
  · cases read
  · obtain ⟨⟨fraction, cs'⟩, part, read⟩ := Option.bind_eq_some_iff.mp read
    obtain ⟨⟨power, cs''⟩, part', read⟩ := Option.bind_eq_some_iff.mp read
    cases read
    refine Option.bind_eq_some_iff.mpr ⟨_, fractionPart_append h part, ?_⟩
    exact Option.bind_eq_some_iff.mpr ⟨_, powerPart_append h part', rfl⟩

/-- A literal is read the same before any text that does not go on with it. -/
theorem number_append (h : Ends rest) (read : number cs = some (j, more)) :
    number (cs ++ rest) = some (j, more ++ rest) := by
  cases cs with
  | nil => cases read
  | cons c cs =>
    by_cases minus : c = '-'
    · subst minus
      exact unsigned_append h read
    · rw [number_of_ne minus] at read
      rw [List.cons_append, number_of_ne minus]
      exact unsigned_append h read

/-- A literal starts with a sign or a digit. -/
theorem head_of_number (read : number cs = some (j, more)) :
    ∃ c cs', cs = c :: cs' ∧ (c = '-' ∨ c.isDigit = true) := by
  cases cs with
  | nil => cases read
  | cons c cs =>
    refine ⟨c, cs, rfl, ?_⟩
    by_cases minus : c = '-'
    · exact .inl minus
    · by_cases digit : c.isDigit = true
      · exact .inr digit
      · rw [number_of_ne minus, unsigned, List.takeWhile_cons_of_neg digit] at read
        cases read

/-! ## Naturals -/

/-- Digits that fit in 64 bits are all kept. -/
theorem foldl_keepWhole (n : Nat) (fits : Nat.ofDigitChars 10 cs n < significandBound) :
    (cs.map digitValue).foldl (fun (kept, dropped) d =>
      if dropped = 0 ∧ kept * 10 + d < significandBound then (kept * 10 + d, 0)
      else (kept, dropped + 1)) (n, 0) = (Nat.ofDigitChars 10 cs n, 0) := by
  induction cs generalizing n with
  | nil => rfl
  | cons c cs ih =>
    rw [Nat.ofDigitChars_cons] at fits ⊢
    have below : 10 * n + (c.toNat - '0'.toNat) < significandBound := by
      refine Nat.lt_of_le_of_lt ?_ fits
      rw [Nat.ofDigitChars_eq_ofDigitChars_zero]
      exact Nat.le_trans (Nat.le_mul_of_pos_left _ (Nat.pow_pos (by decide))) (Nat.le_add_right _ _)
    have here : n * 10 + digitValue c = 10 * n + (c.toNat - '0'.toNat) := by
      rw [Nat.mul_comm]
      rfl
    rw [List.map_cons, List.foldl_cons]
    dsimp only
    rw [if_pos ⟨rfl, here ▸ below⟩, here]
    exact ih _ fits

theorem keepWhole_digitChars (fits : n < significandBound) :
    keepWhole ((Decimal.digitChars n).map digitValue) = (n, 0) := by
  have value : Nat.ofDigitChars 10 (Decimal.digitChars n) 0 = n := Nat.ofDigitChars_ten_toDigits
  have kept := foldl_keepWhole 0 (value.symm ▸ fits)
  rw [value] at kept
  exact kept

/-- The digits of a positive number start with one that is not zero. -/
theorem head_digitChars (pos : 0 < n) : ∀ c ∈ (Decimal.digitChars n).head?, c ≠ '0' := by
  induction n using Nat.strongRecOn with
  | ind n ih =>
    unfold Decimal.digitChars at ih ⊢
    rcases Nat.lt_or_ge n 10 with lt | ge
    · rw [Nat.toDigits_of_lt_base lt]
      intro c head
      cases head
      have digits : ∀ d < 10, 0 < d → d.digitChar ≠ '0' := by decide
      exact digits n lt pos
    · have earlier := ih (n / 10) (Nat.div_lt_self pos (by decide)) (Nat.div_pos ge (by decide))
      rw [Nat.toDigits_of_base_le (by decide) ge]
      cases chars : Nat.toDigits 10 (n / 10) with
      | nil => exact absurd chars Nat.toDigits_ne_nil
      | cons c cs =>
        rw [chars] at earlier
        exact earlier

theorem unsigned_digitChars (minus : Bool) (n : Nat) :
    unsigned minus (Decimal.digitChars n) =
      some (numberValue minus ((Decimal.digitChars n).map digitValue) [] none, []) := by
  have digits : ∀ c ∈ Decimal.digitChars n, c.isDigit = true := fun _ mem =>
    Nat.isDigit_of_mem_toDigits (by decide) (by decide) mem
  have nonempty : Decimal.digitChars n ≠ [] := Nat.toDigits_ne_nil
  have head : Decimal.digitChars n = ['0'] ∨ ∀ c ∈ (Decimal.digitChars n).head?, c ≠ '0' := by
    rcases Nat.eq_zero_or_pos n with rfl | pos
    · exact .inl (Nat.toDigits_zero 10)
    · exact .inr (head_digitChars pos)
  generalize Decimal.digitChars n = cs at digits nonempty head ⊢
  have whole : cs.takeWhile Char.isDigit = cs := by
    rw [← List.append_nil cs, List.takeWhile_append_of_pos digits]
    rfl
  have behind : cs.dropWhile Char.isDigit = [] := by
    rw [← List.append_nil cs, List.dropWhile_append_of_pos digits]
    rfl
  unfold unsigned
  rw [whole, behind]
  dsimp only
  split
  · exact absurd rfl nonempty
  · rename_i c cs
    rcases head with eq | other
    · cases eq
    · exact absurd rfl (other '0' rfl)
  · rfl

/-- The digits of a natural of 64 bits are read as the natural. -/
theorem number_natural (fits : n < significandBound) :
    number (Decimal.digitChars n) = some (num (.natural n), []) := by
  have digits := unsigned_digitChars false n
  cases chars : Decimal.digitChars n with
  | nil => exact absurd chars Nat.toDigits_ne_nil
  | cons c cs =>
    have digit : c.isDigit = true := Nat.isDigit_of_mem_toDigits (by decide) (by decide)
      (chars ▸ List.mem_cons_self : c ∈ Decimal.digitChars n)
    have sign : c ≠ '-' := by
      rintro rfl
      cases digit
    rw [number_of_ne sign, ← chars, digits, numberValue, keepWhole_digitChars fits]
    rfl

/-- The digits of a natural of 63 bits behind a minus sign are read as its negative. -/
theorem number_negative (pos : 0 < n) (fits : n ≤ 0x8000000000000000) :
    number ('-' :: Decimal.digitChars n) = some (num (.negative n), []) := by
  have small : n < significandBound := Nat.lt_of_le_of_lt fits (by decide)
  rw [number_minus, unsigned_digitChars, numberValue, keepWhole_digitChars small]
  dsimp only
  rw [if_neg (by decide), if_neg (by decide), if_pos ⟨pos, fits⟩]

end Regraft.Json
