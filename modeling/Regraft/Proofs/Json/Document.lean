import Regraft.Proofs.Json.Number
import Regraft.Proofs.Json.String
import Regraft.Proofs.Results
import Mathlib.Data.List.DropRight

/-
  Documents are read back. The text of a value is read as a value, whatever blanks stand before it and
  whatever follows that does not go on with a number (`Reads`). Brackets around texts that are read are
  read as the container of what they are read as. So the text of a value is read as the value, only that
  numbers that are not finite are read as `null` (`parse_text`).
-/

namespace Regraft.Json

variable {cs ws rest text : List Char} {c : Char} {j j' : Json} {n level fuel : Nat}

/-- All blank. -/
def Blanks (ws : List Char) : Prop := ∀ c ∈ ws, blank c = true

theorem dropWhile_blank (hws : Blanks ws) (hc : blank c = false) :
    (ws ++ c :: cs).dropWhile blank = c :: cs := by
  rw [List.dropWhile_append_of_pos hws, List.dropWhile_cons_of_neg (by simp [hc])]

theorem value_dropWhile (fuel : Nat) (cs : List Char) :
    value fuel (cs.dropWhile blank) = value fuel cs := by
  cases fuel with
  | zero => rfl
  | succ fuel => rw [value, value, List.dropWhile_idempotent]

/-- Blanks before a value are passed over. -/
theorem value_blanks (hws : Blanks ws) (hc : blank c = false) (fuel : Nat) :
    value fuel (ws ++ c :: cs) = value fuel (c :: cs) := by
  rw [← value_dropWhile, dropWhile_blank hws hc]

theorem ends_cons (hc : c.isDigit = false ∧ c ≠ '.' ∧ c ≠ 'e' ∧ c ≠ 'E') : Ends (c :: rest) := by
  intro d head
  cases head
  exact hc

theorem ends_of_blanks (hws : Blanks ws) (hc : c.isDigit = false ∧ c ≠ '.' ∧ c ≠ 'e' ∧ c ≠ 'E') :
    Ends (ws ++ c :: rest) := by
  cases ws with
  | nil => exact ends_cons hc
  | cons b ws =>
    refine ends_cons ?_
    have hb := hws b (.head _)
    simp only [blank, Bool.or_eq_true, decide_eq_true_eq] at hb
    obtain ((rfl | rfl) | rfl) | rfl := hb <;> decide

/-- A text is read as a value, behind blanks and before what does not go on with a number. -/
def Reads (text : List Char) (j : Json) : Prop :=
  ∀ fuel ws rest, Blanks ws → text.length < fuel → Ends rest →
    value fuel (ws ++ (text ++ rest)) = some (j, rest)

theorem reads_number (read : number text = some (j, [])) : Reads text j := by
  intro fuel ws rest hws enough ends
  have all := number_append ends read
  obtain ⟨c, cs, rfl, start⟩ := head_of_number read
  have hc : blank c = false := by
    rcases start with rfl | digit
    · rfl
    · simp only [blank, Bool.or_eq_false_iff, decide_eq_false_iff_not]
      refine ⟨⟨⟨?_, ?_⟩, ?_⟩, ?_⟩ <;> rintro rfl <;> cases digit
  cases fuel with
  | zero => cases enough
  | succ fuel =>
    rw [List.cons_append, value_blanks hws hc, value, List.dropWhile_cons_of_neg (by simp [hc])]
    split
    case h_7 => exact all
    all_goals
      rename_i eq
      obtain ⟨rfl, -⟩ := List.cons.inj eq
      rcases start with sign | digit
      · cases sign
      · cases digit

theorem reads_null : Reads "null".toList null := by
  intro fuel ws rest hws enough ends
  cases fuel with
  | zero => cases enough
  | succ fuel =>
    show value (fuel + 1) (ws ++ 'n' :: _) = _
    rw [value_blanks hws rfl]
    rfl

theorem reads_true : Reads "true".toList (bool true) := by
  intro fuel ws rest hws enough ends
  cases fuel with
  | zero => cases enough
  | succ fuel =>
    show value (fuel + 1) (ws ++ 't' :: _) = _
    rw [value_blanks hws rfl]
    rfl

theorem reads_false : Reads "false".toList (bool false) := by
  intro fuel ws rest hws enough ends
  cases fuel with
  | zero => cases enough
  | succ fuel =>
    show value (fuel + 1) (ws ++ 'f' :: _) = _
    rw [value_blanks hws rfl]
    rfl

theorem stringText_append (s : String) (rest : List Char) :
    (stringText s).toList ++ rest = '"' :: (s.toList.flatMap escapedChar ++ '"' :: rest) := by
  rw [stringText, String.toList_ofList, List.append_assoc]
  rfl

theorem reads_string (s : String) : Reads (stringText s).toList (str s) := by
  intro fuel ws rest hws enough ends
  cases fuel with
  | zero => cases enough
  | succ fuel =>
    have quoted : value (fuel + 1) (ws ++ '"' :: (s.toList.flatMap escapedChar ++ '"' :: rest)) =
        (string (s.toList.flatMap escapedChar ++ '"' :: rest)).bind fun p =>
          some (p.1.elim unreadable str, p.2) := by
      rw [value_blanks hws rfl]
      rfl
    rw [stringText_append, quoted, string_escaped]
    rfl

/-! ## Containers -/

/-- Texts one behind the other, with commas and blanks between them. -/
def chained (blanks : List Char) (text : List Char) (more : List (List Char)) : List Char :=
  text ++ more.flatMap fun t => ',' :: (blanks ++ t)

theorem toList_intercalate (s : String) (t : String) (ts : List String) :
    (("," ++ s).intercalate (t :: ts)).toList = chained s.toList t.toList (ts.map String.toList) := by
  induction ts generalizing t with
  | nil => simp [chained]
  | cons u ts ih =>
    rw [String.intercalate_cons_cons, String.toList_append, ih, String.toList_append,
      String.toList_append]
    simp [chained]

theorem chained_cons_append (blanks text t : List Char) (more : List (List Char)) (rest : List Char) :
    chained blanks text (t :: more) ++ rest =
      text ++ ',' :: (blanks ++ (chained blanks t more ++ rest)) := by
  simp [chained]

theorem length_chained_cons (blanks text t : List Char) (more : List (List Char)) :
    (chained blanks text (t :: more)).length =
      text.length + 1 + blanks.length + (chained blanks t more).length := by
  simp [chained]
  omega

variable {blanks last : List Char}

theorem blanks_nil : Blanks [] := List.forall_mem_nil _

theorem elements_succ (fuel : Nat) (cs : List Char) : elements (fuel + 1) cs =
    (value fuel cs).bind fun p => match p.2.dropWhile blank with
      | ',' :: cs => (elements fuel cs).bind fun q => some (p.1 :: q.1, q.2)
      | ']' :: cs => some ([p.1], cs)
      | _ => none := rfl

theorem elements_last (hl : Blanks last) (item : value fuel cs = some (j, last ++ ']' :: rest)) :
    elements (fuel + 1) cs = some ([j], rest) := by
  rw [elements_succ, item, Option.bind_some]
  dsimp only
  rw [dropWhile_blank hl rfl]
  rfl

theorem elements_next {js : List Json} (item : value fuel cs = some (j, ',' :: text))
    (later : elements fuel text = some (js, rest)) :
    elements (fuel + 1) cs = some (j :: js, rest) := by
  rw [elements_succ, item]
  show (elements fuel text).bind _ = _
  rw [later]
  rfl

theorem elements_chained {texts : List (List Char)} {js : List Json} (hb : Blanks blanks)
    (hl : Blanks last) (first : Reads text j) (each : List.Forall₂ Reads texts js) :
    ∀ fuel ws rest, Blanks ws → (chained blanks text texts).length + 1 < fuel →
      elements fuel (ws ++ (chained blanks text texts ++ (last ++ ']' :: rest))) =
        some (j :: js, rest) := by
  induction each generalizing text j with
  | nil =>
    intro fuel ws rest hws enough
    cases fuel with
    | zero => cases enough
    | succ fuel =>
      have one : chained blanks text [] = text := List.append_nil _
      rw [one] at enough ⊢
      exact elements_last hl (first fuel ws _ hws (by omega) (ends_of_blanks hl (by decide)))
  | @cons u k us ks second _ ih =>
    intro fuel ws rest hws enough
    cases fuel with
    | zero => cases enough
    | succ fuel =>
      rw [length_chained_cons] at enough
      rw [chained_cons_append]
      refine elements_next (first fuel ws _ hws (by omega) ?_) (ih second fuel blanks rest hb (by omega))
      exact ends_cons (by decide)

theorem value_closing (fuel : Nat) (cs : List Char) (h : cs.dropWhile blank = ']' :: text) :
    value fuel cs = none := by
  rw [← value_dropWhile, h]
  cases fuel <;> rfl

theorem elements_dropWhile (fuel : Nat) (cs : List Char) :
    elements fuel (cs.dropWhile blank) = elements fuel cs := by
  cases fuel with
  | zero => rfl
  | succ fuel => rw [elements_succ, elements_succ, value_dropWhile]

theorem value_opening_bracket (hws : Blanks ws) (fuel : Nat) (cs : List Char) :
    value (fuel + 1) (ws ++ '[' :: cs) = match cs.dropWhile blank with
      | ']' :: cs => some (arr [], cs)
      | cs => (elements fuel cs).bind fun p => some (arr p.1, p.2) := by
  rw [value_blanks hws rfl]
  rfl

/-- An opening bracket before the items of an array. -/
theorem value_bracket {js : List Json} (hws : Blanks ws) (items : elements fuel cs = some (js, rest)) :
    value (fuel + 1) (ws ++ '[' :: cs) = some (arr js, rest) := by
  cases fuel with
  | zero => cases items
  | succ fuel =>
    have dropped : elements (fuel + 1) (cs.dropWhile blank) = some (js, rest) :=
      (elements_dropWhile _ cs).trans items
    rw [value_opening_bracket hws]
    split
    · rename_i closing
      rw [elements_succ, value_closing fuel cs closing] at items
      cases items
    · rw [dropped]
      rfl

theorem blanks_newLine (level : Nat) : Blanks (newLine level).toList := by
  rw [newLine, String.toList_ofList]
  intro c mem
  rcases List.mem_cons.mp mem with rfl | mem
  · rfl
  · rw [List.eq_of_mem_replicate mem]
    rfl

/-- A text that is read, as a string. -/
def ReadsString (text : String) (j : Json) : Prop := Reads text.toList j

theorem reads_array {texts : List String} {js : List Json} (level : Nat)
    (each : List.Forall₂ ReadsString texts js) :
    ReadsString (block level "[" "]" texts) (arr js) := by
  intro fuel ws rest hws enough ends
  cases each with
  | nil =>
    cases fuel with
    | zero => cases enough
    | succ fuel =>
      have chars : (block level "[" "]" []).toList = ['[', ']'] := by
        rw [block, String.toList_append]
        rfl
      rw [chars, List.cons_append, value_blanks hws rfl]
      rfl
  | @cons t j ts js first later =>
    cases fuel with
    | zero => cases enough
    | succ fuel =>
      have chars : (block level "[" "]" (t :: ts)).toList = '[' :: ((newLine (level + 1)).toList ++
          (chained (newLine (level + 1)).toList t.toList (ts.map String.toList) ++
            ((newLine level).toList ++ [']']))) := by
        rw [block]
        · simp only [String.toList_append, toList_intercalate, List.append_assoc]
          rfl
        · exact nofun
      rw [chars] at enough ⊢
      have long : 1 ≤ (newLine level).toList.length := by
        rw [newLine, String.toList_ofList]
        exact Nat.succ_pos _
      simp only [List.length_cons, List.length_append] at enough
      have items := elements_chained (blanks_newLine (level + 1)) (blanks_newLine level) first
        (List.forall₂_map_left_iff.mpr later) fuel (newLine (level + 1)).toList rest
        (blanks_newLine (level + 1)) (by omega)
      have read := value_bracket hws items
      simpa only [List.cons_append, List.append_assoc, List.nil_append] using read

/-! ## Objects -/

/-- A text that is read as a field of an object. -/
def ReadsField (text : String) (f : String × Json) : Prop :=
  ∃ body, text = stringText f.1 ++ ": " ++ body ∧ ReadsString body f.2

/-- Fields whose names can all be read. -/
def named (fields : List (String × Json)) : List (Option String × Json) :=
  fields.map fun f => (some f.1, f.2)

theorem object_named (fields : List (String × Json)) : object (named fields) = obj fields := by
  have all : (named fields).mapM (fun f => f.1.map (·, f.2)) = some fields := by
    rw [mapM_eq_some_iff, named, List.forall₂_map_left_iff, List.forall₂_same]
    exact fun f _ => rfl
  rw [object, all]

theorem members_dropWhile (fuel : Nat) (cs : List Char) :
    members fuel (cs.dropWhile blank) = members fuel cs := by
  cases fuel with
  | zero => rfl
  | succ fuel => rw [members, members, List.dropWhile_idempotent]

theorem members_quoted (hws : Blanks ws) (fuel : Nat) (cs : List Char) :
    members (fuel + 1) (ws ++ '"' :: cs) = (string cs).bind fun p =>
      match p.2.dropWhile blank with
      | ':' :: cs => (value fuel cs).bind fun q => match q.2.dropWhile blank with
        | ',' :: cs => (members fuel cs).bind fun r => some ((p.1, q.1) :: r.1, r.2)
        | '\x7d' :: cs => some ([(p.1, q.1)], cs)
        | _ => none
      | _ => none := by
  rw [← members_dropWhile, dropWhile_blank hws rfl]
  rfl

/-- A field and what comes behind it. -/
theorem members_field {body : String} {k : String} (hws : Blanks ws) :
    members (fuel + 1) (ws ++ ((stringText k ++ ": " ++ body).toList ++ rest)) =
      (value fuel (' ' :: (body.toList ++ rest))).bind fun p => match p.2.dropWhile blank with
        | ',' :: cs => (members fuel cs).bind fun q => some ((some k, p.1) :: q.1, q.2)
        | '\x7d' :: cs => some ([(some k, p.1)], cs)
        | _ => none := by
  have chars : (stringText k ++ ": " ++ body).toList ++ rest =
      '"' :: (k.toList.flatMap escapedChar ++ '"' :: ':' :: ' ' :: (body.toList ++ rest)) := by
    rw [String.toList_append, String.toList_append, List.append_assoc, List.append_assoc,
      stringText_append]
    rfl
  rw [chars, members_quoted hws, string_escaped]
  rfl

theorem length_field (k body : String) :
    body.toList.length + 2 < (stringText k ++ ": " ++ body).toList.length := by
  rw [stringText]
  simp only [String.toList_append, List.length_append, String.toList_ofList, List.length_cons]
  have two : ": ".toList.length = 2 := rfl
  omega

theorem blanks_space : Blanks [' '] := by
  intro c mem
  rw [List.mem_singleton.mp mem]
  rfl

theorem members_chained {text : String} {texts : List String} {f : String × Json}
    {fs : List (String × Json)} (hb : Blanks blanks) (hl : Blanks last) (first : ReadsField text f)
    (each : List.Forall₂ ReadsField texts fs) :
    ∀ fuel ws rest, Blanks ws →
      (chained blanks text.toList (texts.map String.toList)).length < fuel →
      members fuel (ws ++ (chained blanks text.toList (texts.map String.toList) ++
        (last ++ '\x7d' :: rest))) = some (named (f :: fs), rest) := by
  induction each generalizing text f with
  | nil =>
    obtain ⟨body, rfl, reads⟩ := first
    intro fuel ws rest hws enough
    cases fuel with
    | zero => cases enough
    | succ fuel =>
      rw [List.map_nil, chained, List.flatMap_nil, List.append_nil] at enough ⊢
      have short := length_field f.1 body
      rw [members_field hws, ← List.singleton_append,
        reads fuel [' '] _ blanks_space (by omega) (ends_of_blanks hl (by decide)), Option.bind_some]
      dsimp only
      rw [dropWhile_blank hl rfl]
      rfl
  | @cons u g us gs second _ ih =>
    obtain ⟨body, rfl, reads⟩ := first
    intro fuel ws rest hws enough
    cases fuel with
    | zero => cases enough
    | succ fuel =>
      rw [List.map_cons, length_chained_cons] at enough
      have short := length_field f.1 body
      rw [List.map_cons, chained_cons_append, members_field hws, ← List.singleton_append,
        reads fuel [' '] _ blanks_space (by omega) (ends_cons (by decide)), Option.bind_some]
      dsimp only
      rw [List.dropWhile_cons_of_neg (by decide)]
      show (members fuel (blanks ++ _)).bind _ = _
      rw [ih second fuel blanks rest hb (by omega)]
      rfl

theorem members_closing (fuel : Nat) (cs : List Char) (h : cs.dropWhile blank = '\x7d' :: text) :
    members fuel cs = none := by
  rw [← members_dropWhile, h]
  cases fuel <;> rfl

theorem value_opening_brace (hws : Blanks ws) (fuel : Nat) (cs : List Char) :
    value (fuel + 1) (ws ++ '\x7b' :: cs) = match cs.dropWhile blank with
      | '\x7d' :: cs => some (obj [], cs)
      | cs => (members fuel cs).bind fun p => some (object p.1, p.2) := by
  rw [value_blanks hws rfl]
  rfl

/-- An opening brace before the fields of an object. -/
theorem value_brace {fields : List (Option String × Json)} (hws : Blanks ws)
    (read : members fuel cs = some (fields, rest)) :
    value (fuel + 1) (ws ++ '\x7b' :: cs) = some (object fields, rest) := by
  cases fuel with
  | zero => cases read
  | succ fuel =>
    have dropped : members (fuel + 1) (cs.dropWhile blank) = some (fields, rest) :=
      (members_dropWhile _ cs).trans read
    rw [value_opening_brace hws]
    split
    · rename_i closing
      rw [members_closing _ cs closing] at read
      cases read
    · rw [dropped]
      rfl

theorem reads_object {texts : List String} {fs : List (String × Json)} (level : Nat)
    (each : List.Forall₂ ReadsField texts fs) :
    ReadsString (block level "\x7b" "\x7d" texts) (obj fs) := by
  intro fuel ws rest hws enough ends
  cases each with
  | nil =>
    cases fuel with
    | zero => cases enough
    | succ fuel =>
      have chars : (block level "\x7b" "\x7d" []).toList = ['\x7b', '\x7d'] := by
        rw [block, String.toList_append]
        rfl
      rw [chars, List.cons_append, value_blanks hws rfl]
      rfl
  | @cons t f ts fs first later =>
    cases fuel with
    | zero => cases enough
    | succ fuel =>
      have chars : (block level "\x7b" "\x7d" (t :: ts)).toList =
          '\x7b' :: ((newLine (level + 1)).toList ++
          (chained (newLine (level + 1)).toList t.toList (ts.map String.toList) ++
            ((newLine level).toList ++ ['\x7d']))) := by
        rw [block]
        · simp only [String.toList_append, toList_intercalate, List.append_assoc]
          rfl
        · exact nofun
      rw [chars] at enough ⊢
      simp only [List.length_cons, List.length_append] at enough
      have fields := members_chained (blanks_newLine (level + 1)) (blanks_newLine level) first later
        fuel (newLine (level + 1)).toList rest (blanks_newLine (level + 1)) (by omega)
      have read := value_brace hws fields
      rw [object_named] at read
      simpa only [List.cons_append, List.append_assoc, List.nil_append] using read

/-! ## Values -/

mutual

/-- What a value is read as when it is written: numbers keep their value if their text does, and a double
    that is not finite becomes `null`. -/
inductive Reread : Json → Json → Prop
  | null : Reread null null
  | bool (b : Bool) : Reread (bool b) (bool b)
  | natural {n : Nat} (fits : n < significandBound) : Reread (num (.natural n)) (num (.natural n))
  | negative {n : Nat} (pos : 0 < n) (fits : n ≤ 0x8000000000000000) :
      Reread (num (.negative n)) (num (.negative n))
  | real {x : Float} (read : number (realText x).toList = some (num (.real x), [])) :
      Reread (num (.real x)) (num (.real x))
  | notFinite {x : Float} (h : x.isFinite = false) : Reread (num (.real x)) null
  | str (s : String) : Reread (str s) (str s)
  | arr {js ks : List Json} (items : RereadItems js ks) : Reread (arr js) (arr ks)
  | obj {fs gs : List (String × Json)} (fields : RereadFields fs gs) : Reread (obj fs) (obj gs)

inductive RereadItems : List Json → List Json → Prop
  | nil : RereadItems [] []
  | cons {j k : Json} {js ks : List Json} (first : Reread j k) (rest : RereadItems js ks) :
      RereadItems (j :: js) (k :: ks)

inductive RereadFields : List (String × Json) → List (String × Json) → Prop
  | nil : RereadFields [] []
  | cons {name : String} {j k : Json} {fs gs : List (String × Json)} (first : Reread j k)
      (rest : RereadFields fs gs) : RereadFields ((name, j) :: fs) ((name, k) :: gs)

end

mutual

theorem Reread.reads {j k : Json} (h : Reread j k) (level : Nat) : ReadsString (textAt level j) k := by
  cases h with
  | null =>
    rw [textAt]
    exact reads_null
  | bool b =>
    rw [textAt]
    cases b
    · exact reads_false
    · exact reads_true
  | natural fits =>
    rw [textAt, numberText, ReadsString, String.toList_ofList]
    exact reads_number (number_natural fits)
  | negative pos fits =>
    rw [textAt, numberText, ReadsString, String.toList_ofList]
    exact reads_number (number_negative pos fits)
  | real read =>
    rw [textAt, numberText]
    exact reads_number read
  | notFinite h =>
    rw [textAt, numberText, realText, h]
    exact reads_null
  | str s =>
    rw [textAt]
    exact reads_string s
  | arr items =>
    rw [textAt]
    exact reads_array level (items.reads (level + 1))
  | obj fields =>
    rw [textAt]
    exact reads_object level (fields.reads (level + 1))

theorem RereadItems.reads {js ks : List Json} (h : RereadItems js ks) (level : Nat) :
    List.Forall₂ ReadsString (itemTexts level js) ks := by
  cases h with
  | nil => exact .nil
  | cons first rest => exact .cons (first.reads level) (rest.reads level)

theorem RereadFields.reads {fs gs : List (String × Json)} (h : RereadFields fs gs) (level : Nat) :
    List.Forall₂ ReadsField (fieldTexts level fs) gs := by
  cases h with
  | nil => exact .nil
  | @cons name j k fs gs first rest =>
    exact .cons ⟨textAt level j, rfl, first.reads level⟩ (rest.reads level)

end

/-- The text of a value is well formed, and read as it says. -/
theorem parse_text {j k : Json} (h : Reread j k) : parse j.text = some k := by
  have read := h.reads 0 (j.text.length + 1) [] [] blanks_nil
    (by rw [← String.length_toList]; exact Nat.lt_succ_self _) Ends.nil
  rw [List.nil_append, List.append_nil] at read
  have all : value (j.text.length + 1) j.text.toList = some (k, []) := read
  rw [parse, all]
  rfl

end Regraft.Json
