import Regraft.Graph.Op
import Regraft.Proofs.Term.Store
import Regraft.Session.Basic
import Mathlib.Data.List.Basic

/-
  Normal forms of exported names. Normalizing takes a path, one suffix and one output index off a name.
  What is left is bare when nothing more could be taken off, and the names of which a bare operator is
  left are those that are exported: a path, the operator, and at most one suffix and one index
  (`exported_iff_bare`). For exactly these a second pass changes nothing (`again_iff_exported`). The
  names of operations are bare, so that what is normalized names no other operation than before
  (`Op.ofName?_tag`).
-/

namespace Regraft

namespace OpName

variable {sep c : Char} {cs head tail : List Char}

/-! ## The last separator -/

theorem splitLast_eq_none_iff : splitLast sep cs = none ↔ sep ∉ cs := by
  induction cs with
  | nil => simp [splitLast]
  | cons c rest ih =>
    rw [splitLast, List.mem_cons, not_or, ← ih]
    cases splitLast sep rest with
    | some p => simp
    | none => simp [eq_comm]

theorem splitLast_append (absent : sep ∉ tail) :
    splitLast sep (head ++ sep :: tail) = some (head, tail) := by
  induction head with
  | nil =>
    rw [List.nil_append, splitLast, splitLast_eq_none_iff.mpr absent]
    exact if_pos rfl
  | cons c head ih => rw [List.cons_append, splitLast, ih]

theorem eq_append_of_splitLast (h : splitLast sep cs = some (head, tail)) :
    cs = head ++ sep :: tail ∧ sep ∉ tail := by
  induction cs generalizing head with
  | nil => cases h
  | cons c rest ih =>
    rw [splitLast] at h
    cases last : splitLast sep rest with
    | some p =>
      rw [last] at h
      cases h
      obtain ⟨rfl, absent⟩ := ih last
      exact ⟨rfl, absent⟩
    | none =>
      rw [last] at h
      dsimp only at h
      split at h
      · rename_i eq
        cases h
        exact ⟨eq ▸ rfl, splitLast_eq_none_iff.mp last⟩
      · cases h

/-! ## Output indices -/

/-- An output index is spelled with digits and a plus sign. -/
theorem mem_of_index? {n : UInt32} (h : index? cs = some n) (hc : c ∈ cs) : c = '+' ∨ c.isDigit = true := by
  have digits : ∀ {cs}, digitsValue? cs = some n → ∀ c ∈ cs, c.isDigit = true := by
    intro cs h
    unfold digitsValue? at h
    split at h
    · rename_i all
      exact List.all_eq_true.mp all.2
    · cases h
  unfold index? at h
  split at h
  · rcases List.mem_cons.mp hc with rfl | hc
    · exact .inl rfl
    · exact .inr (digits h c hc)
  · exact .inr (digits h c hc)

theorem not_mem_of_index? {n : UInt32} (h : index? cs = some n) (plus : c ≠ '+') (digit : c.isDigit = false) :
    c ∉ cs := by
  intro hc
  rcases mem_of_index? h hc with eq | eq
  · exact plus eq
  · rw [digit] at eq
    cases eq

/-! ## The parts of a name -/

/-- Nothing, or what ends in a slash. -/
inductive IsPath : List Char → Prop
  | none : IsPath []
  | some (dirs : List Char) : IsPath (dirs ++ ['/'])

/-- What may stand behind an operator: nothing, or an underscore and digits if there is an operator. -/
inductive IsSuffix (op : List Char) : List Char → Prop
  | none : IsSuffix op []
  | some {ds : List Char} (named : op ≠ []) (some : ds ≠ [])
      (digits : ds.all Char.isDigit = true) : IsSuffix op ('_' :: ds)

/-- What may stand at the end: nothing, or a colon and an output index. -/
inductive Spells : List Char → Option UInt32 → Prop
  | none : Spells [] none
  | some {ds : List Char} {n : UInt32} (index : index? ds = some n) : Spells (':' :: ds) (some n)

/-- There is no path, no output index and no suffix that could be taken off. -/
structure Bare (cs : List Char) : Prop where
  path : '/' ∉ cs
  index : ∀ head tail n, index? tail = some n → cs ≠ head ++ ':' :: tail
  suffix : ∀ head tail, head ≠ [] → tail ≠ [] → tail.all Char.isDigit = true →
    cs ≠ head ++ '_' :: tail

/-- A name as it is exported: a path, a bare operator, at most one suffix and at most one output
    index. -/
structure Exported (raw : String) (op : List Char) (output : Option UInt32) : Prop where
  bare : Bare op
  spelled : ∃ path suffix index, raw.toList = path ++ (op ++ suffix ++ index) ∧ IsPath path ∧
    IsSuffix op suffix ∧ Spells index output

/-- What normalizing leaves of a name, in upper and lower case as before. -/
def base (raw : String) : List Char := dropSuffix (dropOutput (lastSegment raw.toList)).1

theorem normalize_eq (raw : String) : normalize raw =
    ⟨String.ofList ((base raw).map Char.toLower), (dropOutput (lastSegment raw.toList)).2⟩ := rfl

variable {op suffix index path ds : List Char} {output : Option UInt32} {n : UInt32} {raw : String}

/-! ## What is taken off -/

theorem lastSegment_spec (cs : List Char) :
    (∃ path, IsPath path ∧ cs = path ++ lastSegment cs) ∧ '/' ∉ lastSegment cs := by
  unfold lastSegment
  cases h : splitLast '/' cs with
  | none => exact ⟨⟨[], .none, rfl⟩, splitLast_eq_none_iff.mp h⟩
  | some p =>
    obtain ⟨rfl, absent⟩ := eq_append_of_splitLast h
    exact ⟨⟨_, .some p.1, by simp⟩, absent⟩

theorem dropOutput_spec (cs : List Char) :
    ∃ index, Spells index (dropOutput cs).2 ∧ cs = (dropOutput cs).1 ++ index := by
  unfold dropOutput
  cases h : splitLast ':' cs with
  | none => exact ⟨[], .none, by simp⟩
  | some p =>
    obtain ⟨rfl, -⟩ := eq_append_of_splitLast h
    dsimp only
    cases index : index? p.2 with
    | none => exact ⟨[], .none, by simp⟩
    | some n => exact ⟨_, .some index, rfl⟩

theorem dropSuffix_spec (cs : List Char) :
    ∃ suffix, IsSuffix (dropSuffix cs) suffix ∧ cs = dropSuffix cs ++ suffix := by
  unfold dropSuffix
  cases h : splitLast '_' cs with
  | none => exact ⟨[], .none, by simp⟩
  | some p =>
    obtain ⟨rfl, -⟩ := eq_append_of_splitLast h
    dsimp only
    split
    · rename_i can
      exact ⟨_, .some can.1 can.2.1 can.2.2, rfl⟩
    · exact ⟨[], .none, by simp⟩

/-- A name is a path, what normalizing leaves of it, a suffix and an output index. -/
theorem spelled_base (raw : String) : ∃ path suffix index,
    raw.toList = path ++ (base raw ++ suffix ++ index) ∧ IsPath path ∧ IsSuffix (base raw) suffix ∧
      Spells index (normalize raw).output := by
  obtain ⟨⟨path, isPath, split⟩, -⟩ := lastSegment_spec raw.toList
  obtain ⟨index, spells, split'⟩ := dropOutput_spec (lastSegment raw.toList)
  obtain ⟨suffix, isSuffix, split''⟩ := dropSuffix_spec (dropOutput (lastSegment raw.toList)).1
  refine ⟨path, suffix, index, ?_, isPath, isSuffix, spells⟩
  unfold base
  rw [← split'', ← split', ← split]

/-! ## Bare operators -/

theorem lastSegment_append (h : IsPath path) (absent : '/' ∉ cs) : lastSegment (path ++ cs) = cs := by
  unfold lastSegment
  cases h with
  | none => rw [List.nil_append, splitLast_eq_none_iff.mpr absent]
  | some dirs => rw [List.append_assoc, List.singleton_append, splitLast_append absent]

/-- Without an output index at the end nothing is taken off. -/
theorem dropOutput_eq_self (h : ∀ head tail n, index? tail = some n → cs ≠ head ++ ':' :: tail) :
    dropOutput cs = (cs, none) := by
  unfold dropOutput
  cases split : splitLast ':' cs with
  | none => rfl
  | some p =>
    dsimp only
    cases spelled : index? p.2 with
    | none => rfl
    | some n => exact absurd (eq_append_of_splitLast split).1 (h _ _ n spelled)

theorem dropOutput_append (h : index? ds = some n) :
    dropOutput (cs ++ ':' :: ds) = (cs, some n) := by
  have absent : ':' ∉ ds := not_mem_of_index? h (by decide) (by decide)
  unfold dropOutput
  simp only [splitLast_append absent, h]

/-- No output index ends in a suffix. -/
theorem Bare.index_append (bare : Bare op) (h : IsSuffix op suffix) (head tail : List Char)
    (n : UInt32) (spelled : index? tail = some n) : op ++ suffix ≠ head ++ ':' :: tail := by
  cases h with
  | none =>
    rw [List.append_nil]
    exact bare.index head tail n spelled
  | @some ds named some digits =>
    intro eq
    have colon : ':' ∉ '_' :: ds := by
      rw [List.mem_cons, not_or]
      exact ⟨by decide, fun mem => by simpa using List.all_eq_true.mp digits _ mem⟩
    rcases List.append_eq_append_iff.mp eq with ⟨as, -, eq⟩ | ⟨bs, -, eq⟩
    · exact colon (eq ▸ by simp)
    · cases bs with
      | nil => cases eq
      | cons b bs =>
        obtain ⟨-, rfl⟩ := List.cons.inj eq
        have absent : '_' ∉ bs ++ '_' :: ds := not_mem_of_index? spelled (by decide) (by decide)
        exact absent (by simp)

theorem Bare.dropOutput_append (bare : Bare op) (h : IsSuffix op suffix) (spells : Spells index output) :
    dropOutput (op ++ suffix ++ index) = (op ++ suffix, output) := by
  cases spells with
  | none => rw [List.append_nil, dropOutput_eq_self (bare.index_append h)]
  | some index => exact OpName.dropOutput_append index

theorem dropSuffix_append (h : cs ≠ [] ∧ ds ≠ [] ∧ ds.all Char.isDigit = true) :
    dropSuffix (cs ++ '_' :: ds) = cs := by
  have absent : '_' ∉ ds := fun mem => by simpa using List.all_eq_true.mp h.2.2 _ mem
  unfold dropSuffix
  rw [splitLast_append absent]
  exact if_pos h

theorem Bare.dropSuffix_append (bare : Bare op) (h : IsSuffix op suffix) :
    dropSuffix (op ++ suffix) = op := by
  cases h with
  | none =>
    rw [List.append_nil]
    unfold dropSuffix
    cases split : splitLast '_' op with
    | none => rfl
    | some p =>
      have eq := (eq_append_of_splitLast split).1
      exact if_neg fun can => bare.suffix _ _ can.1 can.2.1 can.2.2 eq
  | some named some digits => exact OpName.dropSuffix_append ⟨named, some, digits⟩

theorem Bare.slash_not_mem (bare : Bare op) (h : IsSuffix op suffix) (spells : Spells index output) :
    '/' ∉ op ++ suffix ++ index := by
  simp only [List.mem_append, not_or]
  refine ⟨⟨bare.path, ?_⟩, ?_⟩
  · cases h with
    | none => simp
    | some named some digits =>
      have no := List.all_eq_true.mp digits
      simp only [List.mem_cons, not_or]
      exact ⟨by decide, fun mem => by simpa using no _ mem⟩
  · cases spells with
    | none => simp
    | some index =>
      simp only [List.mem_cons, not_or]
      exact ⟨by decide, not_mem_of_index? index (by decide) (by decide)⟩

/-- Of an exported name the operator is left, and the output index is the one that is spelled. -/
theorem Exported.base_eq (h : Exported raw op output) :
    base raw = op ∧ (normalize raw).output = output := by
  obtain ⟨bare, path, suffix, index, eq, isPath, isSuffix, spells⟩ := h
  have segment : lastSegment raw.toList = op ++ suffix ++ index := by
    rw [eq, lastSegment_append isPath (bare.slash_not_mem isSuffix spells)]
  have output := bare.dropOutput_append isSuffix spells
  rw [base, normalize_eq, segment, output]
  exact ⟨bare.dropSuffix_append isSuffix, rfl⟩

theorem Exported.normalize_eq (h : Exported raw op output) :
    normalize raw = ⟨String.ofList (op.map Char.toLower), output⟩ := by
  obtain ⟨rfl, rfl⟩ := h.base_eq
  rfl

example : normalize "model/Add_3:0" = ⟨"add", some 0⟩ := by decide

/-- Names are exported when a bare operator is left of them. -/
theorem exported_iff_bare :
    Exported raw op output ↔ base raw = op ∧ (normalize raw).output = output ∧ Bare op := by
  constructor
  · exact fun h => ⟨h.base_eq.1, h.base_eq.2, h.bare⟩
  · rintro ⟨rfl, rfl, bare⟩
    exact ⟨bare, spelled_base raw⟩

/-! ## Lower case -/

theorem toLower_eq_or (c : Char) : c.toLower = c ∨ 97 ≤ c.toLower.toNat ∧ c.toLower.toNat ≤ 122 := by
  unfold Char.toLower
  split
  · rename_i upper
    have low : 65 ≤ c.val.toNat := UInt32.le_iff_toNat_le.mp upper.1
    have high : c.val.toNat ≤ 90 := UInt32.le_iff_toNat_le.mp upper.2
    have add : (c.val + ('a'.val - 'A'.val)).toNat = c.val.toNat + 32 := by
      rw [UInt32.toNat_add]
      exact Nat.mod_eq_of_lt (by change c.val.toNat + 32 < _; omega)
    change _ ∨ 97 ≤ (c.val + _).toNat ∧ (c.val + _).toNat ≤ 122
    omega
  · exact .inl rfl

/-- The letters are those of upper case and those of lower case. -/
theorem isAlpha_iff {c : Char} : c.isAlpha = true ↔
    65 ≤ c.toNat ∧ c.toNat ≤ 90 ∨ 97 ≤ c.toNat ∧ c.toNat ≤ 122 := by
  delta Char.isAlpha Char.isUpper Char.isLower
  simp only [Bool.or_eq_true, Bool.and_eq_true, decide_eq_true_eq, ge_iff_le, UInt32.le_iff_toNat_le]
  rfl

/-- A character that is no letter is the lower case of itself alone. -/
theorem toLower_eq_iff {c d : Char} (h : d.isAlpha = false) : c.toLower = d ↔ c = d := by
  have noLetter : ¬ d.isAlpha = true := Bool.not_eq_true _ ▸ h
  constructor
  · rintro rfl
    exact ((toLower_eq_or c).resolve_right fun letter => noLetter (isAlpha_iff.mpr (.inr letter))).symm
  · rintro rfl
    refine dif_neg fun upper => noLetter (isAlpha_iff.mpr (.inl ?_))
    exact ⟨UInt32.le_iff_toNat_le.mp upper.1, UInt32.le_iff_toNat_le.mp upper.2⟩

theorem map_toLower_eq_iff (h : ∀ c ∈ ds, c.isAlpha = false) : cs.map Char.toLower = ds ↔ cs = ds := by
  induction ds generalizing cs with
  | nil => exact List.map_eq_nil_iff
  | cons d ds ih =>
    rw [List.forall_mem_cons] at h
    cases cs with
    | nil => simp
    | cons c cs => rw [List.map_cons, List.cons.injEq, List.cons.injEq, toLower_eq_iff h.1, ih h.2]

theorem not_isAlpha_of_isDigit {c : Char} (h : c.isDigit = true) : c.isAlpha = false := by
  simp only [Char.isDigit, Bool.and_eq_true, decide_eq_true_eq] at h
  have high : c.toNat ≤ 57 := UInt32.le_iff_toNat_le.mp h.2
  rw [← Bool.not_eq_true, isAlpha_iff]
  omega

theorem not_isAlpha_of_index? (h : index? ds = some n) : ∀ c ∈ ds, c.isAlpha = false := by
  intro c hc
  rcases mem_of_index? h hc with rfl | digit
  · decide
  · exact not_isAlpha_of_isDigit digit

/-- An end without letters is in lower case what it was before. -/
theorem map_toLower_eq_append_iff (hsep : sep.isAlpha = false)
    (htail : ∀ c ∈ tail, c.isAlpha = false) : cs.map Char.toLower = head ++ sep :: tail ↔
      ∃ front, cs = front ++ sep :: tail ∧ front.map Char.toLower = head := by
  have plain : ∀ c ∈ sep :: tail, c.isAlpha = false := List.forall_mem_cons.mpr ⟨hsep, htail⟩
  rw [List.map_eq_append_iff]
  constructor
  · rintro ⟨front, back, rfl, lower, same⟩
    exact ⟨front, by rw [(map_toLower_eq_iff plain).mp same], lower⟩
  · rintro ⟨front, rfl, lower⟩
    exact ⟨front, _, rfl, lower, (map_toLower_eq_iff plain).mpr rfl⟩

/-- A name is bare or not in upper and lower case alike. -/
theorem bare_map_toLower : Bare (cs.map Char.toLower) ↔ Bare cs := by
  have slash : '/' ∈ cs.map Char.toLower ↔ '/' ∈ cs := by simp [toLower_eq_iff]
  have index : ∀ {tail n}, index? tail = some n → ∀ {head}, cs.map Char.toLower = head ++ ':' :: tail ↔
      ∃ front, cs = front ++ ':' :: tail ∧ front.map Char.toLower = head := fun spelled =>
    map_toLower_eq_append_iff (by decide) (not_isAlpha_of_index? spelled)
  have suffix : ∀ {tail}, tail.all Char.isDigit = true → ∀ {head}, cs.map Char.toLower =
      head ++ '_' :: tail ↔ ∃ front, cs = front ++ '_' :: tail ∧ front.map Char.toLower = head :=
    fun digits => map_toLower_eq_append_iff (by decide) fun c hc =>
      not_isAlpha_of_isDigit (List.all_eq_true.mp digits c hc)
  constructor
  · refine fun bare => ⟨fun mem => bare.path (slash.mpr mem), fun head tail n spelled eq => ?_,
      fun head tail named some digits eq => ?_⟩
    · exact bare.index _ tail n spelled ((index spelled).mpr ⟨head, eq, rfl⟩)
    · exact bare.suffix _ tail (by simpa using named) some digits ((suffix digits).mpr ⟨head, eq, rfl⟩)
  · refine fun bare => ⟨fun mem => bare.path (slash.mp mem), fun head tail n spelled eq => ?_,
      fun head tail named some digits eq => ?_⟩
    · obtain ⟨front, eq, -⟩ := (index spelled).mp eq
      exact bare.index front tail n spelled eq
    · obtain ⟨front, split, rfl⟩ := (suffix digits).mp eq
      exact bare.suffix front tail (by simpa using named) some digits split

/-! ## Normalizing again -/

theorem slash_not_mem_base (raw : String) : '/' ∉ base raw := by
  have absent := (lastSegment_spec raw.toList).2
  obtain ⟨index, -, split⟩ := dropOutput_spec (lastSegment raw.toList)
  obtain ⟨suffix, -, split'⟩ := dropSuffix_spec (dropOutput (lastSegment raw.toList)).1
  rw [split, split'] at absent
  simp only [List.mem_append, not_or] at absent
  exact absent.1.1

/-- A name that normalizing leaves as it is has lost nothing. -/
theorem base_of_normalize (h : normalize raw = ⟨raw, none⟩) : base raw = raw.toList := by
  have lower : (base raw).map Char.toLower = raw.toList := by
    have name := congrArg (·.name.toList) h
    rwa [normalize_eq, String.toList_ofList] at name
  obtain ⟨path, suffix, index, eq, -⟩ := spelled_base raw
  have length := congrArg List.length lower
  rw [List.length_map, eq] at length
  simp only [List.length_append] at length
  rw [eq, List.length_eq_zero_iff.mp (show path.length = 0 by omega),
    List.length_eq_zero_iff.mp (show suffix.length = 0 by omega),
    List.length_eq_zero_iff.mp (show index.length = 0 by omega), List.append_nil, List.append_nil,
    List.nil_append]

/-- Normalizing changes nothing about a bare name in lower case, and about no other name. -/
theorem normalize_eq_self_iff :
    normalize raw = ⟨raw, none⟩ ↔ Bare raw.toList ∧ raw.toList.map Char.toLower = raw.toList := by
  constructor
  · intro h
    have same := base_of_normalize h
    have absent : '/' ∉ raw.toList := same ▸ slash_not_mem_base raw
    have segment : lastSegment raw.toList = raw.toList := lastSegment_append .none absent
    have none : (dropOutput raw.toList).2 = none := by
      have output := congrArg OpName.output h
      rwa [normalize_eq, segment] at output
    have output : dropOutput raw.toList = (raw.toList, .none) := by
      obtain ⟨index, spells, eq⟩ := dropOutput_spec raw.toList
      rw [none] at spells
      cases spells
      rw [List.append_nil] at eq
      exact Prod.ext eq.symm none
    have suffix : dropSuffix raw.toList = raw.toList := by
      rw [base, segment, output] at same
      exact same
    refine ⟨⟨absent, fun head tail n spelled split => ?_, fun head tail named some digits split => ?_⟩,
      ?_⟩
    · rw [split, dropOutput_append spelled] at none
      cases none
    · have length := congrArg List.length suffix
      rw [split, dropSuffix_append ⟨named, some, digits⟩, List.length_append, List.length_cons] at length
      omega
    · have name := congrArg (·.name.toList) h
      rwa [normalize_eq, String.toList_ofList, same] at name
  · rintro ⟨bare, lower⟩
    have exported : Exported raw raw.toList none := ⟨bare, [], [], [], by simp, .none, .none, .none⟩
    rw [exported.normalize_eq, lower, String.ofList_toList]

theorem toLower_toLower (c : Char) : c.toLower.toLower = c.toLower := by
  rcases toLower_eq_or c with eq | letter
  · rw [eq, eq]
  · generalize c.toLower = d at letter
    refine dif_neg fun upper => ?_
    have high : d.toNat ≤ 90 := UInt32.le_iff_toNat_le.mp upper.2
    omega

/-- A second pass changes nothing about the names that are exported, and about no other name. -/
theorem again_iff_exported : normalize (normalize raw).name = ⟨(normalize raw).name, none⟩ ↔
    ∃ op output, Exported raw op output := by
  have name : (normalize raw).name.toList = (base raw).map Char.toLower := String.toList_ofList
  rw [normalize_eq_self_iff, name, bare_map_toLower, List.map_map]
  simp only [exported_iff_bare]
  constructor
  · exact fun h => ⟨_, _, rfl, rfl, h.1⟩
  · rintro ⟨_, _, rfl, rfl, bare⟩
    exact ⟨bare, List.map_congr_left fun c _ => toLower_toLower c⟩

end OpName

/-! ## Names of operations -/

open OpName

/-- What names an operation is exported. -/
theorem Op.exported_of_ofName? {raw : String} {g : Op} (h : Op.ofName? raw = some g) :
    ∃ op output, Exported raw op output := by
  have fixed : ∀ e ∈ aliases, ∀ name ∈ e.2, normalize name = ⟨name, none⟩ := by decide
  rw [← again_iff_exported]
  obtain ⟨e, found, -⟩ := Option.map_eq_some_iff.mp h
  have named := List.find?_some found
  exact fixed e (List.mem_of_find?_eq_some found) _ (List.contains_iff_mem.mp named)

/-- The tag of an exported name names the same operation as the name. -/
theorem Op.ofName?_tag {raw : String} {op : List Char} {output : Option UInt32}
    (h : Exported raw op output) : Op.ofName? (normalize raw).name = Op.ofName? raw := by
  unfold Op.ofName?
  rw [again_iff_exported.mpr ⟨op, output, h⟩]

/-- The application that is made of an exported name. -/
theorem Session.app?_op (raw : String) (args : List TermId) (ses : Session) :
    (Session.op raw args ses).2.store.app? (Session.op raw args ses).1 =
      some ((normalize raw).name, args, { Attrs.unspecified with output := (normalize raw).output }) :=
  Store.app?_eq_some_iff.mpr (Store.term?_app _ _ _ _)

/-- A name is normalized once and for all exactly when it is exported, and then its operator is left in
    lower case. The application that is made of it has a tag that names the same operation; the tag of
    any other name may name an operation where the name itself names none. -/
theorem Session.tag_iff_exported (raw : String) :
    (normalize (normalize raw).name = ⟨(normalize raw).name, none⟩ ↔
      ∃ op output, Exported raw op output) ∧
    (∀ op output, Exported raw op output →
      normalize raw = ⟨String.ofList (op.map Char.toLower), output⟩) ∧
    ∀ args ses, ∃ tag, (Session.op raw args ses).2.store.app? (Session.op raw args ses).1 =
        some (tag, args, { Attrs.unspecified with output := (normalize raw).output }) ∧
      (∀ op output, Exported raw op output → Op.ofName? tag = Op.ofName? raw) ∧
      ∀ g, Op.ofName? raw = some g → Op.ofName? tag = some g := by
  refine ⟨again_iff_exported, fun op output h => h.normalize_eq, fun args ses =>
    ⟨_, app?_op raw args ses, fun op output h => Op.ofName?_tag h, fun g h => ?_⟩⟩
  obtain ⟨op, output, exported⟩ := Op.exported_of_ofName? h
  rw [Op.ofName?_tag exported, h]

/-- Of two suffixes, and of two output indices, one is left and goes with the next pass; the tag of a
    name without an operation then names one. -/
theorem Session.not_again_twoSuffixes :
    normalize "add_1_2" = ⟨"add_1", none⟩ ∧ normalize "add_1" = ⟨"add", none⟩ ∧
      Op.ofName? "add_1_2" = none ∧ Op.ofName? (normalize "add_1_2").name = some (.binary .add) ∧
      normalize "neg:1:0" = ⟨"neg:1", some 0⟩ ∧ normalize "neg:1" = ⟨"neg", some 1⟩ := by
  decide

end Regraft
