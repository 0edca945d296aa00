import Mathlib.Data.List.Chain
import Mathlib.Data.List.GetD
import Mathlib.Data.List.Lex
import Mathlib.Data.Nat.Factorial.Basic
import Regraft.Proofs.Match.Enumeration

/-
  Orders in lexicographic succession. The next order can be made from the one before: the last entry that
  a larger one follows directly changes places with the last larger entry behind it, and what is behind
  its place is turned around (`successor`). No permutation is between an order and its successor
  (`exists_successor`), and only the last order has none (`descending_of_lastAscent_eq_none`,
  `le_of_descending`). The orders that the numbering runs through ascend strictly, start with the identity
  and are all permutations, so that each is the successor of the one before
  (`Orders.toList_all_succession`).
-/

namespace Regraft

/-! ## Permutations in lexicographic order -/

theorem cons_le_cons_of_le {x y : Nat} {xs ys : List Nat} (head : x ≤ y) (tail : x = y → xs ≤ ys) :
    x :: xs ≤ y :: ys := by
  rcases Nat.lt_or_eq_of_le head with lt | rfl
  · exact le_of_lt (List.cons_lt_cons_iff.mpr (.inl lt))
  · exact List.cons_le_cons x (tail rfl)

/-- Entries in ascending order come before all their permutations. -/
theorem le_of_ascending {xs ys : List Nat} (ascending : xs.Pairwise (· ≤ ·)) (h : ys.Perm xs) :
    xs ≤ ys := by
  induction xs generalizing ys with
  | nil => rw [h.eq_nil]
  | cons x xs ih =>
    cases ys with
    | nil => exact absurd h.symm.eq_nil (List.cons_ne_nil x xs)
    | cons y ys =>
      rw [List.pairwise_cons] at ascending
      have mem : y = x ∨ y ∈ xs := List.mem_cons.mp (h.mem_iff.mp (List.mem_cons_self ..))
      refine cons_le_cons_of_le (mem.elim ge_of_eq (ascending.1 y)) fun eq => ?_
      subst eq
      exact ih ascending.2 h.cons_inv

/-- Entries in descending order come after all their permutations. -/
theorem le_of_descending {xs ys : List Nat} (descending : xs.Pairwise (· ≥ ·)) (h : ys.Perm xs) :
    ys ≤ xs := by
  induction xs generalizing ys with
  | nil => rw [h.eq_nil]
  | cons x xs ih =>
    cases ys with
    | nil => exact absurd h.symm.eq_nil (List.cons_ne_nil x xs)
    | cons y ys =>
      rw [List.pairwise_cons] at descending
      have mem : y = x ∨ y ∈ xs := List.mem_cons.mp (h.mem_iff.mp (List.mem_cons_self ..))
      refine cons_le_cons_of_le (mem.elim le_of_eq (descending.1 y)) fun eq => ?_
      subst eq
      exact ih descending.2 h.cons_inv

/-! ## The successor of an order -/

/-- The last place before `n` for which a test holds. -/
def lastBelow (p : Nat → Bool) : Nat → Option Nat
  | 0 => none
  | n + 1 => if p n then some n else lastBelow p n

theorem lastBelow_succ (p : Nat → Bool) (n : Nat) : lastBelow p (n + 1) =
    match lastBelow (fun i => p (i + 1)) n with
    | some i => some (i + 1)
    | none => if p 0 then some 0 else none := by
  induction n with
  | zero => rfl
  | succ n ih =>
    rw [lastBelow, ih, lastBelow]
    by_cases last : p (n + 1) = true
    · simp [last]
    · simp [last]

theorem lastBelow_eq_none {p : Nat → Bool} {n : Nat} (h : ∀ i < n, p i = false) :
    lastBelow p n = none := by
  induction n with
  | zero => rfl
  | succ n ih => simp [lastBelow, h n (Nat.lt_succ_self n), ih fun i hi => h i (Nat.lt_succ_of_lt hi)]

/-- The last entry of a list for which a test holds, and what is before and behind it. -/
theorem exists_of_lastBelow {q : Nat → Bool} {xs : List Nat} (some : ∃ y ∈ xs, q y = true) :
    ∃ before y behind, xs = before ++ y :: behind ∧ q y = true ∧ (∀ z ∈ behind, q z = false) ∧
      lastBelow (fun j => q (xs.getD j 0)) xs.length = .some before.length := by
  induction xs with
  | nil => simp at some
  | cons x xs ih =>
    rw [List.length_cons, lastBelow_succ]
    simp only [List.getD_cons_succ, List.getD_cons_zero]
    by_cases later : ∃ y ∈ xs, q y = true
    · obtain ⟨before, y, behind, rfl, hy, none, eq⟩ := ih later
      exact ⟨x :: before, y, behind, rfl, hy, none, by rw [eq]; rfl⟩
    · have none : ∀ y ∈ xs, q y = false := by simpa using later
      have head : q x = true := by
        obtain ⟨y, mem, hy⟩ := some
        rcases List.mem_cons.mp mem with rfl | mem
        · exact hy
        · exact absurd ⟨y, mem, hy⟩ later
      refine ⟨[], x, xs, rfl, head, none, ?_⟩
      rw [lastBelow_eq_none fun j hj => ?_]
      · simp [head]
      · rw [List.getD_eq_getElem _ _ hj]
        exact none _ (List.getElem_mem hj)

/-- The last place with an entry that a larger one follows directly. -/
def lastAscent (xs : List Nat) : Option Nat :=
  lastBelow (fun i => xs.getD i 0 < xs.getD (i + 1) 0) (xs.length - 1)

/-- The last place behind `i` with an entry larger than the one at `i`. -/
def lastLarger (xs : List Nat) (i : Nat) : Option Nat :=
  lastBelow (fun j => i < j ∧ xs.getD i 0 < xs.getD j 0) xs.length

/-- Two entries change places. -/
def exchange (xs : List Nat) (i j : Nat) : List Nat := (xs.set i (xs.getD j 0)).set j (xs.getD i 0)

/-- The next order: the last entry that a larger one follows directly changes places with the last larger
    entry behind it, and what is behind its place is turned around. -/
def successor (xs : List Nat) : Option (List Nat) :=
  (lastAscent xs).bind fun i => (lastLarger xs i).map fun j =>
    (exchange xs i j).take (i + 1) ++ ((exchange xs i j).drop (i + 1)).reverse

theorem lastAscent_cons_cons (x y : Nat) (ys : List Nat) : lastAscent (x :: y :: ys) =
    match lastAscent (y :: ys) with
    | some i => some (i + 1)
    | none => if x < y then some 0 else none := by
  unfold lastAscent
  rw [List.length_cons, List.length_cons, Nat.add_sub_cancel, lastBelow_succ]
  simp

theorem lastLarger_cons (x : Nat) (xs : List Nat) (i : Nat) :
    lastLarger (x :: xs) (i + 1) = (lastLarger xs i).map (· + 1) := by
  unfold lastLarger
  rw [List.length_cons, lastBelow_succ]
  simp only [List.getD_cons_succ, Nat.add_lt_add_iff_right]
  cases lastBelow (fun j => decide (i < j ∧ xs.getD i 0 < xs.getD j 0)) xs.length <;> simp

/-- An order with an ascent keeps its first entry if there is an ascent behind it. -/
theorem successor_cons {x i : Nat} {xs : List Nat} (h : lastAscent xs = some i) :
    successor (x :: xs) = (successor xs).map (x :: ·) := by
  cases xs with
  | nil => cases h
  | cons y ys =>
    unfold successor
    rw [lastAscent_cons_cons, h]
    simp only [Option.bind_some, lastLarger_cons, Option.map_map]
    congr 1

theorem descending_of_lastAscent_eq_none {xs : List Nat} (h : lastAscent xs = none) :
    xs.Pairwise (· ≥ ·) := by
  rw [← List.isChain_iff_pairwise]
  induction xs with
  | nil => exact .nil
  | cons x xs ih =>
    cases xs with
    | nil => exact .singleton x
    | cons y ys =>
      rw [lastAscent_cons_cons] at h
      split at h
      · cases h
      · rename_i none
        split at h
        · cases h
        · rename_i le
          exact .cons_cons (Nat.le_of_not_lt le) (ih none)

/-- Before descending entries, an entry is exchanged for the last larger one of them. -/
theorem exists_successor_of_descending {x : Nat} {xs : List Nat} (none : lastAscent xs = none)
    (ascent : (lastAscent (x :: xs)).isSome) : ∃ before y behind, xs = before ++ y :: behind ∧ x < y ∧
      (∀ z ∈ behind, z ≤ x) ∧ successor (x :: xs) = some (y :: (before ++ x :: behind).reverse) := by
  obtain ⟨first, eq⟩ : (∃ y ∈ xs, decide (x < y) = true) ∧ lastAscent (x :: xs) = some 0 := by
    cases xs with
    | nil => cases ascent
    | cons y ys =>
      rw [lastAscent_cons_cons, none] at ascent ⊢
      by_cases lt : x < y
      · exact ⟨⟨y, List.mem_cons_self .., decide_eq_true lt⟩, if_pos lt⟩
      · simp [lt] at ascent
  obtain ⟨before, y, behind, rfl, lt, others, last⟩ := exists_of_lastBelow first
  refine ⟨before, y, behind, rfl, by simpa using lt, by simpa using others, ?_⟩
  have larger : lastLarger (x :: (before ++ y :: behind)) 0 = some (before.length + 1) := by
    unfold lastLarger
    rw [List.length_cons, lastBelow_succ]
    simp only [List.getD_cons_succ, List.getD_cons_zero, Nat.succ_pos, true_and, last]
  unfold successor exchange
  rw [eq, Option.bind_some, larger, Option.map_some]
  simp

theorem descending_exchanged {x y : Nat} {before behind : List Nat} (lt : x < y)
    (others : ∀ z ∈ behind, z ≤ x) (descending : (before ++ y :: behind).Pairwise (· ≥ ·)) :
    (before ++ x :: behind).Pairwise (· ≥ ·) := by
  rw [List.pairwise_append, List.pairwise_cons] at descending ⊢
  obtain ⟨front, ⟨-, back⟩, across⟩ := descending
  refine ⟨front, ⟨others, back⟩, fun a ha b hb => ?_⟩
  have first := across a ha y (List.mem_cons_self ..)
  rcases List.mem_cons.mp hb with rfl | hb
  · omega
  · exact across a ha b (.tail _ hb)

open scoped List in
theorem perm_exchanged (x y : Nat) (before behind : List Nat) :
    (y :: (before ++ x :: behind).reverse).Perm (x :: (before ++ y :: behind)) :=
  calc y :: (before ++ x :: behind).reverse
    _ ~ y :: (before ++ x :: behind) := (List.reverse_perm _).cons y
    _ ~ y :: x :: (before ++ behind) := List.perm_middle.cons y
    _ ~ x :: y :: (before ++ behind) := .swap x y _
    _ ~ x :: (before ++ y :: behind) := List.perm_middle.symm.cons x

/-- An order with an ascent has a successor: a permutation of it that comes later, before all others. -/
theorem exists_successor {xs : List Nat} (ascent : (lastAscent xs).isSome) :
    ∃ ys, successor xs = some ys ∧ ys.Perm xs ∧ xs < ys ∧ ∀ zs, zs.Perm xs → xs < zs → ys ≤ zs := by
  induction xs with
  | nil => cases ascent
  | cons x xs ih =>
    cases later : lastAscent xs with
    | some i =>
      obtain ⟨ys, eq, perm, lt, least⟩ := ih (by rw [later]; rfl)
      refine ⟨x :: ys, by rw [successor_cons later, eq]; rfl, perm.cons x,
        List.cons_lt_cons_iff.mpr (.inr ⟨rfl, lt⟩), ?_⟩
      rintro (_ | ⟨z, zs⟩) perm' lt'
      · cases lt'
      · rcases List.cons_lt_cons_iff.mp lt' with first | ⟨rfl, rest⟩
        · exact le_of_lt (List.cons_lt_cons_iff.mpr (.inl first))
        · exact List.cons_le_cons x (least zs perm'.cons_inv rest)
    | none =>
      obtain ⟨before, y, behind, rfl, lt, others, eq⟩ := exists_successor_of_descending later ascent
      have descending := descending_of_lastAscent_eq_none later
      have perm := perm_exchanged x y before behind
      refine ⟨_, eq, perm, List.cons_lt_cons_iff.mpr (.inl lt), ?_⟩
      rintro (_ | ⟨z, zs⟩) perm' lt'
      · cases lt'
      · rcases List.cons_lt_cons_iff.mp lt' with first | ⟨rfl, rest⟩
        · -- the first entry is a larger one of those behind it, and `y` is the least of these
          have mem : z ∈ before ++ y :: behind :=
            (List.mem_cons.mp (perm'.mem_iff.mp (List.mem_cons_self ..))).resolve_left (by omega)
          have le : y ≤ z := by
            rw [List.pairwise_append] at descending
            rcases List.mem_append.mp mem with hz | hz
            · exact descending.2.2 z hz y (List.mem_cons_self ..)
            · rcases List.mem_cons.mp hz with rfl | hz
              · exact Nat.le_refl _
              · have := others z hz
                omega
          refine cons_le_cons_of_le le fun same => ?_
          subst same
          refine le_of_ascending ?_ (perm'.trans perm.symm).cons_inv
          rw [List.pairwise_reverse]
          exact descending_exchanged lt others descending
        · exact absurd rest (not_lt_of_ge (le_of_descending descending perm'.cons_inv))

/-! ## The orders of the numbering -/

/-- A higher number is a later arrangement. -/
theorem arrangement_lt {n rank rank' : Nat} {items : List Nat} (hn : items.length = n)
    (ascending : items.Pairwise (· < ·)) (lt : rank < rank') (h : rank' < factorial n) :
    arrangement n rank items < arrangement n rank' items := by
  induction n generalizing rank rank' items with
  | zero =>
    rw [factorial] at h
    omega
  | succ n ih =>
    have hi' : rank' / factorial n < items.length := hn ▸ rank_div_lt h
    have le : rank / factorial n ≤ rank' / factorial n := Nat.div_le_div_right (Nat.le_of_lt lt)
    have hi : rank / factorial n < items.length := Nat.lt_of_le_of_lt le hi'
    rw [arrangement_succ hi, arrangement_succ hi', List.cons_lt_cons_iff]
    rcases Nat.lt_or_eq_of_le le with first | same
    · exact .inl (List.pairwise_iff_getElem.mp ascending _ _ hi hi' first)
    · have rest : rank % factorial n < rank' % factorial n := by
        have := Nat.div_add_mod rank (factorial n)
        have := Nat.div_add_mod rank' (factorial n)
        rw [same] at *
        omega
      simp only [same, true_and]
      refine .inr (ih ?_ (ascending.sublist (List.eraseIdx_sublist ..)) rest
        (Nat.mod_lt _ (factorial_pos n)))
      rw [List.length_eraseIdx_of_lt hi']
      omega

/-- The number zero is the items as they stand. -/
theorem arrangement_zero {n : Nat} {items : List Nat} (hn : items.length = n) :
    arrangement n 0 items = items := by
  induction n generalizing items with
  | zero => rw [List.length_eq_zero_iff.mp hn, arrangement]
  | succ n ih =>
    cases items with
    | nil => cases hn
    | cons x items =>
      have rest : items.length = n := Nat.succ.inj hn
      rw [arrangement_succ (by simp)]
      simp [ih rest]

theorem factorial_eq (n : Nat) : factorial n = n.factorial := by
  induction n with
  | zero => rfl
  | succ n ih => rw [factorial, Nat.factorial_succ, ih]

namespace Orders

/-- The orders that are still to come, one after the other. -/
def toList (o : Orders) : List (List Nat) :=
  match _h : o.next? with
  | none => []
  | some (order, later) => order :: later.toList
termination_by o.left
decreasing_by exact left_lt_of_next? _h

/-- One arrangement after the other is reached, from the first number that is left. -/
theorem toList_eq {n left : Nat} (h : left ≤ factorial n) : toList ⟨n, left⟩ =
    (List.range' (factorial n - left) left).map fun rank => arrangement n rank (List.range n) := by
  induction left with
  | zero =>
    rw [toList]
    rfl
  | succ left ih =>
    have step : factorial n - (left + 1) + 1 = factorial n - left := by omega
    rw [toList]
    simp only [next?]
    rw [ih (by omega), List.range'_succ, List.map_cons, step]

theorem toList_all (n : Nat) : (all n).toList =
    (List.range (factorial n)).map fun rank => arrangement n rank (List.range n) := by
  rw [all, toList_eq (Nat.le_refl _), Nat.sub_self, ← List.range_eq_range']

theorem mem_toList_all {n : Nat} {order : List Nat} :
    order ∈ (all n).toList ↔ order.Perm (List.range n) := by
  rw [toList_all, List.mem_map]
  simp only [List.mem_range]
  constructor
  · rintro ⟨rank, lt, rfl⟩
    exact arrangement_perm (List.length_range ..) lt
  · exact exists_arrangement (List.length_range ..)

theorem pairwise_toList_all (n : Nat) : (all n).toList.Pairwise (· < ·) := by
  rw [toList_all, List.pairwise_map]
  refine List.pairwise_lt_range.imp_of_mem fun {rank rank'} _ mem lt => ?_
  exact arrangement_lt (List.length_range ..) List.pairwise_lt_range lt (List.mem_range.mp mem)

end Orders

/-! ## Succession -/

/-- All permutations of some items, in ascending order. -/
structure Ascends (items : List Nat) (orders : List (List Nat)) : Prop where
  ascending : orders.Pairwise (· < ·)
  mem_iff : ∀ order, order ∈ orders ↔ order.Perm items

namespace Ascends

variable {items order later : List Nat} {before behind : List (List Nat)}

/-- Orders that come later than one in the middle are behind it. -/
theorem mem_behind (h : Ascends items (before ++ order :: behind)) (perm : later.Perm order)
    (lt : order < later) : later ∈ behind := by
  have mem : later ∈ before ++ order :: behind :=
    (h.mem_iff later).mpr (perm.trans ((h.mem_iff order).mp (by simp)))
  have ascending := h.ascending
  rw [List.pairwise_append] at ascending
  rcases List.mem_append.mp mem with earlier | mem
  · exact absurd (ascending.2.2 later earlier order (.head _)) (not_lt_of_gt lt)
  · exact (List.mem_cons.mp mem).resolve_left (ne_of_gt lt)

/-- What comes right behind an order is its successor. -/
theorem successor_eq (h : Ascends items (before ++ order :: later :: behind)) :
    successor order = some later := by
  have perm : later.Perm order :=
    ((h.mem_iff later).mp (by simp)).trans ((h.mem_iff order).mp (by simp)).symm
  have ascending := h.ascending
  rw [List.pairwise_append, List.pairwise_cons, List.pairwise_cons] at ascending
  obtain ⟨-, ⟨first, next, -⟩, -⟩ := ascending
  have lt : order < later := first later (.head _)
  have ascent : (lastAscent order).isSome := by
    rw [Option.isSome_iff_ne_none]
    intro none
    exact absurd lt (not_lt_of_ge (le_of_descending (descending_of_lastAscent_eq_none none) perm))
  obtain ⟨ys, eq, perm', lt', least⟩ := exists_successor ascent
  rw [eq]
  rcases List.mem_cons.mp (h.mem_behind perm' lt') with rfl | mem
  · rfl
  · exact absurd (next ys mem) (not_lt_of_ge (least later perm lt))

/-- The last order has no successor. -/
theorem successor_last (h : Ascends items (before ++ [order])) : successor order = none := by
  cases ascent : lastAscent order with
  | none => simp [successor, ascent]
  | some i =>
    obtain ⟨ys, -, perm, lt, -⟩ := exists_successor (by rw [ascent]; rfl)
    exact absurd (h.mem_behind perm lt) List.not_mem_nil

end Ascends

/-- The orders run through all permutations in strictly ascending lexicographic order, so each one once,
    `n!` in all. The first one is the identity, each other one the successor of the one before, and the
    last one has no successor. -/
theorem Orders.toList_all_succession (n : Nat) :
    (Orders.all n).toList.head? = some (List.range n) ∧
    (Orders.all n).toList.Pairwise (· < ·) ∧
    (∀ order, order ∈ (Orders.all n).toList ↔ order.Perm (List.range n)) ∧
    (Orders.all n).toList.length = n.factorial ∧
    (Orders.all n).toList.IsChain (fun order later => successor order = some later) ∧
    (Orders.all n).toList.getLast?.bind successor = none := by
  have ascends : Ascends (List.range n) (Orders.all n).toList :=
    ⟨pairwise_toList_all n, fun _ => mem_toList_all⟩
  refine ⟨?_, ascends.ascending, ascends.mem_iff, ?_, ?_, ?_⟩
  · have first : (List.range (factorial n)).head? = some 0 := by
      rw [List.head?_range, if_neg (factorial_pos n).ne']
    rw [toList_all, List.head?_map, first, Option.map_some, arrangement_zero (List.length_range ..)]
  · rw [toList_all, List.length_map, List.length_range, factorial_eq]
  · rw [List.isChain_iff_forall_rel_of_append_cons_cons]
    intro order later before behind eq
    exact (eq ▸ ascends).successor_eq
  · rw [Option.bind_eq_none_iff]
    intro order last
    obtain ⟨before, eq⟩ := List.getLast?_eq_some_iff.mp last
    exact (eq ▸ ascends).successor_last

/-- The orders of three operands. -/
example : (Orders.all 3).toList =
    [[0, 1, 2], [0, 2, 1], [1, 0, 2], [1, 2, 0], [2, 0, 1], [2, 1, 0]] := by cbv

end Regraft
