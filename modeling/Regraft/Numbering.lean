import Std.Data.TreeMap

/-
  Numberings: values that are numbered from zero in the order in which they first appeared, each
  once. A value is looked up among the values of its key. Every key function is right; one that
  tells most values apart makes the look-up short. `numberOf?_eq_some_iff`: a value is found at its
  number, and nowhere else.
-/

namespace Regraft

/-- Values that have a key. Different values may share one. -/
class Keyed (α : Type) where
  key : α → Nat

structure Numbering (α : Type) [DecidableEq α] [Keyed α] where
  /-- The values in the order of their numbers. -/
  values : Array α
  /-- The numbers of the values of each key. -/
  numbers : Std.TreeMap Nat (List Nat)
  complete : ∀ (i : Nat) x, values[i]? = some x → i ∈ numbers.getD (Keyed.key x) []
  unique : ∀ (i j : Nat) x, values[i]? = some x → values[j]? = some x → i = j

namespace Numbering

theorem complete_push {α : Type} [Keyed α] {values : Array α}
    {numbers : Std.TreeMap Nat (List Nat)} {x : α}
    (complete : ∀ (i : Nat) y, values[i]? = some y → i ∈ numbers.getD (Keyed.key y) [])
    (i : Nat) (y : α) (h : (values.push x)[i]? = some y) :
    i ∈ (numbers.insert (Keyed.key x) (values.size :: numbers.getD (Keyed.key x) [])).getD
      (Keyed.key y) [] := by
  rw [Array.getElem?_push] at h
  rw [Std.TreeMap.getD_insert]
  split at h
  · cases h
    simp_all
  · have := complete i y h
    split
    · simp_all
    · exact this

theorem unique_push {α : Type} {values : Array α} {x : α} (absent : ∀ i : Nat, values[i]? ≠ some x)
    (unique : ∀ (i j : Nat) y, values[i]? = some y → values[j]? = some y → i = j)
    (i j : Nat) (y : α) (hi : (values.push x)[i]? = some y) (hj : (values.push x)[j]? = some y) :
    i = j := by
  rw [Array.getElem?_push] at hi hj
  split at hi <;> split at hj
  · omega
  · cases hi; exact absurd hj (absent j)
  · cases hj; exact absurd hi (absent i)
  · exact unique i j y hi hj

variable {α : Type} [DecidableEq α] [Keyed α]

def empty : Numbering α := ⟨#[], ∅, by simp, by simp⟩

def size (n : Numbering α) : Nat := n.values.size

/-- The value of a number. -/
def get? (n : Numbering α) (i : Nat) : Option α := n.values[i]?

/-- The number of a value. -/
def numberOf? (n : Numbering α) (x : α) : Option Nat :=
  (n.numbers.getD (Keyed.key x) []).find? fun i => n.get? i = some x

theorem get?_eq_of_numberOf?_eq_some {n : Numbering α} {x : α} {i : Nat}
    (h : n.numberOf? x = some i) : n.get? i = some x := by
  simpa using List.find?_some h

theorem get?_ne_of_numberOf?_eq_none {n : Numbering α} {x : α} (h : n.numberOf? x = none)
    (i : Nat) : n.get? i ≠ some x := by
  intro hi
  have := List.find?_eq_none.mp h i (n.complete i x hi)
  simp [hi] at this

/-- The look-up finds a value at its number, and nowhere else. -/
theorem numberOf?_eq_some_iff {n : Numbering α} {x : α} {i : Nat} :
    n.numberOf? x = some i ↔ n.get? i = some x := by
  refine ⟨get?_eq_of_numberOf?_eq_some, fun hi => ?_⟩
  cases h : n.numberOf? x with
  | none => exact absurd hi (get?_ne_of_numberOf?_eq_none h i)
  | some j => rw [n.unique i j x hi (get?_eq_of_numberOf?_eq_some h)]

/-- Give the next number to a new value. -/
def push : (n : Numbering α) → (x : α) → n.numberOf? x = none → Numbering α
  | ⟨values, numbers, complete, unique⟩, x, new =>
    let number := values.size
    let key := Keyed.key x
    ⟨values.push x, numbers.insert key (number :: numbers.getD key []),
      complete_push complete, unique_push (get?_ne_of_numberOf?_eq_none new) unique⟩

/-- The number of a value, which gets the next one if it is new. -/
def insert (x : α) (n : Numbering α) : Nat × Numbering α :=
  match h : n.numberOf? x with
  | some i => (i, n)
  | none => (n.size, n.push x h)

end Numbering

end Regraft
