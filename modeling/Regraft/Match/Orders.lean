/-
  The orders of `n` operands in lexicographic order. They are numbered from `0` to `n! - 1`: the
  number divided by `(n - 1)!` picks the first operand, and the remainder numbers the order of the
  others.
-/

namespace Regraft

def factorial : Nat → Nat
  | 0 => 1
  | n + 1 => (n + 1) * factorial n

/-- The arrangement of a number, of at most `n` items of a list. -/
def arrangement : Nat → Nat → List Nat → List Nat
  | 0, _, _ => []
  | n + 1, rank, items =>
    let i := rank / factorial n
    match items[i]? with
    | some x => x :: arrangement n (rank % factorial n) (items.eraseIdx i)
    | none => []

/-- The orders that are still to come, the last `left` ones. -/
structure Orders where
  size : Nat
  left : Nat
deriving DecidableEq, Repr

namespace Orders

/-- All orders of `n` operands, the identity first. -/
def all (n : Nat) : Orders := ⟨n, factorial n⟩

/-- The next order and those behind it. -/
def next? (o : Orders) : Option (List Nat × Orders) :=
  match o.left with
  | 0 => none
  | left + 1 =>
    some (arrangement o.size (factorial o.size - (left + 1)) (List.range o.size), ⟨o.size, left⟩)

theorem left_lt_of_next? {o o' : Orders} {order : List Nat} (h : o.next? = some (order, o')) :
    o'.left < o.left := by
  unfold next? at h
  split at h
  · contradiction
  · rename_i left e
    simp only [Option.some.injEq, Prod.mk.injEq] at h
    rw [← h.2, e]
    exact Nat.lt_succ_self left

end Orders

end Regraft
