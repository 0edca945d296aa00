/-
  Ways to hand operands to slots. Every slot gets at least one operand, and only a slot that absorbs
  may get several. A way is numbered by its slots read as digits, the first operand's slot being the
  lowest digit.
-/

namespace Regraft

/-- The lowest `n` digits of a number in base `base`, the lowest first. -/
def digits (base : Nat) : Nat → Nat → List Nat
  | 0, _ => []
  | n + 1, code => code % base :: digits base n (code / base)

/-- Every slot gets an operand, and just one unless it absorbs. -/
def admissible (absorbs : List Bool) (assignment : List Nat) : Bool :=
  absorbs.zipIdx.all fun (absorb, slot) =>
    let count := assignment.count slot
    count = 1 || (1 < count && absorb)

/-- The ways that are still to be looked at, the last `left` ones. -/
structure Groupings where
  absorbs : List Bool
  operands : Nat
  left : Nat
deriving DecidableEq, Repr

namespace Groupings

/-- All ways to hand `n` operands to slots; without slots there is none. -/
def all (n : Nat) (absorbs : List Bool) : Groupings :=
  ⟨absorbs, n, if absorbs.isEmpty then 0 else absorbs.length.pow n⟩

/-- The next admissible way among the last `left`, and how many are left behind it. -/
def search (absorbs : List Bool) (n : Nat) : Nat → Option (List Nat × Nat)
  | 0 => none
  | left + 1 =>
    let assignment := digits absorbs.length n (absorbs.length.pow n - (left + 1))
    if admissible absorbs assignment then some (assignment, left) else search absorbs n left

/-- The next admissible way and those behind it. -/
def next? (g : Groupings) : Option (List Nat × Groupings) :=
  match search g.absorbs g.operands g.left with
  | none => none
  | some (assignment, left) => some (assignment, { g with left })

theorem search_left_lt {absorbs : List Bool} {n left left' : Nat} {assignment : List Nat}
    (h : search absorbs n left = some (assignment, left')) : left' < left := by
  induction left with
  | zero => simp [search] at h
  | succ left ih =>
    unfold search at h
    simp only at h
    split at h
    · simp only [Option.some.injEq, Prod.mk.injEq] at h
      omega
    · exact Nat.lt_succ_of_lt (ih h)

theorem left_lt_of_next? {g g' : Groupings} {assignment : List Nat}
    (h : g.next? = some (assignment, g')) : g'.left < g.left := by
  unfold next? at h
  split at h
  · contradiction
  · rename_i assignment left e
    simp only [Option.some.injEq, Prod.mk.injEq] at h
    rw [← h.2]
    exact search_left_lt e

end Groupings

end Regraft
