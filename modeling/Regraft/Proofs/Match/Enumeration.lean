import Regraft.Match.Groupings
import Regraft.Match.Orders
import Mathlib.Data.List.Perm.Basic

/-
  What the numberings of orders and groupings run through. Every number below `n!` is a permutation of
  `n` items, and every permutation has such a number; every admissible way to hand operands to slots
  has a number as well, and the search for the next way does not pass it over.
-/

namespace Regraft

/-! ## Orders -/

theorem factorial_pos (n : Nat) : 0 < factorial n := by
  induction n with
  | zero => exact Nat.one_pos
  | succ n ih =>
    rw [factorial]
    exact Nat.mul_pos (Nat.succ_pos n) ih

theorem rank_div_lt {n rank : Nat} (h : rank < factorial (n + 1)) : rank / factorial n < n + 1 := by
  rw [factorial, Nat.mul_comm] at h
  exact Nat.div_lt_of_lt_mul h

theorem arrangement_succ {n rank : Nat} {items : List Nat} (hi : rank / factorial n < items.length) :
    arrangement (n + 1) rank items = items[rank / factorial n] ::
      arrangement n (rank % factorial n) (items.eraseIdx (rank / factorial n)) := by
  rw [arrangement]
  simp only [List.getElem?_eq_getElem hi]

/-- Every number below the factorial is a permutation of the items. -/
theorem arrangement_perm {n rank : Nat} {items : List Nat} (hn : items.length = n)
    (h : rank < factorial n) : (arrangement n rank items).Perm items := by
  induction n generalizing rank items with
  | zero =>
    rw [List.length_eq_zero_iff.mp hn]
    rfl
  | succ n ih =>
    have hi : rank / factorial n < items.length := hn ▸ rank_div_lt h
    rw [arrangement_succ hi]
    have rest : (items.eraseIdx (rank / factorial n)).length = n := by
      rw [List.length_eraseIdx_of_lt hi]
      omega
    have perm := ih rest (Nat.mod_lt rank (factorial_pos n))
    exact (perm.cons _).trans (List.getElem_cons_eraseIdx_perm hi)

/-- Every permutation of the items has a number. -/
theorem exists_arrangement {n : Nat} {order items : List Nat} (hn : items.length = n)
    (h : order.Perm items) : ∃ rank, rank < factorial n ∧ arrangement n rank items = order := by
  induction n generalizing order items with
  | zero =>
    have := List.length_eq_zero_iff.mp hn
    subst this
    exact ⟨0, Nat.one_pos, h.symm.nil_eq⟩
  | succ n ih =>
    cases order with
    | nil =>
      have := h.length_eq
      rw [hn, List.length_nil] at this
      omega
    | cons x rest =>
      obtain ⟨i, hi, hx⟩ := List.mem_iff_getElem.mp (h.mem_iff.mp (List.mem_cons_self ..))
      have length : (items.eraseIdx i).length = n := by
        rw [List.length_eraseIdx_of_lt hi]
        omega
      have perm : rest.Perm (items.eraseIdx i) := by
        refine List.Perm.cons_inv (h.trans ?_)
        rw [← hx]
        exact (List.getElem_cons_eraseIdx_perm hi).symm
      obtain ⟨r, hr, eq⟩ := ih length perm
      have div : (factorial n * i + r) / factorial n = i := by
        rw [Nat.mul_add_div (factorial_pos n), Nat.div_eq_of_lt hr, Nat.add_zero]
      have mod : (factorial n * i + r) % factorial n = r := by
        rw [Nat.mul_add_mod, Nat.mod_eq_of_lt hr]
      refine ⟨factorial n * i + r, ?_, ?_⟩
      · rw [factorial, Nat.mul_comm (n + 1)]
        calc factorial n * i + r
          _ < factorial n * i + factorial n := Nat.add_lt_add_left hr _
          _ = factorial n * (i + 1) := (Nat.mul_succ ..).symm
          _ ≤ factorial n * (n + 1) := Nat.mul_le_mul_left _ (by omega)
      · rw [arrangement_succ (div.symm ▸ hi)]
        simp only [div, mod, eq, hx]

/-- The next order is a permutation, and the later ones are one fewer. -/
theorem Orders.next?_spec {o o' : Orders} {order : List Nat} (left : o.left ≤ factorial o.size)
    (h : o.next? = some (order, o')) :
    order.Perm (List.range o.size) ∧ o'.size = o.size ∧ o.left = o'.left + 1 := by
  unfold Orders.next? at h
  split at h
  · cases h
  · rename_i k hk
    cases h
    refine ⟨arrangement_perm (List.length_range ..) ?_, rfl, hk⟩
    have := factorial_pos o.size
    omega

/-! ## Ways to hand operands to slots -/

theorem length_digits (base n code : Nat) : (digits base n code).length = n := by
  induction n generalizing code with
  | zero => rfl
  | succ n ih => rw [digits, List.length_cons, ih]

theorem lt_of_mem_digits {base n code d : Nat} (hb : 0 < base) (h : d ∈ digits base n code) :
    d < base := by
  induction n generalizing code with
  | zero => cases h
  | succ n ih =>
    rw [digits] at h
    rcases List.mem_cons.mp h with h | h
    · rw [h]
      exact Nat.mod_lt _ hb
    · exact ih h

theorem digits_mul_add {base n code d : Nat} (h : d < base) :
    digits base (n + 1) (base * code + d) = d :: digits base n code := by
  have div : (base * code + d) / base = code := by
    rw [Nat.mul_add_div (by omega), Nat.div_eq_of_lt h, Nat.add_zero]
  have mod : (base * code + d) % base = d := by
    rw [Nat.mul_add_mod, Nat.mod_eq_of_lt h]
  rw [digits, div, mod]

theorem mul_add_lt_pow_iff {base n code d : Nat} (h : d < base) :
    base * code + d < base.pow (n + 1) ↔ code < base.pow n := by
  have pos : 0 < base := Nat.zero_lt_of_lt h
  change _ < base.pow n * base ↔ _
  rw [← Nat.div_lt_iff_lt_mul pos, Nat.mul_add_div pos, Nat.div_eq_of_lt h, Nat.add_zero]

/-- Every list of digits is that of a number. -/
theorem exists_digits {base : Nat} {ds : List Nat} (h : ∀ d ∈ ds, d < base) :
    ∃ code, code < base.pow ds.length ∧ digits base ds.length code = ds := by
  induction ds with
  | nil => exact ⟨0, Nat.one_pos, rfl⟩
  | cons d rest ih =>
    rw [List.forall_mem_cons] at h
    obtain ⟨code, hcode, eq⟩ := ih h.2
    refine ⟨base * code + d, (mul_add_lt_pow_iff h.1).mpr hcode, ?_⟩
    rw [List.length_cons, digits_mul_add h.1, eq]

theorem admissible_iff {absorbs : List Bool} {assignment : List Nat} :
    admissible absorbs assignment = true ↔ ∀ (slot : Nat) (absorb : Bool),
      absorbs[slot]? = some absorb → assignment.count slot = 1 ∨
        1 < assignment.count slot ∧ absorb = true := by
  unfold admissible
  rw [List.all_eq_true]
  constructor
  · intro h slot absorb hs
    have := h (absorb, slot) (List.mem_zipIdx_iff_getElem?.mpr hs)
    simpa using this
  · intro h x hx
    have := h x.2 x.1 (List.mem_zipIdx_iff_getElem?.mp hx)
    simpa using this

namespace Groupings

/-- What is found is a way, and those left behind it are fewer. -/
theorem search_sound {absorbs : List Bool} {n left left' : Nat} {assignment : List Nat}
    (h : search absorbs n left = some (assignment, left')) :
    admissible absorbs assignment = true ∧
      assignment = digits absorbs.length n (absorbs.length.pow n - (left' + 1)) := by
  induction left with
  | zero => cases h
  | succ left ih =>
    rw [search] at h
    split at h
    · rename_i ok
      simp only [Option.some.injEq, Prod.mk.injEq] at h
      obtain ⟨rfl, rfl⟩ := h
      exact ⟨ok, rfl⟩
    · exact ih h

/-- The search stops at an admissible way or before it. -/
theorem search_complete {absorbs : List Bool} {n left k : Nat} (hk : k < left)
    (ok : admissible absorbs (digits absorbs.length n (absorbs.length.pow n - (k + 1))) = true) :
    ∃ assignment left', search absorbs n left = some (assignment, left') ∧ k ≤ left' := by
  induction left with
  | zero => omega
  | succ left ih =>
    rw [search]
    split
    · exact ⟨_, left, rfl, Nat.le_of_lt_succ hk⟩
    · rename_i bad
      rcases Nat.lt_or_eq_of_le (Nat.le_of_lt_succ hk) with h | rfl
      · exact ih h
      · exact absurd ok bad

/-- A way that is found hands every operand to a slot, and some to each. -/
theorem next?_spec {g g' : Groupings} {assignment : List Nat} (pos : 0 < g.absorbs.length)
    (h : g.next? = some (assignment, g')) :
    assignment.length = g.operands ∧ (∀ d ∈ assignment, d < g.absorbs.length) ∧
      admissible g.absorbs assignment = true ∧ g'.absorbs = g.absorbs ∧ g'.operands = g.operands ∧
      g'.left < g.left := by
  have lt := left_lt_of_next? h
  unfold next? at h
  split at h
  · cases h
  · rename_i found
    cases h
    obtain ⟨ok, rfl⟩ := search_sound found
    exact ⟨length_digits .., fun d hd => lt_of_mem_digits pos hd, ok, rfl, rfl, lt⟩

end Groupings

end Regraft
