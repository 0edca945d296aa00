import Regraft.Proofs.Term.Calls
import Regraft.Proofs.Term.Constant
import Mathlib.Data.Finset.Card

/-
  Where interned terms stand. An arena holds values in a vector, and their numbers in sixteen maps of
  which the hash of a value selects one; vector, maps and counter are changed one after the other.
  Whatever the hash, an arena gives the numbers that a numbering gives and resolves them alike
  (`Arena.Mirrors.intern`), as long as its counter does not start over. The calls that make terms share
  one id exactly when they build the same term, and there are as many ids as terms
  (`Store.Reached.terms_stored_once`).
-/

namespace Regraft

/-! ## Arenas -/

/-- Values at the places of their numbers, the numbers of the values of each shard, and the next
    number. -/
structure Arena (α : Type) where
  nodes : List α
  shards : Fin 16 → List (α × UInt32)
  next : UInt32

namespace Arena

variable {α : Type} {hash : α → Nat} {filler x : α} {a : Arena α}

/-- Put a value at a place, which is made with fillers if it is not there. -/
def place (filler : α) (nodes : List α) (i : Nat) (x : α) : List α :=
  let nodes := if nodes.length ≤ i then nodes ++ List.replicate (i + 1 - nodes.length) filler else nodes
  nodes.set i x

/-- The place behind the last one is made for a value. -/
theorem place_length (nodes : List α) : place filler nodes nodes.length x = nodes ++ [x] := by
  unfold place
  rw [if_pos (Nat.le_refl _), Nat.add_sub_cancel_left]
  simp

def empty : Arena α := ⟨[], fun _ => [], 0⟩

/-- The shard that a hash selects. -/
def shard (hash : α → Nat) (x : α) : Fin 16 := Fin.ofNat 16 (hash x)

variable [DecidableEq α]

/-- The number of a value, which gets the next one if its shard does not know it. -/
def intern (hash : α → Nat) (filler : α) (x : α) (a : Arena α) : UInt32 × Arena α :=
  match (a.shards (shard hash x)).lookup x with
  | some i => (i, a)
  | none =>
    let nodes := place filler a.nodes a.next.toNat x
    let entries := (x, a.next) :: a.shards (shard hash x)
    (a.next, ⟨nodes, Function.update a.shards (shard hash x) entries, a.next + 1⟩)

/-- The numbers of values that are interned one after the other. -/
def internAll (hash : α → Nat) (filler : α) : List α → Arena α → List UInt32 × Arena α
  | [], a => ([], a)
  | x :: xs, a =>
    let (i, a) := intern hash filler x a
    let (is, a) := internAll hash filler xs a
    (i :: is, a)

theorem internAll_append (xs ys : List α) (a : Arena α) : internAll hash filler (xs ++ ys) a =
    ((internAll hash filler xs a).1 ++ (internAll hash filler ys (internAll hash filler xs a).2).1,
      (internAll hash filler ys (internAll hash filler xs a).2).2) := by
  induction xs generalizing a with
  | nil => rfl
  | cons x xs ih =>
    simp only [List.cons_append, internAll]
    rw [ih]

variable [Keyed α] {n : Numbering α}

/-- An arena and a numbering agree: the vector has the values in their order, the counter is the size,
    and each map knows the numbers of the values of its shard. -/
structure Mirrors (hash : α → Nat) (a : Arena α) (n : Numbering α) : Prop where
  nodes : a.nodes = n.values.toList
  next : a.next.toNat = n.size
  shards : ∀ x i, (a.shards (shard hash x)).lookup x = some i ↔ n.get? i.toNat = some x

theorem mirrors_empty : Mirrors hash empty (.empty : Numbering α) where
  nodes := rfl
  next := rfl
  shards x i := by simp [empty, Numbering.get?, Numbering.empty]

/-- The vector resolves numbers alike. -/
theorem Mirrors.getElem?_nodes (h : Mirrors hash a n) (i : Nat) : a.nodes[i]? = n.get? i := by
  rw [h.nodes]
  exact Array.getElem?_toList

/-- A value that is known keeps its number. -/
theorem Mirrors.intern_known (h : Mirrors hash a n) {i : Nat} (known : n.numberOf? x = some i)
    (room : n.size < 2 ^ 32) : (intern hash filler x a).1.toNat = i ∧ (intern hash filler x a).2 = a := by
  have stands := Numbering.numberOf?_eq_some_iff.mp known
  have word : (UInt32.ofNat i).toNat = i :=
    UInt32.toNat_ofNat_of_lt' (Nat.lt_trans (Numbering.get?_lt stands) room)
  have lookup := (h.shards x (UInt32.ofNat i)).mpr (word.symm ▸ stands)
  rw [intern, lookup]
  exact ⟨word, rfl⟩

/-- A new value gets the next number in vector, map and counter. -/
theorem Mirrors.intern_new (h : Mirrors hash a n) (new : n.numberOf? x = none)
    (room : n.size + 1 < 2 ^ 32) : (intern hash filler x a).1.toNat = n.size ∧
      Mirrors hash (intern hash filler x a).2 (n.push x new) := by
  have absent : ∀ i : Nat, n.get? i ≠ some x := Numbering.get?_ne_of_numberOf?_eq_none new
  have lookup : (a.shards (shard hash x)).lookup x = none := by
    by_contra some
    obtain ⟨i, some⟩ := Option.ne_none_iff_exists'.mp some
    exact absent _ ((h.shards x i).mp some)
  rw [intern, lookup]
  refine ⟨h.next, ?_, ?_, fun y i => ?_⟩
  · have length : a.next.toNat = a.nodes.length := by rw [h.next, h.nodes]; rfl
    rw [length, place_length, h.nodes]
    exact (Array.toList_push ..).symm
  · rw [Numbering.size_push, UInt32.toNat_add, h.next]
    exact Nat.mod_eq_of_lt room
  · rw [Numbering.get?_push]
    dsimp only
    by_cases eq : y = x
    · subst eq
      rw [Function.update_self, List.lookup_cons_self]
      split
      · rename_i last
        exact iff_of_true (congrArg some (UInt32.toNat_inj.mp (h.next.trans last.symm))) rfl
      · rename_i other
        refine iff_of_false (fun same => other ?_) (absent _)
        rw [← Option.some.inj same, h.next]
    · have same : (Function.update a.shards (shard hash x) ((x, a.next) :: a.shards (shard hash x))
          (shard hash y)).lookup y = (a.shards (shard hash y)).lookup y := by
        by_cases one : shard hash y = shard hash x
        · rw [one, Function.update_self, List.lookup_cons, beq_false_of_ne eq]
        · rw [Function.update_of_ne one]
      rw [same, h.shards]
      split
      · rename_i last
        refine iff_of_false (fun stands => ?_) fun some => eq (Option.some.inj some).symm
        have := Numbering.get?_lt stands
        omega
      · rfl

/-- Interning in an arena gives the number that the numbering gives, and they agree afterwards. -/
theorem Mirrors.intern (h : Mirrors hash a n) (filler x : α) (room : (n.insert x).2.size < 2 ^ 32) :
    (Arena.intern hash filler x a).1.toNat = (n.insert x).1 ∧
      Mirrors hash (Arena.intern hash filler x a).2 (n.insert x).2 := by
  cases known : n.numberOf? x with
  | some i =>
    rw [Numbering.insert_known known] at room ⊢
    obtain ⟨number, same⟩ := h.intern_known known room
    rw [same]
    exact ⟨number, h⟩
  | none =>
    rw [Numbering.insert_new known] at room ⊢
    rw [Numbering.size_push] at room
    exact h.intern_new known room

end Arena

/-! ## Sequences of calls -/

namespace Store

variable {st : Store} {log : List Made}

/-- There are as many terms as have been asked for. -/
theorem Reached.size_eq (h : Reached log st) : st.size = (log.map Made.term).toFinset.card := by
  induction h with
  | empty => rfl
  | @call log st reached c known ih =>
    have stored : c.term st ∈ (log.map Made.term).toFinset ↔ ∃ i, st.terms.numberOf? (c.term st) = some i := by
      simp only [List.mem_toFinset, List.mem_map, Numbering.numberOf?_eq_some_iff]
      constructor
      · rintro ⟨m, hm, eq⟩
        exact ⟨m.id.index, eq ▸ reached.resolves m hm⟩
      · rintro ⟨i, stands⟩
        exact reached.exists_made (t := ⟨i⟩) stands
    rw [List.map_append, List.toFinset_append, Finset.union_comm]
    change (c.run st).2.terms.size = (insert (c.term st) (log.map Made.term).toFinset).card
    rw [(c.run_terms st).2]
    cases known : st.terms.numberOf? (c.term st) with
    | some i =>
      rw [Numbering.insert_known known, Finset.insert_eq_of_mem (stored.mpr ⟨i, known⟩)]
      exact ih
    | none =>
      have absent : c.term st ∉ (log.map Made.term).toFinset := fun mem => by
        obtain ⟨i, some⟩ := stored.mp mem
        rw [known] at some
        cases some
      rw [Numbering.insert_new known, Numbering.size_push, Finset.card_insert_of_notMem absent, ← ih]
      rfl

/-- An arena in which the terms are interned that calls ask for returns their ids and resolves them, as
    long as there are no more terms than ids. -/
theorem Reached.arena (h : Reached log st) (hash : Term → Nat) (filler : Term)
    (room : st.size < 2 ^ 32) :
    let r := Arena.internAll hash filler (log.map Made.term) .empty
    r.1.map UInt32.toNat = log.map (·.id.index) ∧ r.2.Mirrors hash st.terms := by
  induction h with
  | empty => exact ⟨rfl, Arena.mirrors_empty⟩
  | @call log st reached c known ih =>
    obtain ⟨id, terms⟩ := c.run_terms st
    have grows := Call.run_grows (Reached.stored_of_known reached.resolves known)
    obtain ⟨ids, mirrors⟩ := ih (Nat.lt_of_le_of_lt grows.size_le room)
    have room' : (st.terms.insert (c.term st)).2.size < 2 ^ 32 := terms ▸ room
    obtain ⟨number, mirrors'⟩ := mirrors.intern filler (c.term st) room'
    dsimp only at ids mirrors' ⊢
    rw [List.map_append, List.map_append, Arena.internAll_append, List.map_append, ids, terms]
    refine ⟨congrArg (_ ++ ·) ?_, mirrors'⟩
    exact congrArg ([·]) (number.trans id.symm)

/-- The tensor and the element type that a call makes a constant of. -/
def Call.value? : Call → Option (Tensor × ElemType)
  | constant value elem => some (value, elem)
  | scalar x => some (.scalar x, .f64)
  | _ => none

theorem Call.term_of_value? {c : Call} {value : Tensor} {elem : ElemType}
    (h : c.value? = some (value, elem)) (st : Store) :
    c.term st = .leaf (.const (.ofTensor value elem)) := by
  cases c with
  | constant => cases h; rfl
  | scalar => cases h; rfl
  | _ => cases h

/-- What an entry asks for is what its call asks for in some store. -/
theorem Reached.exists_term (h : Reached log st) {m : Made} (hm : m ∈ log) :
    ∃ before, m.term = m.call.term before := by
  obtain ⟨earlier, later, split⟩ := List.append_of_mem hm
  obtain ⟨before, c, -, rfl⟩ := h.exists_before split
  exact ⟨before, rfl⟩

/-- Every id keeps the term that was asked for, and two ids are the same exactly when the terms are:
    applications by operator, operands and attributes, constants by element type, shape and canonical
    bits. Operands stand before the terms that use them, and there are as many ids as terms. An arena
    has the same ids, terms and size, whatever the hash, unless there are too many terms. -/
theorem Reached.terms_stored_once (h : Reached log st) :
    (∀ m ∈ log, st.term? m.id = some m.term) ∧
    (∀ m ∈ log, ∀ n ∈ log, m.id = n.id ↔ m.term = n.term) ∧
    (∀ m ∈ log, ∀ n ∈ log, ∀ op args attrs op' args' attrs', m.call = .app op args attrs →
      n.call = .app op' args' attrs' → (m.id = n.id ↔ op = op' ∧ args = args' ∧ attrs = attrs')) ∧
    (∀ m ∈ log, ∀ n ∈ log, ∀ value elem value' elem', m.call.value? = some (value, elem) →
      n.call.value? = some (value', elem') → (m.id = n.id ↔ elem = elem' ∧ value.shape = value'.shape ∧
        value.data.map canonicalBits = value'.data.map canonicalBits)) ∧
    (∀ t op args attrs, st.term? t = some (.app op args attrs) → ∀ u ∈ args, u.index < t.index) ∧
    st.size = (log.map Made.term).toFinset.card ∧
    ∀ (hash : Term → Nat) (filler : Term), st.size < 2 ^ 32 →
      let r := Arena.internAll hash filler (log.map Made.term) .empty
      r.1.map UInt32.toNat = log.map (·.id.index) ∧ (∀ t : TermId, r.2.nodes[t.index]? = st.term? t) ∧
        r.2.next.toNat = st.size := by
  refine ⟨h.resolves, fun m hm n hn => h.id_eq_iff hm hn, ?_, ?_, h.valid, h.size_eq, ?_⟩
  · intro m hm n hn op args attrs op' args' attrs' call call'
    obtain ⟨before, term⟩ := h.exists_term hm
    obtain ⟨before', term'⟩ := h.exists_term hn
    rw [h.id_eq_iff hm hn, term, term', call, call']
    exact iff_of_eq (Term.app.injEq ..)
  · intro m hm n hn value elem value' elem' call call'
    obtain ⟨before, term⟩ := h.exists_term hm
    obtain ⟨before', term'⟩ := h.exists_term hn
    rw [h.id_eq_iff hm hn, term, term', Call.term_of_value? call, Call.term_of_value? call',
      ← Constant.ofTensor_eq_iff]
    simp only [Term.leaf.injEq, Leaf.const.injEq]
  · intro hash filler room
    obtain ⟨ids, mirrors⟩ := h.arena hash filler room
    exact ⟨ids, fun t => mirrors.getElem?_nodes t.index, mirrors.next⟩

/-- Both zeros and another zero of a smaller type, a sum of an input and a variable made twice, and one
    with the operands exchanged. -/
def sharedCalls : List Call := [.scalar 0.0, .scalar (-0.0), .constant (.scalar 0.0) .f32, .input "x",
  .fresh, .app "add" [⟨2⟩, ⟨3⟩] .unspecified, .app "add" [⟨2⟩, ⟨3⟩] .unspecified,
  .app "add" [⟨3⟩, ⟨2⟩] .unspecified]

theorem exists_stored_once_sharedCalls : ∃ log st, Reached log st ∧ log.map Made.call = sharedCalls ∧
    log.map Made.id = [⟨0⟩, ⟨0⟩, ⟨1⟩, ⟨2⟩, ⟨3⟩, ⟨4⟩, ⟨4⟩, ⟨5⟩] ∧ st.size = 6 ∧
    (log.map Made.term).toFinset.card = 6 ∧ (∀ m ∈ log, st.term? m.id = some m.term) ∧
    (∀ hash filler, (Arena.internAll hash filler (log.map Made.term) .empty).1.map UInt32.toNat =
      [0, 0, 1, 2, 3, 4, 4, 5]) := by
  have reached := (((((((Reached.empty.call (.scalar 0.0) nofun).call (.scalar (-0.0)) nofun).call
    (.constant (.scalar 0.0) .f32) nofun).call (.input "x") nofun).call .fresh nofun).call
    (.app "add" [⟨2⟩, ⟨3⟩] .unspecified) (by decide +kernel)).call (.app "add" [⟨2⟩, ⟨3⟩] .unspecified)
    (by decide +kernel)).call (.app "add" [⟨3⟩, ⟨2⟩] .unspecified) (by decide +kernel)
  obtain ⟨resolves, -, -, -, -, size, arena⟩ := reached.terms_stored_once
  have six : _ = 6 := size.symm.trans (by decide +kernel)
  refine ⟨_, _, reached, rfl, by decide +kernel, by decide +kernel, six, resolves, fun hash filler => ?_⟩
  refine (arena hash filler ?_).1.trans ?_ <;> decide +kernel

end Store

end Regraft
