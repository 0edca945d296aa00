import Regraft.Term.Store

/-
  What all actions on a store keep. In a valid store operands stand before the terms that use them.
  A store grows: every term keeps its place, and validity is kept (`Store.Grows`). Interning a term
  whose operands are stored grows the store and puts the term in its place (`intern_spec`).
-/

namespace Regraft

namespace Numbering

variable {α : Type} [DecidableEq α] [Keyed α]

theorem get?_lt {n : Numbering α} {i : Nat} {x : α} (h : n.get? i = some x) : i < n.size :=
  (Array.getElem?_eq_some_iff.mp h).1

theorem get?_push (n : Numbering α) (x : α) (new : n.numberOf? x = none) (i : Nat) :
    (n.push x new).get? i = if i = n.size then some x else n.get? i := by
  change (n.values.push x)[i]? = _
  rw [Array.getElem?_push]
  rfl

theorem size_push (n : Numbering α) (x : α) (new : n.numberOf? x = none) :
    (n.push x new).size = n.size + 1 := by
  change (n.values.push x).size = _
  rw [Array.size_push]
  rfl

theorem insert_known {x : α} {n : Numbering α} {i : Nat} (known : n.numberOf? x = some i) :
    n.insert x = (i, n) := by
  unfold insert
  split
  · rename_i j known'
    rw [known] at known'
    cases known'
    rfl
  · rename_i new
    rw [known] at new
    cases new

theorem insert_new {x : α} {n : Numbering α} (new : n.numberOf? x = none) :
    n.insert x = (n.size, n.push x new) := by
  unfold insert
  split
  · rename_i known
    rw [new] at known
    cases known
  · rfl

/-- An inserted value has the number that is returned; older values keep theirs. -/
theorem insert_spec (x : α) (n : Numbering α) :
    (n.insert x).2.get? (n.insert x).1 = some x ∧
      ∀ i y, n.get? i = some y → (n.insert x).2.get? i = some y := by
  unfold insert
  split
  · rename_i i h
    exact ⟨numberOf?_eq_some_iff.mp h, fun i y hy => hy⟩
  · rename_i h
    refine ⟨by rw [get?_push, if_pos rfl], fun i y hy => ?_⟩
    have hi : i < n.size := get?_lt hy
    rw [get?_push, if_neg (by omega)]
    exact hy

/-- A value of a numbering after an insertion is an old one or the inserted one. -/
theorem get?_insert {x y : α} {n : Numbering α} {i : Nat} (h : (n.insert x).2.get? i = some y) :
    n.get? i = some y ∨ i = n.size ∧ y = x := by
  unfold insert at h
  split at h
  · exact .inl h
  · rw [get?_push] at h
    split at h
    · cases h
      exact .inr ⟨‹_›, rfl⟩
    · exact .inl h

end Numbering

namespace Store

/-- A term stands at the place. -/
def Stored (st : Store) (t : TermId) : Prop := t.index < st.size

instance (st : Store) (t : TermId) : Decidable (st.Stored t) := inferInstanceAs (Decidable (_ < _))

theorem stored_of_term? {st : Store} {t : TermId} {x : Term} (h : st.term? t = some x) :
    st.Stored t := Numbering.get?_lt h

theorem term?_of_stored {st : Store} {t : TermId} (h : st.Stored t) : ∃ x, st.term? t = some x :=
  ⟨_, Array.getElem?_eq_getElem h⟩

/-- Two places of one term are the same place. -/
theorem term?_inj {st : Store} {t u : TermId} {x : Term} (ht : st.term? t = some x)
    (hu : st.term? u = some x) : t = u := by
  obtain ⟨i⟩ := t
  obtain ⟨j⟩ := u
  rw [st.terms.unique i j x ht hu]

/-- Operands are stored before the terms that use them. -/
def Valid (st : Store) : Prop :=
  ∀ t op args attrs, st.term? t = some (.app op args attrs) → ∀ u ∈ args, u.index < t.index

theorem valid_empty : Valid empty := by
  intro t op args attrs h
  simp [term?, empty, Numbering.get?, Numbering.empty] at h

instance (st : Store) : Decidable st.Valid :=
  decidable_of_iff (∀ i ∈ List.range st.size, ∀ u ∈ (st.app? ⟨i⟩).elim [] (·.2.1), u.index < i) <| by
    constructor
    · rintro h ⟨i⟩ op args attrs ht u hu
      refine h i (List.mem_range.mpr (stored_of_term? ht)) u ?_
      rw [app?, ht]
      exact hu
    · intro h i _ u hu
      unfold app? at hu
      split at hu
      · exact h ⟨i⟩ _ _ _ ‹_› u hu
      · cases hu

theorem Valid.stored {st : Store} (hv : st.Valid) {t : TermId} {op : String} {args : List TermId}
    {attrs : Attrs} (h : st.term? t = some (.app op args attrs)) {u : TermId} (hu : u ∈ args) :
    st.Stored u := Nat.lt_trans (hv t op args attrs h u hu) (stored_of_term? h)

/-! ## Views of a stored term -/

theorem app?_eq_some_iff {st : Store} {t : TermId} {op : String} {args : List TermId}
    {attrs : Attrs} :
    st.app? t = some (op, args, attrs) ↔ st.term? t = some (.app op args attrs) := by
  unfold app?
  split
  · rename_i h
    rw [h]
    simp
  · rename_i h
    exact ⟨nofun, fun h' => absurd h' (h op args attrs)⟩

theorem var?_eq_some_iff {st : Store} {t : TermId} {v : UInt32} :
    st.var? t = some v ↔ st.term? t = some (.var v) := by
  unfold var?
  split
  · rename_i h
    rw [h]
    simp
  · rename_i h
    exact ⟨nofun, fun h' => absurd h' (h v)⟩

/-! ## Growth -/

/-- Every term keeps its place, and operands keep standing before the terms that use them. -/
structure Grows (a b : Store) : Prop where
  keeps : ∀ t x, a.term? t = some x → b.term? t = some x
  valid : a.Valid → b.Valid

namespace Grows

theorem refl (a : Store) : a.Grows a := ⟨fun _ _ => id, id⟩

theorem trans {a b c : Store} (hab : a.Grows b) (hbc : b.Grows c) : a.Grows c :=
  ⟨fun t x h => hbc.keeps t x (hab.keeps t x h), fun h => hbc.valid (hab.valid h)⟩

theorem stored {a b : Store} (h : a.Grows b) {t : TermId} (ht : a.Stored t) : b.Stored t := by
  obtain ⟨x, hx⟩ := term?_of_stored ht
  exact stored_of_term? (h.keeps t x hx)

/-- A stored term is the same term afterwards. -/
theorem term?_eq {a b : Store} (h : a.Grows b) {t : TermId} (ht : a.Stored t) :
    b.term? t = a.term? t := by
  obtain ⟨x, hx⟩ := term?_of_stored ht
  rw [hx, h.keeps t x hx]

theorem var?_eq {a b : Store} (h : a.Grows b) {t : TermId} (ht : a.Stored t) :
    b.var? t = a.var? t := by
  unfold var?
  rw [h.term?_eq ht]

theorem size_le {a b : Store} (h : a.Grows b) : a.size ≤ b.size :=
  Nat.le_of_not_lt fun hlt =>
    have hs : a.Stored ⟨b.size⟩ := hlt
    Nat.lt_irrefl b.size (h.stored hs)

end Grows

/-- The operands of a term are stored. -/
def Closed (st : Store) : Term → Prop
  | .app _ args _ => ∀ u ∈ args, st.Stored u
  | _ => True

/-- An interned term stands at the place that is returned. -/
theorem term?_intern (x : Term) (st : Store) :
    (intern x st).2.term? (intern x st).1 = some x := (Numbering.insert_spec x st.terms).1

theorem intern_grows {x : Term} {st : Store} (hx : st.Closed x) : st.Grows (intern x st).2 where
  keeps t y h := (Numbering.insert_spec x st.terms).2 t.index y h
  valid hv t op args attrs h u hu := by
    rcases Numbering.get?_insert (x := x) h with h | ⟨ht, rfl⟩
    · exact hv t op args attrs h u hu
    · have : u.index < st.size := hx u hu
      unfold size at this
      omega

theorem app_grows {op : String} {args : List TermId} {attrs : Attrs} {st : Store}
    (h : ∀ u ∈ args, st.Stored u) : st.Grows (app op args attrs st).2 := intern_grows h

theorem term?_app (op : String) (args : List TermId) (attrs : Attrs) (st : Store) :
    (app op args attrs st).2.term? (app op args attrs st).1 = some (.app op args attrs) :=
  term?_intern _ st

theorem stored_app (op : String) (args : List TermId) (attrs : Attrs) (st : Store) :
    (app op args attrs st).2.Stored (app op args attrs st).1 :=
  stored_of_term? (term?_app op args attrs st)

theorem fresh_grows (st : Store) : st.Grows (fresh st).2 := by
  have h : Grows { st with nextVar := st.nextVar + 1 } (fresh st).2 := intern_grows trivial
  exact ⟨h.keeps, h.valid⟩

theorem term?_fresh (st : Store) : (fresh st).2.term? (fresh st).1 = some (.var st.nextVar) :=
  term?_intern _ _

end Store

end Regraft
