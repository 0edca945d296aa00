import Mathlib.Data.List.Forall2
import Regraft.Proofs.Session.Fresh

/-
  Two stores side by side that count their new variables from different numbers. Variables below
  a base are common to both; a later one of the left store is found on the right a fixed
  distance further on (`Renaming.Takes`). Terms are twins when they are the same but for that
  (`Renaming.Twins`). Being twins is one-to-one (`Twins.eq_iff`), it lasts while the stores grow, and
  what both stores make of twins are twins again, as long as the right one has room (`fresh_made`).
-/

namespace Regraft

/-- Two stored terms are the same when they stand at the same place. -/
theorem Store.eq_iff_term?_eq {st : Store} {t u : TermId} {x y : Term} (ht : st.term? t = some x)
    (hu : st.term? u = some y) : t = u ↔ x = y := by
  constructor
  · rintro rfl
    exact Option.some.inj (ht.symm.trans hu)
  · rintro rfl
    exact term?_inj ht hu

/-- What two stores have in common from the start: the variables below `base`, and some names of
    them. -/
structure Common where
  base : Nat
  names : String → Option UInt32

/-- How numbers of variables on the right follow from those on the left. -/
structure Renaming extends Common where
  /-- How much further on a variable is that is not common to both. -/
  shift : Nat

namespace Renaming

variable {ρ : Renaming}

/-- The number on the right of a variable on the left. -/
def number (ρ : Renaming) (n : Nat) : Nat := if n < ρ.base then n else n + ρ.shift

theorem number_lt_iff {m n : Nat} : ρ.number m < ρ.number n ↔ m < n := by
  unfold number
  split <;> split <;> omega

theorem number_inj {m n : Nat} : ρ.number m = ρ.number n ↔ m = n := by
  unfold number
  split <;> split <;> omega

/-- The variable on the left is the one on the right. -/
def Takes (ρ : Renaming) (v w : UInt32) : Prop := w.toNat = ρ.number v.toNat

namespace Takes

variable {v v' w w' : UInt32}

theorem lt_iff (h : ρ.Takes v w) (h' : ρ.Takes v' w') : w < w' ↔ v < v' := by
  rw [UInt32.lt_iff_toNat_lt, UInt32.lt_iff_toNat_lt, h, h', number_lt_iff]

theorem eq_iff (h : ρ.Takes v w) (h' : ρ.Takes v' w') : w = w' ↔ v = v' := by
  rw [← UInt32.toNat_inj, ← UInt32.toNat_inj, h, h', number_inj]

theorem of_lt (h : v.toNat < ρ.base) : ρ.Takes v v := by
  unfold Takes number
  rw [if_pos h]

end Takes

/-! ## Twins -/

/-- A term of the left store is the same as one of the right store, but for numbers of variables. -/
inductive Twins (ρ : Renaming) (st st' : Store) : TermId → TermId → Prop
  | var {t t' : TermId} {v w : UInt32} (left : st.term? t = some (.var v))
      (right : st'.term? t' = some (.var w)) (takes : ρ.Takes v w) : Twins ρ st st' t t'
  | leaf {t t' : TermId} {l : Leaf} (left : st.term? t = some (.leaf l))
      (right : st'.term? t' = some (.leaf l)) : Twins ρ st st' t t'
  | app {t t' : TermId} {op : String} {args args' : List TermId} {attrs : Attrs}
      (left : st.term? t = some (.app op args attrs))
      (right : st'.term? t' = some (.app op args' attrs)) (length : args.length = args'.length)
      (each : ∀ p ∈ args.zip args', Twins ρ st st' p.1 p.2) : Twins ρ st st' t t'

/-- One layer of twins. -/
inductive Layer (ρ : Renaming) (st st' : Store) : Term → Term → Prop
  | var {v w : UInt32} (takes : ρ.Takes v w) : Layer ρ st st' (.var v) (.var w)
  | leaf (l : Leaf) : Layer ρ st st' (.leaf l) (.leaf l)
  | app {op : String} {args args' : List TermId} {attrs : Attrs}
      (operands : List.Forall₂ (ρ.Twins st st') args args') :
      Layer ρ st st' (.app op args attrs) (.app op args' attrs)

section

variable {st st' st₁ st₁' : Store} {t t' u u' : TermId} {ts ts' us us' : List TermId} {x x' : Term}

theorem Layer.twins (h : ρ.Layer st st' x x') (left : st.term? t = some x)
    (right : st'.term? t' = some x') : ρ.Twins st st' t t' := by
  cases h with
  | var takes => exact .var left right takes
  | leaf l => exact .leaf left right
  | app operands =>
    obtain ⟨length, each⟩ := List.forall₂_iff_zip.mp operands
    exact .app left right length fun p mem => each mem

theorem Twins.layer (h : ρ.Twins st st' t t') :
    ∃ x x', st.term? t = some x ∧ st'.term? t' = some x' ∧ ρ.Layer st st' x x' := by
  cases h with
  | var left right takes => exact ⟨_, _, left, right, .var takes⟩
  | leaf left right => exact ⟨_, _, left, right, .leaf _⟩
  | app left right length each =>
    exact ⟨_, _, left, right, .app (List.forall₂_iff_zip.mpr ⟨length, fun mem => each _ mem⟩)⟩

namespace Twins

theorem stored_left (h : ρ.Twins st st' t t') : st.Stored t := by
  obtain ⟨x, -, left, -⟩ := h.layer
  exact Store.stored_of_term? left

theorem stored_right (h : ρ.Twins st st' t t') : st'.Stored t' := by
  obtain ⟨-, x', -, right, -⟩ := h.layer
  exact Store.stored_of_term? right

theorem grows (h : ρ.Twins st st' t t') (g : st.Grows st₁) (g' : st'.Grows st₁') :
    ρ.Twins st₁ st₁' t t' := by
  induction h with
  | var left right takes => exact .var (g.keeps _ _ left) (g'.keeps _ _ right) takes
  | leaf left right => exact .leaf (g.keeps _ _ left) (g'.keeps _ _ right)
  | app left right length _ ih => exact .app (g.keeps _ _ left) (g'.keeps _ _ right) length ih

end Twins

/-- Lists of twins are equal together when their members are. -/
theorem eq_iff_of_zip {ts ts' us us' : List TermId} (ht : ts.length = ts'.length)
    (hu : List.Forall₂ (ρ.Twins st st') us us')
    (each : ∀ p ∈ ts.zip ts', ∀ {u u'}, ρ.Twins st st' u u' → (p.2 = u' ↔ p.1 = u)) :
    ts' = us' ↔ ts = us := by
  induction ts generalizing ts' us us' with
  | nil =>
    cases List.length_eq_zero_iff.mp ht.symm
    cases hu with
    | nil => simp
    | cons => simp
  | cons t rest ih =>
    cases ts' with
    | nil => cases ht
    | cons t' rest' =>
      rw [List.zip_cons_cons, List.forall_mem_cons] at each
      cases hu with
      | nil => simp
      | cons first others =>
        rw [List.cons_eq_cons, List.cons_eq_cons, each.1 first,
          ih (Nat.succ.inj ht) others each.2]

/-- Two terms are the same on one side when they are on the other. -/
theorem Twins.eq_iff (h : ρ.Twins st st' t t') (h' : ρ.Twins st st' u u') : t' = u' ↔ t = u := by
  induction h generalizing u u' with
  | var left right takes =>
    obtain ⟨y, y', left', right', layer⟩ := h'.layer
    rw [Store.eq_iff_term?_eq right right', Store.eq_iff_term?_eq left left']
    cases layer with
    | var takes' => rw [Term.var.injEq, Term.var.injEq, takes.eq_iff takes']
    | leaf | app => simp
  | leaf left right =>
    obtain ⟨y, y', left', right', layer⟩ := h'.layer
    rw [Store.eq_iff_term?_eq right right', Store.eq_iff_term?_eq left left']
    cases layer <;> simp
  | app left right length _ ih =>
    obtain ⟨y, y', left', right', layer⟩ := h'.layer
    rw [Store.eq_iff_term?_eq right right', Store.eq_iff_term?_eq left left']
    cases layer with
    | app operands =>
      rw [Term.app.injEq, Term.app.injEq, eq_iff_of_zip length operands fun p mem _ _ => ih p mem]
    | var | leaf => simp

theorem twins_eq_iff (h : List.Forall₂ (ρ.Twins st st') ts ts')
    (h' : List.Forall₂ (ρ.Twins st st') us us') : ts' = us' ↔ ts = us := by
  obtain ⟨length, each⟩ := List.forall₂_iff_zip.mp h
  exact eq_iff_of_zip length h' fun p mem _ _ twins => (each mem).eq_iff twins

end

theorem twins_stored {st st' : Store} {ts ts' : List TermId}
    (h : List.Forall₂ (ρ.Twins st st') ts ts') :
    (∀ t ∈ ts, st.Stored t) ∧ ∀ t ∈ ts', st'.Stored t := by
  induction h with
  | nil => exact ⟨nofun, nofun⟩
  | cons first _ ih =>
    exact ⟨List.forall_mem_cons.mpr ⟨first.stored_left, ih.1⟩,
      List.forall_mem_cons.mpr ⟨first.stored_right, ih.2⟩⟩

/-! ## Stores -/

/-- Two stores whose next new variables are twins. Variables of the left one are told apart from new
    ones by its counter. -/
structure Agrees (ρ : Renaming) (st st' : Store) : Prop where
  left : st.Valid
  right : st'.Valid
  tidy : st.Tidy
  base : ρ.base ≤ st.nextVar.toNat
  next : st'.nextVar.toNat = st.nextVar.toNat + ρ.shift
  names : ∀ name v, ρ.names name = some v → v.toNat < ρ.base ∧
    st.named.lookup name = some v ∧ st'.named.lookup name = some v

/-- What two actions on stores come to: the stores grow and still agree, and the results are
    related. -/
structure Made {α β : Type} (ρ : Renaming) (st st' : Store) (R : Store → Store → α → β → Prop)
    (r : α × Store) (r' : β × Store) : Prop where
  agrees : ρ.Agrees r.2 r'.2
  left : st.Grows r.2
  right : st'.Grows r'.2
  result : R r.2 r'.2 r.1 r'.1

variable {st st' : Store}

/-- Interning a term makes twins of equal layers. -/
theorem intern_made {x x' : Term} (h : ρ.Agrees st st') (layer : ρ.Layer st st' x x')
    (old : ∀ v, x = .var v → v < st.nextVar) :
    ρ.Made st st' ρ.Twins (Store.intern x st) (Store.intern x' st') := by
  have closed : st.Closed x ∧ st'.Closed x' := by
    cases layer with
    | app operands => exact twins_stored operands
    | var | leaf => exact ⟨trivial, trivial⟩
  have g := Store.intern_grows closed.1
  have g' := Store.intern_grows closed.2
  refine ⟨⟨g.valid h.left, g'.valid h.right, ?_, h.base, h.next, h.names⟩, g, g', ?_⟩
  · rintro v ⟨t, ht⟩
    rcases Store.term?_of_intern ht with before | new
    · exact h.tidy v ⟨t, before⟩
    · exact old v new.symm
  · refine Layer.twins ?_ (Store.term?_intern x st) (Store.term?_intern x' st')
    cases layer with
    | var takes => exact .var takes
    | leaf l => exact .leaf l
    | app operands => exact .app (operands.imp fun _ _ twins => twins.grows g g')

theorem leaf_made (h : ρ.Agrees st st') (l : Leaf) :
    ρ.Made st st' ρ.Twins (Store.intern (.leaf l) st) (Store.intern (.leaf l) st') :=
  intern_made h (.leaf l) nofun

theorem app_made (h : ρ.Agrees st st') {ts ts' : List TermId}
    (operands : List.Forall₂ (ρ.Twins st st') ts ts') (op : String) (attrs : Attrs) :
    ρ.Made st st' ρ.Twins (Store.app op ts attrs st) (Store.app op ts' attrs st') :=
  intern_made h (.app operands) nofun

/-- A variable that both have in common. -/
theorem common_made (h : ρ.Agrees st st') {v : UInt32} (lt : v.toNat < ρ.base) :
    ρ.Made st st' ρ.Twins (Store.intern (.var v) st) (Store.intern (.var v) st') := by
  refine intern_made h (.var (.of_lt lt)) fun w eq => ?_
  cases eq
  exact UInt32.lt_iff_toNat_lt.mpr (Nat.lt_of_lt_of_le lt h.base)

theorem var_eq_intern {v : UInt32} (h : v < st.nextVar) : Store.var v st = Store.intern (.var v) st := by
  have lt := UInt32.lt_iff_toNat_lt.mp h
  have bound := st.nextVar.toNat_lt
  have next : (Store.nextIndex v).toNat = v.toNat + 1 := by
    unfold Store.nextIndex
    split
    · rename_i eq
      rw [eq] at lt
      simp only [UInt32.reduceToNat] at lt
      omega
    · rw [UInt32.toNat_add, UInt32.toNat_one]
      omega
  have le : Store.nextIndex v ≤ st.nextVar := by
    rw [UInt32.le_iff_toNat_le]
    omega
  have same : max st.nextVar (Store.nextIndex v) = st.nextVar := by
    show (if st.nextVar ≤ Store.nextIndex v then Store.nextIndex v else st.nextVar) = st.nextVar
    split
    · rename_i ge
      exact UInt32.le_antisymm le ge
    · rfl
  rw [Store.var, same]

theorem var_made (h : ρ.Agrees st st') {v : UInt32} (lt : v.toNat < ρ.base) :
    ρ.Made st st' ρ.Twins (Store.var v st) (Store.var v st') := by
  have left : v < st.nextVar := UInt32.lt_iff_toNat_lt.mpr (Nat.lt_of_lt_of_le lt h.base)
  have right : v < st'.nextVar := by
    rw [UInt32.lt_iff_toNat_lt, h.next]
    exact Nat.lt_of_lt_of_le lt (Nat.le_trans h.base (Nat.le_add_right ..))
  rw [var_eq_intern left, var_eq_intern right]
  exact common_made h lt

/-- A name that both have in common. -/
theorem namedVar_made (h : ρ.Agrees st st') {name : String}
    (known : (ρ.names name).isSome = true) :
    ρ.Made st st' ρ.Twins (Store.namedVar name st) (Store.namedVar name st') := by
  obtain ⟨v, eq⟩ := Option.isSome_iff_exists.mp known
  obtain ⟨lt, left, right⟩ := h.names name v eq
  rw [Store.namedVar, Store.namedVar, left, right]
  exact common_made h lt

/-- New variables are twins, as long as there is room on the right. -/
theorem fresh_made (h : ρ.Agrees st st') (room : (Store.fresh st').2.Roomy) :
    ρ.Made st st' ρ.Twins (Store.fresh st) (Store.fresh st') := by
  have ne : st'.nextVar ≠ 0xFFFFFFFF := fun eq => room ⟨_, eq ▸ Store.term?_fresh st'⟩
  have bound := st'.nextVar.toNat_lt
  have ne : st'.nextVar.toNat ≠ 4294967295 := fun eq => ne (UInt32.toNat_inj.mp eq)
  have le : st.nextVar.toNat ≤ st'.nextVar.toNat := h.next ▸ Nat.le_add_right ..
  have left : (st.nextVar + 1).toNat = st.nextVar.toNat + 1 := by
    rw [UInt32.toNat_add, UInt32.toNat_one]
    omega
  have right : (st'.nextVar + 1).toNat = st'.nextVar.toNat + 1 := by
    rw [UInt32.toNat_add, UInt32.toNat_one]
    omega
  have lt : st.nextVar < st.nextVar + 1 := by
    rw [UInt32.lt_iff_toNat_lt, left]
    exact Nat.lt_succ_self _
  -- The counters go on together, and then the variables are stored.
  have counted : ρ.Agrees { st with nextVar := st.nextVar + 1 }
      { st' with nextVar := st'.nextVar + 1 } := by
    refine ⟨h.left, h.right, fun v known => UInt32.lt_trans (h.tidy v known) lt, ?_, ?_, h.names⟩
    · exact left ▸ Nat.le_succ_of_le h.base
    · show (st'.nextVar + 1).toNat = (st.nextVar + 1).toNat + ρ.shift
      rw [left, right, h.next]
      omega
  have takes : ρ.Takes st.nextVar st'.nextVar := by
    unfold Takes number
    rw [if_neg (Nat.not_lt.mpr h.base), h.next]
  obtain ⟨agrees, -, -, twins⟩ := intern_made counted (.var takes) fun v eq => by
    cases eq
    exact lt
  exact ⟨agrees, Store.fresh_grows st, Store.fresh_grows st', twins⟩

end Renaming

end Regraft
