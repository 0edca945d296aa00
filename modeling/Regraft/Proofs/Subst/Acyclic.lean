import Regraft.Proofs.Term.Store
import Regraft.Subst.Resolve
import Mathlib.Data.Finset.Card
import Mathlib.Logic.Relation

/-
  Acyclic substitutions. A stored term leads to its operands, and a bound variable to its binding;
  a substitution is acyclic when no path leads back. Counting the points that a path can still reach
  bounds its length (`reach_lt`): following bindings takes at most as many hops as there are bound
  variables, and going down a term at most as many applications as are stored. That is why the
  bounds of `deref` and of the searches down a term suffice.
-/

namespace Regraft

open Relation

/-! ## Reach -/

section

variable {α : Type*} {r : α → α → Prop} {points : Finset α} {a b : α}

open Classical in
/-- How many of the points a path from `a` can meet. -/
noncomputable def reach (r : α → α → Prop) (points : Finset α) (a : α) : Nat :=
  (points.filter (ReflTransGen r a)).card

theorem reach_le : reach r points a ≤ points.card := by
  classical
  unfold reach
  exact Finset.card_filter_le _ _

theorem reach_mono (h : r a b) : reach r points b ≤ reach r points a := by
  classical
  unfold reach
  refine Finset.card_le_card fun c hc => ?_
  rw [Finset.mem_filter] at hc ⊢
  exact ⟨hc.1, .head h hc.2⟩

/-- A step away from a point can not meet it again. -/
theorem reach_lt (acyclic : ¬ TransGen r a a) (ha : a ∈ points) (h : r a b) :
    reach r points b < reach r points a := by
  classical
  unfold reach
  refine Finset.card_lt_card ((Finset.ssubset_iff_of_subset fun c hc => ?_).mpr ⟨a, ?_, fun hb => ?_⟩)
  · rw [Finset.mem_filter] at hc ⊢
    exact ⟨hc.1, .head h hc.2⟩
  · exact Finset.mem_filter.mpr ⟨ha, .refl⟩
  · exact acyclic (.head' h (Finset.mem_filter.mp hb).2)

end

namespace Subst

/-- One step down from a stored term: to an operand, or from a variable to its binding. -/
inductive Leads (s : Subst) (st : Store) : TermId → TermId → Prop
  | binding {t u : TermId} {v : UInt32} (var : st.term? t = some (.var v))
      (bound : s.get? v = some u) : Leads s st t u
  | operand {t u : TermId} {op : String} {args : List TermId} {attrs : Attrs}
      (app : st.term? t = some (.app op args attrs)) (mem : u ∈ args) : Leads s st t u

/-- No term leads back to itself. -/
def Acyclic (s : Subst) (st : Store) : Prop := ∀ t, ¬ TransGen (s.Leads st) t t

/-- A substitution that belongs to a store: its bindings are stored there, and it is acyclic. -/
structure Sound (s : Subst) (st : Store) : Prop where
  valid : st.Valid
  stored : ∀ v t, s.get? v = some t → st.Stored t
  acyclic : s.Acyclic st

variable {s : Subst} {st st' : Store} {t u : TermId}

namespace Leads

theorem stored_left (h : s.Leads st t u) : st.Stored t := by
  cases h with
  | binding var bound => exact Store.stored_of_term? var
  | operand app mem => exact Store.stored_of_term? app

theorem stored_right (hs : s.Sound st) (h : s.Leads st t u) : st.Stored u := by
  cases h with
  | binding var bound => exact hs.stored _ _ bound
  | operand app mem => exact hs.valid.stored app mem

/-- A step from a stored term is the same step in a store that has grown. -/
theorem of_grows (g : st.Grows st') (ht : st.Stored t) (h : s.Leads st' t u) : s.Leads st t u := by
  cases h with
  | binding var bound => exact .binding (g.term?_eq ht ▸ var) bound
  | operand app mem => exact .operand (g.term?_eq ht ▸ app) mem

end Leads

theorem Sound.stored_of_transGen (hs : s.Sound st) (h : TransGen (s.Leads st) t u) :
    st.Stored u := by
  cases h with
  | single h => exact h.stored_right hs
  | tail _ h => exact h.stored_right hs

/-- From a stored term all paths stay in the old store. -/
theorem Sound.transGen_of_grows (hs : s.Sound st) (g : st.Grows st') (ht : st.Stored t)
    (h : TransGen (s.Leads st') t u) : TransGen (s.Leads st) t u := by
  induction h with
  | single h => exact .single (h.of_grows g ht)
  | tail _ h ih => exact ih.tail (h.of_grows g (hs.stored_of_transGen ih))

/-- A path of a grown store to one of its new terms only goes down operands. -/
theorem Sound.index_lt_of_grows (hs : s.Sound st) (g : st.Grows st') (hu : ¬ st.Stored u)
    (h : TransGen (s.Leads st') t u) : u.index < t.index := by
  have down : ∀ {w u}, ¬ st.Stored u → s.Leads st' w u → ¬ st.Stored w ∧ u.index < w.index := by
    intro w u hu h
    cases h with
    | binding var bound => exact absurd (hs.stored _ _ bound) hu
    | operand app mem =>
      refine ⟨fun hw => hu ?_, g.valid hs.valid _ _ _ _ app _ mem⟩
      exact hs.valid.stored (g.term?_eq hw ▸ app) mem
  induction h with
  | single h => exact (down hu h).2
  | tail _ h ih =>
    obtain ⟨hw, lt⟩ := down hu h
    exact Nat.lt_trans lt (ih hw)

/-- A substitution stays sound when the store grows. -/
theorem Sound.grows (hs : s.Sound st) (g : st.Grows st') : s.Sound st' where
  valid := g.valid hs.valid
  stored v t h := g.stored (hs.stored v t h)
  acyclic t h := by
    by_cases ht : st.Stored t
    · exact hs.acyclic t (hs.transGen_of_grows g ht h)
    · exact Nat.lt_irrefl _ (hs.index_lt_of_grows g ht h)

/-! ## Following bindings -/

/-- The places of bound variables. -/
def boundPlaces (s : Subst) (st : Store) : Finset TermId :=
  ((Finset.range st.size).image TermId.mk).filter fun t =>
    (st.var? t).any s.isBound

theorem mem_boundPlaces {v : UInt32} (hv : st.var? t = some v) (hb : s.get? v = some u) :
    t ∈ s.boundPlaces st := by
  have ht : st.Stored t := Store.stored_of_term? (Store.var?_eq_some_iff.mp hv)
  refine Finset.mem_filter.mpr ⟨Finset.mem_image.mpr ⟨t.index, Finset.mem_range.mpr ht, rfl⟩, ?_⟩
  simp [hv, isBound, hb]

/-- There are no more places of bound variables than bound variables. -/
theorem card_boundPlaces_le : (s.boundPlaces st).card ≤ s.size := by
  have keys : s.bindings.keys.toFinset.card ≤ s.size := by
    have := List.toFinset_card_le s.bindings.keys
    rwa [Std.TreeMap.length_keys] at this
  refine Nat.le_trans (Finset.card_le_card_of_injOn (fun t => (st.var? t).getD 0) ?_ ?_) keys
  · intro t ht
    obtain ⟨v, hv, hb⟩ := (Option.any_eq_true _ _).mp (Finset.mem_filter.mp ht).2
    obtain ⟨u, hu⟩ := Option.isSome_iff_exists.mp hb
    have : v ∈ s.bindings := Std.TreeMap.mem_iff_isSome_getElem?.mpr hb
    simpa [hv] using this
  · intro t ht u hu h
    obtain ⟨v, hv, _⟩ := (Option.any_eq_true _ _).mp (Finset.mem_filter.mp ht).2
    obtain ⟨w, hw, _⟩ := (Option.any_eq_true _ _).mp (Finset.mem_filter.mp hu).2
    simp only [hv, hw, Option.getD_some] at h
    rw [Store.var?_eq_some_iff] at hv hw
    exact Store.term?_inj hv (h ▸ hw)

/-- What a place resolves to, one binding followed. -/
def hop (s : Subst) (st : Store) (t : TermId) : Option TermId := (st.var? t).bind s.get?

theorem derefWithin_succ (n : Nat) (t : TermId) :
    s.derefWithin st (n + 1) t = match s.hop st t with
      | none => t
      | some u => s.derefWithin st n u := by
  rw [derefWithin, hop]
  cases st.var? t with
  | none => rfl
  | some v =>
    cases h : s.get? v <;> simp only [Option.bind_some, h]

theorem hop_eq_some_iff :
    s.hop st t = some u ↔ ∃ v, st.var? t = some v ∧ s.get? v = some u := Option.bind_eq_some_iff

theorem leads_of_hop (h : s.hop st t = some u) : s.Leads st t u := by
  obtain ⟨v, hv, hu⟩ := hop_eq_some_iff.mp h
  exact .binding (Store.var?_eq_some_iff.mp hv) hu

/-- Behind a hop fewer bound variables can be met. -/
theorem Sound.reach_lt_of_hop (hs : s.Sound st) (h : s.hop st t = some u) :
    reach (s.Leads st) (s.boundPlaces st) u < reach (s.Leads st) (s.boundPlaces st) t := by
  obtain ⟨v, hv, hu⟩ := hop_eq_some_iff.mp h
  exact reach_lt (hs.acyclic t) (mem_boundPlaces hv hu) (leads_of_hop h)

/-- With as many hops as bound variables can be met, one more makes no difference. -/
theorem Sound.derefWithin_stable (hs : s.Sound st) {n : Nat}
    (hn : reach (s.Leads st) (s.boundPlaces st) t ≤ n) :
    s.derefWithin st (n + 1) t = s.derefWithin st n t := by
  induction n generalizing t with
  | zero =>
    rw [derefWithin_succ]
    cases h : s.hop st t with
    | none => rfl
    | some u =>
      have := hs.reach_lt_of_hop h
      omega
  | succ n ih =>
    rw [derefWithin_succ, derefWithin_succ]
    cases h : s.hop st t with
    | none => rfl
    | some u =>
      have := hs.reach_lt_of_hop h
      exact ih (by omega)

/-- `deref` follows a binding whenever there is one. -/
theorem Sound.deref_eq (hs : s.Sound st) (t : TermId) :
    s.deref st t = match s.hop st t with
      | none => t
      | some u => s.deref st u := by
  unfold deref
  rw [derefWithin_succ]
  cases h : s.hop st t with
  | none => rfl
  | some u =>
    have := hs.reach_lt_of_hop h
    have : reach (s.Leads st) (s.boundPlaces st) t ≤ _ := reach_le
    have : (s.boundPlaces st).card ≤ s.size := card_boundPlaces_le
    exact (hs.derefWithin_stable (by omega)).symm

end Subst

end Regraft
