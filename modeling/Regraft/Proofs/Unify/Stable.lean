import Regraft.Proofs.Unify.Rounds
import Regraft.Unify.Disequality

/-
  What verdicts on disequalities depend on: the bindings, whatever is carried beside them
  (`Disequality.check_of_bindings`), and the terms that are reached, so that a store that grows changes
  none (`Disequality.check_grows`).
-/

namespace Regraft

namespace Subst

variable {st st' : Store} {s s' : Subst} {a b t : TermId} {n : Nat} {v : UInt32}
  {ds : List Disequality} {sites : List Site}

/-! ## Only the bindings count -/

/-- Other disequalities and sites beside the same bindings. -/
def carrying (s : Subst) (ds : List Disequality) (sites : List Site) : Subst := ⟨s.bindings, ds, sites⟩

theorem derefWithin_carrying : (s.carrying ds sites).derefWithin st n t = s.derefWithin st n t := by
  induction n generalizing t with
  | zero => rfl
  | succ n ih =>
    have hop : (s.carrying ds sites).hop st t = s.hop st t := rfl
    rw [derefWithin_succ, derefWithin_succ, hop]
    cases s.hop st t with
    | none => rfl
    | some u => exact ih

theorem deref_carrying : (s.carrying ds sites).deref st t = s.deref st t := derefWithin_carrying

theorem occursWithin_carrying :
    (s.carrying ds sites).occursWithin st v n t = s.occursWithin st v n t := by
  induction n generalizing t with
  | zero => rfl
  | succ n ih =>
    rw [occursWithin, occursWithin, deref_carrying]
    have each : (s.carrying ds sites).occursWithin st v n = s.occursWithin st v n := funext fun _ => ih
    rw [each]

theorem bindTo_carrying : (s.carrying ds sites).bindTo st v t =
    (s.bindTo st v t).map (·.carrying ds sites) := by
  unfold bindTo occurs
  rw [occursWithin_carrying]
  split <;> rfl

theorem unifyPairs_carrying {unify : TermId → TermId → Subst → Option Subst}
    (each : ∀ a b s, unify a b (s.carrying ds sites) = (unify a b s).map (·.carrying ds sites))
    (pairs : List (TermId × TermId)) (s : Subst) :
    unifyPairs unify pairs (s.carrying ds sites) =
      (unifyPairs unify pairs s).map (·.carrying ds sites) := by
  induction pairs generalizing s with
  | nil => rfl
  | cons p rest ih =>
    show (unify p.1 p.2 _).bind _ = ((unify p.1 p.2 s).bind _).map _
    rw [each]
    cases unify p.1 p.2 s with
    | none => rfl
    | some r => exact ih r

/-- Unification carries disequalities and sites along. -/
theorem unifyWithin_carrying (s : Subst) : unifyWithin st n a b (s.carrying ds sites) =
    (unifyWithin st n a b s).map (·.carrying ds sites) := by
  induction n generalizing a b s with
  | zero => rfl
  | succ n ih =>
    rw [unifyWithin, unifyWithin, deref_carrying, deref_carrying]
    by_cases same : s.deref st a = s.deref st b
    · simp only [same, if_true]
      rfl
    simp only [same, if_false, bindTo_carrying]
    rcases st.term? (s.deref st a) with _ | x <;> rcases st.term? (s.deref st b) with _ | y
    · rfl
    · rfl
    · cases x <;> rfl
    cases x with
    | var i => cases y with
      | var j =>
        simp only
        split <;> rfl
      | _ => rfl
    | leaf l => cases y with
      | leaf m =>
        simp only
        split <;> rfl
      | _ => rfl
    | app f xs attrs => cases y with
      | app g ys attrs' =>
        simp only
        split
        · exact unifyPairs_carrying (fun a b s => ih s) _ s
        · rfl
      | _ => rfl

/-! ## A store that grows -/

theorem Sound.occurs_grows (hs : s.Sound st) (g : st.Grows st') (ht : st.Stored t) :
    s.occurs st' v t = s.occurs st v t := by
  rw [Bool.eq_iff_iff, (hs.grows g).occurs_iff, hs.occurs_iff, hs.tree_grows g ht]

theorem Sound.settle_grows (hs : s.Sound st) (g : st.Grows st') (ha : st.Stored a)
    (hb : st.Stored b) : settle st' a b s = settle st a b s := by
  have occurs : ∀ t, st.Stored t → ∀ v, s.bindTo st' v t = s.bindTo st v t := by
    intro t ht v
    unfold bindTo
    rw [hs.occurs_grows g ht]
  have ha' := hs.stored_deref ha
  have hb' := hs.stored_deref hb
  unfold settle
  simp only [hs.deref_grows g ha, hs.deref_grows g hb, g.term?_eq ha', g.term?_eq hb',
    occurs _ ha', occurs _ hb']

theorem unifyPairs_congr {unify unify' : TermId → TermId → Subst → Option Subst}
    {pairs : List (TermId × TermId)} {P : Subst → Prop} (hs : P s)
    (eq : ∀ p ∈ pairs, ∀ s, P s → unify p.1 p.2 s = unify' p.1 p.2 s)
    (keeps : ∀ p ∈ pairs, ∀ s s', P s → unify' p.1 p.2 s = some s' → P s') :
    unifyPairs unify pairs s = unifyPairs unify' pairs s := by
  induction pairs generalizing s with
  | nil => rfl
  | cons p rest ih =>
    rw [List.forall_mem_cons] at eq keeps
    show (unify p.1 p.2 s).bind _ = (unify' p.1 p.2 s).bind _
    rw [eq.1 s hs]
    cases h : unify' p.1 p.2 s with
    | none => rfl
    | some r => exact ih (keeps.1 s r hs h) eq.2 keeps.2

theorem unifyPairs_keeps {unify : TermId → TermId → Subst → Option Subst}
    {pairs : List (TermId × TermId)} {P : Subst → Prop} (hs : P s)
    (each : ∀ p ∈ pairs, ∀ s s', P s → unify p.1 p.2 s = some s' → P s')
    (h : unifyPairs unify pairs s = some s') : P s' := by
  induction pairs generalizing s with
  | nil =>
    cases h
    exact hs
  | cons p rest ih =>
    rw [List.forall_mem_cons] at each
    obtain ⟨r, hr, h⟩ := Option.bind_eq_some_iff.mp h
    exact ih (each.1 s r hs hr) each.2 h

/-- Unification keeps a substitution sound, within any bound. -/
theorem Sound.of_unifyWithin (hs : s.Sound st) (ha : st.Stored a) (hb : st.Stored b)
    (h : unifyWithin st n a b s = some s') : s'.Sound st := by
  induction n generalizing a b s s' with
  | zero => cases h
  | succ n ih =>
    rw [unifyWithin_succ] at h
    obtain ⟨⟨more, s₁⟩, settled, h⟩ := Option.bind_eq_some_iff.mp h
    have settles := hs.settles ha hb settled
    refine unifyPairs_keeps (P := (·.Sound st)) (settles.keeps hs ha hb).sound ?_ h
    intro p hp s s' hs h
    obtain ⟨⟨left, right⟩, -⟩ := settles.pairs ‹_› p hp
    exact ih hs left right h

/-- Terms that were stored unify as before. -/
theorem Sound.unifyWithin_grows (hs : s.Sound st) (g : st.Grows st') (ha : st.Stored a)
    (hb : st.Stored b) : unifyWithin st' n a b s = unifyWithin st n a b s := by
  induction n generalizing a b s with
  | zero => rfl
  | succ n ih =>
    rw [unifyWithin_succ, unifyWithin_succ, hs.settle_grows g ha hb]
    refine Option.bind_congr fun ⟨more, s₁⟩ settled => ?_
    have settles := hs.settles ha hb settled
    have stored := fun p hp => (settles.pairs hs p hp).1
    refine unifyPairs_congr (P := (·.Sound st)) (settles.keeps hs ha hb).sound ?_ ?_
    · exact fun p hp s hs => ih hs (stored p hp).1 (stored p hp).2
    · exact fun p hp s s' hs => hs.of_unifyWithin (stored p hp).1 (stored p hp).2

theorem Sound.unifyBindings_grows (hs : s.Sound st) (g : st.Grows st') (ha : st.Stored a)
    (hb : st.Stored b) : s.unifyBindings st' a b = s.unifyBindings st a b := by
  have le : pairBound st ≤ pairBound st' := by
    have size : st.size + 1 ≤ st'.size + 1 := Nat.succ_le_succ g.size_le
    exact Nat.mul_le_mul (Nat.mul_le_mul size size) size
  rw [unifyBindings, hs.unifyWithin_grows g ha hb]
  exact unifyWithin_eq hs ha hb (Nat.lt_of_lt_of_le potential_lt_pairBound le)

end Subst

namespace Disequality

variable {st st' : Store} {s s' : Subst} {d : Disequality}

/-- Only the bindings count for a verdict. -/
theorem check_of_bindings (d : Disequality) (st : Store) (eq : s.bindings = s'.bindings) :
    d.check s' st = d.check s st := by
  have carried : s' = s.carrying s'.constraints s'.sites := by
    unfold Subst.carrying
    rw [eq]
  rw [carried]
  unfold check Subst.unifyBindings
  rw [Subst.unifyWithin_carrying]
  cases Subst.unifyWithin st (Subst.pairBound st) d.lhs d.rhs s <;> rfl

/-- A store that grows changes no verdict. -/
theorem check_grows (hs : s.Sound st) (g : st.Grows st') (hl : st.Stored d.lhs)
    (hr : st.Stored d.rhs) : d.check s st' = d.check s st := by
  unfold check
  rw [hs.unifyBindings_grows g hl hr]

end Disequality

end Regraft
