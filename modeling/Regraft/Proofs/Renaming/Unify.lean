import Regraft.Proofs.Renaming.Subst
import Regraft.Proofs.Unify.Stable

/-
  Twins unify together, and by twin bindings, since the older of two variables is the older one on both
  sides (`unifyWithin_substs`); so verdicts on disequalities are the same as well (`check_eq`), and what
  unification and disequalities make of twin substitutions are twins (`unify_substs`,
  `requireDistinct_substs`).
-/

namespace Regraft

namespace Renaming

variable {ρ : Renaming} {st st' st₁ st₁' : Store} {s s' : Subst} {t t' a a' b b' : TermId}
  {v w : UInt32}

/-! ## Bindings -/

/-- Both variables are bound to twins. -/
theorem Substs.bind (h : ρ.Substs st st' s s') (takes : ρ.Takes v w) (twins : ρ.Twins st st' t t')
    (unbound : s.get? v = none) : ρ.Carries st st' (s.bind v t) (s'.bind w t') where
  size := by
    have unbound' := h.bound takes
    rw [unbound] at unbound'
    cases eq : s'.get? w with
    | none => rw [Subst.size_bind unbound, Subst.size_bind eq, h.size]
    | some u => rw [eq] at unbound'; cases unbound'
  bound {x y} takes' := by
    rw [Subst.get?_bind, Subst.get?_bind]
    by_cases eq : v = x
    · rw [if_pos eq, if_pos ((takes.eq_iff takes').mpr eq)]
      exact .some twins
    · rw [if_neg eq, if_neg fun eq' => eq ((takes.eq_iff takes').mp eq')]
      exact h.bound takes'
  constraints := h.constraints
  sites := h.sites

theorem Substs.bindTo (h : ρ.Substs st st' s s') (takes : ρ.Takes v w) (twins : ρ.Twins st st' t t')
    (unbound : s.get? v = none) :
    Option.Rel (ρ.Carries st st') (s.bindTo st v t) (s'.bindTo st' w t') := by
  unfold Subst.bindTo
  rw [h.occurs takes twins]
  split
  · exact .none
  · exact .some (h.bind takes twins unbound)

theorem unifyPairs_substs {unify unify' : TermId → TermId → Subst → Option Subst}
    {pairs pairs' : List (TermId × TermId)}
    (each : ∀ {s s' a a' b b'}, ρ.Substs st st' s s' → ρ.Twins st st' a a' → ρ.Twins st st' b b' →
      Option.Rel (ρ.Substs st st') (unify a b s) (unify' a' b' s'))
    (twins : List.Forall₂ (ρ.Pairs st st') pairs pairs')
    (h : ρ.Substs st st' s s') :
    Option.Rel (ρ.Substs st st') (Subst.unifyPairs unify pairs s)
      (Subst.unifyPairs unify' pairs' s') := by
  induction twins generalizing s s' with
  | nil => exact .some h
  | @cons p p' _ _ first _ ih =>
    have here := each h first.1 first.2
    rw [Subst.unifyPairs, Subst.unifyPairs]
    generalize unify p.1 p.2 s = r at here ⊢
    generalize unify' p'.1 p'.2 s' = r' at here ⊢
    cases here with
    | none => exact .none
    | some h => exact ih h

/-- Within any bound, twins unify together, by twin bindings. -/
theorem unifyWithin_substs (h : ρ.Substs st st' s s') (ha : ρ.Twins st st' a a')
    (hb : ρ.Twins st st' b b') (depth : Nat) : Option.Rel (ρ.Substs st st')
      (Subst.unifyWithin st depth a b s) (Subst.unifyWithin st' depth a' b' s') := by
  induction depth generalizing a a' b b' s s' with
  | zero => exact .none
  | succ depth ih =>
    -- The bindings are sound because unification keeps them so; that they are twins is seen layer by layer.
    suffices carries : Option.Rel (ρ.Carries st st') (Subst.unifyWithin st (depth + 1) a b s)
        (Subst.unifyWithin st' (depth + 1) a' b' s') by
      cases left : Subst.unifyWithin st (depth + 1) a b s <;>
        cases right : Subst.unifyWithin st' (depth + 1) a' b' s' <;> rw [left, right] at carries
      · exact .none
      · cases carries
      · cases carries
      · cases carries with
        | some carries =>
          exact .some ⟨carries, h.left.of_unifyWithin ha.stored_left hb.stored_left left,
            h.right.of_unifyWithin ha.stored_right hb.stored_right right⟩
    have ha := h.toCarries.deref ha
    have hb := h.toCarries.deref hb
    have open' : ∀ {t v}, st.term? (s.deref st t) = some (.var v) → s.get? v = none :=
      h.left.get?_of_deref
    rw [Subst.unifyWithin, Subst.unifyWithin]
    by_cases same : s.deref st a = s.deref st b
    · rw [if_pos same, if_pos ((ha.eq_iff hb).mpr same)]
      exact .some h.toCarries
    · rw [if_neg same, if_neg fun same' => same ((ha.eq_iff hb).mp same')]
      obtain ⟨x, x', left, right, layer⟩ := ha.layer
      obtain ⟨y, y', left', right', layer'⟩ := hb.layer
      rw [left, right, left', right']
      cases layer with
      | var takes => cases layer' with
        | var takes' =>
          dsimp only
          rename_i i _ j _
          by_cases lt : i < j
          · rw [if_pos lt, if_pos ((takes.lt_iff takes').mpr lt)]
            exact .some (h.bind takes' ha (open' left'))
          · rw [if_neg lt, if_neg fun lt' => lt ((takes.lt_iff takes').mp lt')]
            exact .some (h.bind takes hb (open' left))
        | leaf | app => exact h.bindTo takes hb (open' left)
      | leaf l => cases layer' with
        | var takes' => exact h.bindTo takes' ha (open' left')
        | leaf m =>
          dsimp only
          split
          · exact .some h.toCarries
          · exact .none
        | app => exact .none
      | app operands => cases layer' with
        | var takes' => exact h.bindTo takes' ha (open' left')
        | leaf => exact .none
        | app operands' =>
          dsimp only
          rw [operands.length_eq, operands'.length_eq]
          split
          · exact rel_imp (unifyPairs_substs (fun h ha hb => ih h ha hb) (zip_rel operands operands') h)
              fun _ _ => Substs.toCarries
          · exact .none

/-- Twins unify together, by twin bindings. -/
theorem unifyBindings_substs (h : ρ.Substs st st' s s') (ha : ρ.Twins st st' a a')
    (hb : ρ.Twins st st' b b') :
    Option.Rel (ρ.Substs st st') (s.unifyBindings st a b) (s'.unifyBindings st' a' b') := by
  have left : s.potential st a < max (Subst.pairBound st) (Subst.pairBound st') :=
    Nat.lt_of_lt_of_le Subst.potential_lt_pairBound (Nat.le_max_left ..)
  have right : s'.potential st' a' < max (Subst.pairBound st) (Subst.pairBound st') :=
    Nat.lt_of_lt_of_le Subst.potential_lt_pairBound (Nat.le_max_right ..)
  rw [← Subst.unifyWithin_eq h.left ha.stored_left hb.stored_left left,
    ← Subst.unifyWithin_eq h.right ha.stored_right hb.stored_right right]
  exact unifyWithin_substs h ha hb _

/-! ## Disequalities -/

variable {d d' : Disequality}

/-- A verdict is the same on both sides. -/
theorem check_eq (h : ρ.Substs st st' s s') (hd : ρ.Disequalities st st' d d') :
    d'.check s' st' = d.check s st := by
  have unified := unifyBindings_substs h hd.1 hd.2
  rw [Disequality.check, Disequality.check]
  dsimp only at unified
  generalize s.unifyBindings st d.lhs d.rhs = r at unified ⊢
  generalize s'.unifyBindings st' d'.lhs d'.rhs = r' at unified ⊢
  cases unified with
  | none => rfl
  | some unified => dsimp only; rw [unified.size, h.size]

theorem disequality_eq_iff {e e' : Disequality} (hd : ρ.Disequalities st st' d d')
    (he : ρ.Disequalities st st' e e') : d' = e' ↔ d = e := by
  rw [Disequality.mk.injEq, Disequality.mk.injEq, hd.1.eq_iff he.1, hd.2.eq_iff he.2]

theorem Substs.addConstraint (h : ρ.Substs st st' s s') (hd : ρ.Disequalities st st' d d') :
    ρ.Substs st st' (s.addConstraint d) (s'.addConstraint d') := by
  have known : s'.constraints.contains d' = s.constraints.contains d := by
    have any := any_eq (R := ρ.Disequalities st st') (f := (d == ·)) (g := (d' == ·))
      (fun e e' he => by
        rw [Bool.eq_iff_iff, beq_iff_eq, beq_iff_eq]
        exact disequality_eq_iff hd he) h.constraints
    rwa [List.any_beq, List.any_beq] at any
  unfold Subst.addConstraint
  rw [known]
  split
  · exact h
  · exact ⟨⟨h.size, h.bound, List.rel_append h.constraints (.cons hd .nil), h.sites⟩,
      h.left.congr rfl, h.right.congr rfl⟩

theorem Substs.addSite (h : ρ.Substs st st' s s') {x x' : Site} (hx : ρ.Sites st st' x x') :
    ρ.Substs st st' (s.addSite x) (s'.addSite x') :=
  ⟨⟨h.size, h.bound, h.constraints, List.rel_append h.sites (.cons hx .nil)⟩, h.left.congr rfl,
    h.right.congr rfl⟩

/-- Two terms are kept apart on both sides. -/
theorem requireDistinct_substs (h : ρ.Substs st st' s s') (ha : ρ.Twins st st' a a')
    (hb : ρ.Twins st st' b b') :
    Option.Rel (ρ.Substs st st') (s.requireDistinct st a b) (s'.requireDistinct st' a' b') := by
  have hd : ρ.Disequalities st st' ⟨a, b⟩ ⟨a', b'⟩ := ⟨ha, hb⟩
  rw [Subst.requireDistinct, Subst.requireDistinct, check_eq h hd]
  cases (Disequality.mk a b).check s st with
  | satisfied => exact .some h
  | violated => exact .none
  | pending => exact .some (h.addConstraint hd)

theorem openConstraints_rel (h : ρ.Substs st st' s s') {ds ds' : List Disequality}
    (hds : List.Forall₂ (ρ.Disequalities st st') ds ds') :
    Option.Rel (List.Forall₂ (ρ.Disequalities st st')) (s.openConstraints st ds)
      (s'.openConstraints st' ds') := by
  induction hds with
  | nil => exact .some .nil
  | @cons d d' ds ds' first _ ih =>
    rw [Subst.openConstraints, Subst.openConstraints, check_eq h first]
    cases d.check s st with
    | satisfied => exact ih
    | violated => exact .none
    | pending =>
      dsimp only
      generalize s.openConstraints st ds = r at ih ⊢
      generalize s'.openConstraints st' ds' = r' at ih ⊢
      cases ih with
      | none => exact .none
      | some rest => exact .some (.cons first rest)

/-- Unification with the disequalities looked at again. -/
theorem unify_substs (h : ρ.Substs st st' s s') (ha : ρ.Twins st st' a a')
    (hb : ρ.Twins st st' b b') :
    Option.Rel (ρ.Substs st st') (s.unify st a b) (s'.unify st' a' b') := by
  have unified := unifyBindings_substs h ha hb
  rw [Subst.unify, Subst.unify]
  generalize s.unifyBindings st a b = r at unified ⊢
  generalize s'.unifyBindings st' a' b' = r' at unified ⊢
  cases unified with
  | none => exact .none
  | @some r r' unified =>
    dsimp only
    rw [unified.size, h.size]
    split
    · exact .some unified
    · have opened := openConstraints_rel unified unified.constraints
      rw [Subst.revalidate, Subst.revalidate]
      generalize r.openConstraints st r.constraints = ds at opened ⊢
      generalize r'.openConstraints st' r'.constraints = ds' at opened ⊢
      cases opened with
      | none => exact .none
      | some opened =>
        exact .some ⟨⟨unified.size, unified.bound, opened, unified.sites⟩,
          unified.left.congr rfl, unified.right.congr rfl⟩

end Renaming

end Regraft
