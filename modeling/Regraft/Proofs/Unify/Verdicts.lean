import Regraft.Proofs.Unify.MostGeneral

/-
  The verdict on a disequality depends only on the assignments that the substitution admits: it is
  satisfied when none of them makes the sides the same, and violated when all of them do
  (`check_satisfied_iff`, `check_violated_iff`). So a disequality that is satisfied stays satisfied under
  all further bindings, and may be forgotten.
-/

namespace Regraft

variable {has : Tree.Label → Prop} {st st' : Store} {s s' : Subst} {d : Disequality}

namespace Subst

/-- If something has been bound, a variable that was open has been. -/
theorem Binds.eq_or_exists (h : Binds st s s') :
    s' = s ∨ ∃ v t, s.get? v = none ∧ s'.get? v = some t := by
  refine h.imp id fun ⟨_, lt⟩ => ?_
  obtain ⟨p, hp, hp'⟩ := Finset.exists_mem_notMem_of_card_lt_card lt
  obtain ⟨v, var, hv⟩ := mem_openPlaces.mp hp
  cases h : s'.get? v with
  | none => exact absurd (mem_openPlaces.mpr ⟨v, var, h⟩) hp'
  | some t => exact ⟨v, t, hv, h⟩

/-- Further bindings do not admit the old images: what stands for a newly bound variable has other
    variables or none. -/
theorem Keeps.eq_of_admits (h : Keeps st s s') (admits : s'.Admits st (s.image st)) : s' = s := by
  refine h.binds.eq_or_exists.resolve_right ?_
  rintro ⟨v, t, hv, ht⟩
  have same := (admits v t ht).trans (admits.same_tree h.sound t)
  rw [image_of_unbound hv] at same
  cases tree : s'.tree st t with
  | var w =>
    have has : (s'.tree st t).HasVar w := tree ▸ .var
    have hw' := h.sound.get?_of_hasVar has
    have hw : s.get? w = none := by
      cases hb : s.get? w with
      | none => rfl
      | some u => cases hw'.symm.trans (h.kept w u hb)
    rw [tree, Tree.subst_var, image_of_unbound hw] at same
    cases same
    cases hw'.symm.trans ht
  | leaf l =>
    rw [tree] at same
    cases same
  | app op args attrs =>
    rw [tree, Tree.subst_app] at same
    cases same
  | unknown id =>
    rw [tree] at same
    cases same

end Subst

namespace Disequality

/-- The sides are stored terms over some labels. -/
structure Over (has : Tree.Label → Prop) (st : Store) (s : Subst) (d : Disequality) : Prop where
  left : st.Stored d.lhs
  right : st.Stored d.rhs
  overLeft : (s.tree st d.lhs).Over has
  overRight : (s.tree st d.rhs).Over has

theorem Over.advance (h : d.Over has st s) (adv : Subst.Advance has st s st' s') :
    d.Over has st' s' :=
  ⟨adv.grows.stored h.left, adv.grows.stored h.right, adv.labels _ h.left h.overLeft,
    adv.labels _ h.right h.overRight⟩

/-- What the verdict is by the attempt to unify the sides. -/
theorem check_cases (d : Disequality) (s : Subst) (st : Store) :
    s.unifyBindings st d.lhs d.rhs = none ∧ d.check s st = .satisfied ∨
      ∃ t, s.unifyBindings st d.lhs d.rhs = some t ∧
        (t.size = s.size ∧ d.check s st = .violated ∨ t.size ≠ s.size ∧ d.check s st = .pending) := by
  unfold check
  cases h : s.unifyBindings st d.lhs d.rhs with
  | none => exact .inl ⟨rfl, rfl⟩
  | some t =>
    refine .inr ⟨t, rfl, ?_⟩
    by_cases size : t.size = s.size
    · exact .inl ⟨size, if_pos size⟩
    · exact .inr ⟨size, if_neg size⟩

/-- A disequality is satisfied when no assignment makes its sides the same. -/
theorem check_satisfied_iff (rigid : Tree.Rigid has) (hs : s.Sound st) (h : d.Over has st s) :
    d.check s st = .satisfied ↔ ∀ θ, s.Admits st θ → ¬ st.Equates θ d.lhs d.rhs := by
  have solves := Subst.unifyBindings_solves rigid hs h.left h.right h.overLeft h.overRight
  rcases d.check_cases s st with ⟨eq, verdict⟩ | ⟨t, eq, verdict⟩
  · rw [eq] at solves
    exact iff_of_true verdict solves
  · rw [eq] at solves
    refine iff_of_false ?_ fun none => ?_
    · rcases verdict with ⟨-, verdict⟩ | ⟨-, verdict⟩ <;> rw [verdict] <;> exact nofun
    · have sound := (Subst.unifyBindings_keeps hs h.left h.right eq).sound
      obtain ⟨admits, equates⟩ := (solves _).mp sound.admits_own
      exact none _ admits equates

/-- A disequality is violated when all assignments make its sides the same. -/
theorem check_violated_iff (rigid : Tree.Rigid has) (hs : s.Sound st) (h : d.Over has st s) :
    d.check s st = .violated ↔ ∀ θ, s.Admits st θ → st.Equates θ d.lhs d.rhs := by
  have solves := Subst.unifyBindings_solves rigid hs h.left h.right h.overLeft h.overRight
  have own := hs.admits_own
  rcases d.check_cases s st with ⟨eq, verdict⟩ | ⟨t, eq, verdict⟩
  · rw [eq] at solves
    refine iff_of_false ?_ fun all => solves _ own (all _ own)
    rw [verdict]
    exact nofun
  · have keeps := Subst.unifyBindings_keeps hs h.left h.right eq
    rw [eq] at solves
    rcases verdict with ⟨size, verdict⟩ | ⟨size, verdict⟩
    · obtain rfl := keeps.binds.eq_of_size size
      exact iff_of_true verdict fun θ admits => ((solves θ).mp admits).2
    · refine iff_of_false ?_ fun all => size ?_
      · rw [verdict]
        exact nofun
      · rw [keeps.eq_of_admits ((solves _).mpr ⟨own, all _ own⟩)]

/-- A disequality is violated when its sides are the same. -/
theorem check_violated_iff_same (rigid : Tree.Rigid has) (hs : s.Sound st) (h : d.Over has st s) :
    d.check s st = .violated ↔ Tree.Same (s.tree st d.lhs) (s.tree st d.rhs) := by
  rw [check_violated_iff rigid hs h]
  constructor
  · exact fun all => hs.equates_image.mp (all _ hs.admits_own)
  · exact fun same θ admits => (admits.equates_iff hs).mpr (same.subst θ)

/-- Substitutions that admit the same assignments give the same verdicts. -/
theorem check_congr (rigid : Tree.Rigid has) (hs : s.Sound st) (hs' : s'.Sound st)
    (h : d.Over has st s) (h' : d.Over has st s') (eq : ∀ θ, s.Admits st θ ↔ s'.Admits st θ) :
    d.check s st = d.check s' st := by
  have satisfied : d.check s st = .satisfied ↔ d.check s' st = .satisfied := by
    simp only [check_satisfied_iff rigid hs h, check_satisfied_iff rigid hs' h', eq]
  have violated : d.check s st = .violated ↔ d.check s' st = .violated := by
    simp only [check_violated_iff rigid hs h, check_violated_iff rigid hs' h', eq]
  cases h₁ : d.check s st <;> cases h₂ : d.check s' st <;> simp_all

/-- A disequality that is satisfied is satisfied by all that admit fewer assignments. -/
theorem check_satisfied_mono (rigid : Tree.Rigid has) (hs : s.Sound st) (hs' : s'.Sound st)
    (h : d.Over has st s) (h' : d.Over has st s') (fewer : ∀ θ, s'.Admits st θ → s.Admits st θ)
    (satisfied : d.check s st = .satisfied) : d.check s' st = .satisfied :=
  (check_satisfied_iff rigid hs' h').mpr fun θ admits =>
    (check_satisfied_iff rigid hs h).mp satisfied θ (fewer θ admits)

end Disequality

namespace Subst

/-- The disequalities that are open are the pending ones, in their order, unless one is violated. -/
theorem openConstraints_eq (s : Subst) (st : Store) (ds : List Disequality) :
    s.openConstraints st ds = if ∃ d ∈ ds, d.check s st = .violated then none else
      some (ds.filter fun d => d.check s st = .pending) := by
  induction ds with
  | nil => simp [openConstraints]
  | cons d rest ih =>
    rw [openConstraints]
    cases h : d.check s st with
    | satisfied => simp [ih, h]
    | violated => simp [h]
    | pending =>
      simp only [ih]
      by_cases v : ∃ d ∈ rest, d.check s st = .violated
      · rw [if_pos v, if_pos (by obtain ⟨d, hd, hv⟩ := v; exact ⟨d, .tail _ hd, hv⟩)]
        rfl
      · rw [if_neg v, if_neg (by simpa [h] using v)]
        simp [h]

/-- After new bindings a disequality is violated, or those that are pending are carried on. -/
theorem revalidate_cases (s : Subst) (st : Store) :
    (∃ d ∈ s.constraints, d.check s st = .violated) ∧ s.revalidate st = none ∨
      (∀ d ∈ s.constraints, d.check s st ≠ .violated) ∧ s.revalidate st =
        some { s with constraints := s.constraints.filter fun d => d.check s st = .pending } := by
  unfold revalidate
  rw [openConstraints_eq]
  by_cases violated : ∃ d ∈ s.constraints, d.check s st = .violated
  · exact .inl ⟨violated, by rw [if_pos violated]; rfl⟩
  · exact .inr ⟨fun d hd eq => violated ⟨d, hd, eq⟩, by rw [if_neg violated]; rfl⟩

/-- Unification binds nothing, or it makes bindings that violate no disequality and carries on those that
    are pending. -/
theorem unify_cases {a b : TermId} (hs : s.Sound st) (ha : st.Stored a) (hb : st.Stored b)
    (h : s.unify st a b = some s') : s' = s ∨ ∃ t, s.unifyBindings st a b = some t ∧
      (∀ d ∈ s.constraints, d.check t st ≠ .violated) ∧
      s' = { t with constraints := s.constraints.filter fun d => d.check t st = .pending } := by
  unfold unify at h
  cases eq : s.unifyBindings st a b with
  | none =>
    rw [eq] at h
    cases h
  | some t =>
    have keeps := unifyBindings_keeps hs ha hb eq
    simp only [eq] at h
    by_cases size : t.size = s.size
    · simp only [size, if_true, Option.some.injEq] at h
      exact .inl (h ▸ keeps.binds.eq_of_size size)
    · simp only [size, if_false] at h
      rcases t.revalidate_cases st with ⟨-, failed⟩ | ⟨distinct, valid⟩
      · cases failed.symm.trans h
      · rw [keeps.constraints] at distinct valid
        exact .inr ⟨t, rfl, distinct, Option.some.inj (h.symm.trans valid)⟩

/-- A disequality that holds for good is dropped, and one that is pending is carried. -/
theorem requireDistinct_cases {a b : TermId} (h : s.requireDistinct st a b = some s') :
    (⟨a, b⟩ : Disequality).check s st = .satisfied ∧ s' = s ∨
      (⟨a, b⟩ : Disequality).check s st = .pending ∧ s' = s.addConstraint ⟨a, b⟩ := by
  unfold requireDistinct at h
  cases verdict : (⟨a, b⟩ : Disequality).check s st with
  | satisfied =>
    rw [verdict] at h
    exact .inl ⟨rfl, (Option.some.inj h).symm⟩
  | violated =>
    rw [verdict] at h
    cases h
  | pending =>
    rw [verdict] at h
    exact .inr ⟨rfl, (Option.some.inj h).symm⟩

theorem bindings_addConstraint (s : Subst) (d : Disequality) :
    s.bindings = (s.addConstraint d).bindings ∧ (s.addConstraint d).sites = s.sites := by
  unfold addConstraint
  split <;> exact ⟨rfl, rfl⟩

theorem mem_addConstraint {e : Disequality} :
    e ∈ (s.addConstraint d).constraints ↔ e ∈ s.constraints ∨ e = d := by
  unfold addConstraint
  split
  · rename_i known
    refine (or_iff_left_of_imp ?_).symm
    rintro rfl
    exact List.contains_iff_mem.mp known
  · simp

end Subst

end Regraft
