import Regraft.Proofs.Unify.Stable
import Regraft.Proofs.Unify.Verdicts

/-
  Equations and disequalities imposed on a substitution one after the other. The substitution admits just
  the solutions of the equations so far, and carries just the disequalities so far that are still
  pending (`Imposed`); a requirement that fails leaves no solution of the equations that keeps the
  disequalities (`impose_spec`). Neither depends on the order (`Imposed.pending_perm`).
-/

namespace Regraft

/-- Two terms that must be equal, or that must not become equal. -/
inductive Requirement
  | equal (a b : TermId)
  | distinct (a b : TermId)

namespace Requirement

/-- The two terms. -/
def sides : Requirement → TermId × TermId
  | equal a b | distinct a b => (a, b)

/-- Impose a requirement on a substitution; `none` if it can not be met. -/
def impose (st : Store) (s : Subst) : Requirement → Option Subst
  | equal a b => s.unify st a b
  | distinct a b => s.requireDistinct st a b

/-- The equations among some requirements. -/
def equations (rs : List Requirement) : List (TermId × TermId) :=
  rs.filterMap fun
    | equal a b => some (a, b)
    | distinct _ _ => none

/-- The disequalities among some requirements. -/
def disequalities (rs : List Requirement) : List Disequality :=
  rs.filterMap fun
    | equal _ _ => none
    | distinct a b => some ⟨a, b⟩

/-- The assignment makes the sides of all equations the same, and of no disequality. -/
structure Met (st : Store) (θ : UInt32 → Tree) (rs : List Requirement) : Prop where
  equal : ∀ p ∈ equations rs, st.Equates θ p.1 p.2
  distinct : ∀ d ∈ disequalities rs, ¬ st.Equates θ d.lhs d.rhs

/-- Both sides are stored terms over some labels. -/
structure Over (has : Tree.Label → Prop) (st : Store) (r : Requirement) : Prop where
  left : st.Stored r.sides.1
  right : st.Stored r.sides.2
  overLeft : (st.tree r.sides.1).Over has
  overRight : (st.tree r.sides.2).Over has

/-- A substitution that admits just the solutions of the equations. -/
structure Solved (has : Tree.Label → Prop) (st : Store) (rs : List Requirement) (s : Subst) :
    Prop where
  sound : s.Sound st
  images : ∀ v, (s.image st v).Over has
  admits : ∀ θ, s.Admits st θ ↔ ∀ p ∈ equations rs, st.Equates θ p.1 p.2

/-- A list of just the disequalities that are pending, where none is violated. -/
structure Carries (st : Store) (rs : List Requirement) (s : Subst) (ds : List Disequality) :
    Prop where
  nodup : ds.Nodup
  pending : ∀ d, d ∈ ds ↔ d ∈ disequalities rs ∧ d.check s st = .pending
  distinct : ∀ d ∈ disequalities rs, d.check s st ≠ .violated

/-- What has come of some requirements. -/
structure Imposed (has : Tree.Label → Prop) (st : Store) (rs : List Requirement) (s : Subst) :
    Prop where
  solved : Solved has st rs s
  carries : Carries st rs s s.constraints

variable {has : Tree.Label → Prop} {st : Store} {s s' : Subst} {rs rs' : List Requirement}
  {r : Requirement} {a b t : TermId} {d : Disequality} {ds : List Disequality}

theorem equations_equal : equations (rs ++ [.equal a b]) = equations rs ++ [(a, b)] :=
  List.filterMap_append

theorem equations_distinct : equations (rs ++ [.distinct a b]) = equations rs :=
  List.filterMap_append.trans (List.append_nil _)

theorem disequalities_equal : disequalities (rs ++ [.equal a b]) = disequalities rs :=
  List.filterMap_append.trans (List.append_nil _)

theorem disequalities_distinct :
    disequalities (rs ++ [.distinct a b]) = disequalities rs ++ [⟨a, b⟩] := List.filterMap_append

theorem mem_disequalities_distinct :
    d ∈ disequalities (rs ++ [.distinct a b]) ↔ d ∈ disequalities rs ∨ d = ⟨a, b⟩ := by
  rw [disequalities_distinct, List.mem_append, List.mem_singleton]

theorem Met.of_append {θ : UInt32 → Tree} (h : Met st θ (rs ++ rs')) : Met st θ rs where
  equal p hp := h.equal p ((List.sublist_append_left rs rs').filterMap _ |>.subset hp)
  distinct d hd := h.distinct d ((List.sublist_append_left rs rs').filterMap _ |>.subset hd)

theorem Met.perm {θ : UInt32 → Tree} (perm : rs.Perm rs') (h : Met st θ rs) : Met st θ rs' where
  equal p hp := h.equal p ((perm.filterMap _).mem_iff.mpr hp)
  distinct d hd := h.distinct d ((perm.filterMap _).mem_iff.mpr hd)

/-! ## Equations -/

namespace Solved

theorem nil (hv : st.Valid) : Solved has st [] .empty where
  sound := .empty hv
  images v := by
    rw [Subst.image_of_unbound (Subst.get?_empty v)]
    exact .var v
  admits θ := iff_of_true (Subst.admits_empty st θ) nofun

/-- Only the bindings and the equations count. -/
theorem congr (h : Solved has st rs s) (bindings : s.bindings = s'.bindings)
    (eqs : equations rs' = equations rs) : Solved has st rs' s' where
  sound := h.sound.congr bindings
  images v := by
    refine Subst.over_image fun t hv => ?_
    rw [h.sound.tree_congr bindings,
      ← Subst.image_of_bound (Subst.extends_congr bindings.symm v t hv)]
    exact h.images v
  admits θ := by
    rw [eqs, ← h.admits]
    unfold Subst.Admits Subst.get?
    rw [bindings]

theorem labels (h : Solved has st rs s) (ht : (st.tree t).Over has) : (s.tree st t).Over has := by
  rw [h.sound.tree_eq_subst]
  exact Tree.over_subst ht fun v _ => h.images v

theorem disequality_over (h : Solved has st rs s) (each : ∀ r ∈ rs', r.Over has st)
    (hd : d ∈ disequalities rs') : d.Over has st s := by
  obtain ⟨r, hr, eq⟩ := List.mem_filterMap.mp hd
  cases r with
  | equal a b => cases eq
  | distinct a b =>
    cases eq
    have given := each _ hr
    exact ⟨given.left, given.right, h.labels given.overLeft, h.labels given.overRight⟩

/-- One more equation. -/
theorem equal (rigid : Tree.Rigid has) (h : Solved has st rs s)
    (given : (Requirement.equal a b).Over has st) (eq : s.unifyBindings st a b = some s') :
    Solved has st (rs ++ [.equal a b]) s' := by
  have solves := Subst.unifyBindings_solves rigid h.sound given.left given.right
    (h.labels given.overLeft) (h.labels given.overRight)
  have adv := Subst.unifyBindings_advance h.sound given.left given.right (h.labels given.overLeft)
    (h.labels given.overRight) eq
  simp only [sides, eq] at solves
  refine ⟨adv.sound, adv.images h.images, fun θ => ?_⟩
  rw [solves, h.admits, equations_equal, List.forall_mem_append, List.forall_mem_singleton]

end Solved

/-! ## Disequalities -/

namespace Carries

theorem congr (h : Carries st rs s ds) (same : disequalities rs' = disequalities rs)
    (eq : ∀ d ∈ disequalities rs, d.check s st = d.check s' st) : Carries st rs' s' ds := by
  refine ⟨h.nodup, fun d => ?_, fun d hd => ?_⟩
  · rw [h.pending, same]
    exact and_congr_right fun hd => by rw [eq d hd]
  · rw [same] at hd
    rw [← eq d hd]
    exact h.distinct d hd

/-- After more bindings those that are still pending are carried along. Those that were satisfied are
    satisfied still, so that none of them is missed. -/
theorem later (h : Carries st rs s ds)
    (mono : ∀ d ∈ disequalities rs, d.check s st = .satisfied → d.check s' st = .satisfied)
    (distinct : ∀ d ∈ ds, d.check s' st ≠ .violated) :
    Carries st rs s' (ds.filter fun d => d.check s' st = .pending) := by
  have carried : ∀ d ∈ disequalities rs, d.check s' st ≠ .satisfied → d ∈ ds := by
    intro d hd ne
    refine (h.pending d).mpr ⟨hd, ?_⟩
    cases verdict : d.check s st with
    | satisfied => exact absurd (mono d hd verdict) ne
    | violated => exact absurd verdict (h.distinct d hd)
    | pending => rfl
  refine ⟨h.nodup.filter _, fun d => ?_, fun d hd violated => ?_⟩
  · rw [List.mem_filter, decide_eq_true_eq]
    refine and_congr_left fun pending => ⟨fun hd => ((h.pending d).mp hd).1, fun hd => ?_⟩
    exact carried d hd (by rw [pending]; exact nofun)
  · exact distinct d (carried d hd (by rw [violated]; exact nofun)) violated

/-- A disequality that is satisfied is not carried. -/
theorem satisfied (h : Carries st rs s ds) (verdict : (⟨a, b⟩ : Disequality).check s st = .satisfied) :
    Carries st (rs ++ [.distinct a b]) s ds := by
  refine ⟨h.nodup, fun d => ?_, fun d hd => ?_⟩
  · rw [h.pending, mem_disequalities_distinct, or_and_right]
    refine (or_iff_left ?_).symm
    rintro ⟨rfl, pending⟩
    cases verdict.symm.trans pending
  · rcases mem_disequalities_distinct.mp hd with hd | rfl
    · exact h.distinct d hd
    · rw [verdict]
      exact nofun

/-- A disequality that is pending is carried. -/
theorem pending_distinct (h : Carries st rs s s.constraints)
    (verdict : (⟨a, b⟩ : Disequality).check s st = .pending) :
    Carries st (rs ++ [.distinct a b]) s (s.addConstraint ⟨a, b⟩).constraints := by
  refine ⟨?_, fun d => ?_, fun d hd => ?_⟩
  · unfold Subst.addConstraint
    split
    · exact h.nodup
    · rename_i new
      rw [List.contains_iff_mem] at new
      exact List.Nodup.append h.nodup (List.nodup_singleton _)
        (List.disjoint_singleton.mpr new)
  · rw [Subst.mem_addConstraint, h.pending, mem_disequalities_distinct, or_and_right]
    refine or_congr_right ⟨fun eq => ⟨eq, eq ▸ verdict⟩, And.left⟩
  · rcases mem_disequalities_distinct.mp hd with hd | rfl
    · exact h.distinct d hd
    · rw [verdict]
      exact nofun

end Carries

/-! ## One after the other -/

theorem imposed_nil (hv : st.Valid) : Imposed has st [] .empty :=
  ⟨.nil hv, .nil, fun _ => iff_of_false nofun (fun h => nomatch h.1), nofun⟩

/-- Another list of constraints with the same bindings. -/
theorem Imposed.of_carries (solved : Solved has st rs s) (carries : Carries st rs s ds) :
    Imposed has st rs { s with constraints := ds } := by
  have same : s.bindings = ({ s with constraints := ds } : Subst).bindings := rfl
  exact ⟨solved.congr same rfl, carries.congr rfl fun d _ => (d.check_of_bindings st same).symm⟩

/-- A requirement is imposed on top of the others, or no assignment meets them all. -/
theorem impose_spec (rigid : Tree.Rigid has) (h : Imposed has st rs s)
    (each : ∀ q ∈ rs ++ [r], q.Over has st) :
    match impose st s r with
    | some s' => Imposed has st (rs ++ [r]) s'
    | none => ∀ θ, ¬ Met st θ (rs ++ [r]) := by
  have given := each r (List.mem_append_right _ (List.mem_singleton_self r))
  have before : ∀ r ∈ rs, r.Over has st := fun r hr => each r (List.mem_append_left _ hr)
  have overs : ∀ d ∈ disequalities rs, d.Over has st s :=
    fun d hd => h.solved.disequality_over before hd
  cases r with
  | equal a b =>
    have solves := Subst.unifyBindings_solves rigid h.solved.sound given.left given.right
      (h.solved.labels given.overLeft) (h.solved.labels given.overRight)
    have admitted : ∀ θ, Met st θ (rs ++ [.equal a b]) → s.Admits st θ ∧ st.Equates θ a b := by
      intro θ met
      have equal := met.equal
      rw [equations_equal, List.forall_mem_append, List.forall_mem_singleton] at equal
      exact ⟨(h.solved.admits θ).mpr equal.1, equal.2⟩
    simp only [impose, Subst.unify]
    cases eq : s.unifyBindings st a b with
    | none =>
      simp only [sides, eq] at solves
      exact fun θ met => solves θ (admitted θ met).1 (admitted θ met).2
    | some t =>
      simp only [sides, eq] at solves
      have keeps := Subst.unifyBindings_keeps h.solved.sound given.left given.right eq
      have adv := Subst.unifyBindings_advance h.solved.sound given.left given.right
        (h.solved.labels given.overLeft) (h.solved.labels given.overRight) eq
      have solved := h.solved.equal rigid given eq
      by_cases size : t.size = s.size
      · obtain rfl := keeps.binds.eq_of_size size
        simp only [if_true]
        exact ⟨solved, h.carries.congr disequalities_equal fun _ _ => rfl⟩
      · simp only [size, if_false]
        rcases t.revalidate_cases st with ⟨⟨d, hd, violated⟩, failed⟩ | ⟨distinct, valid⟩
        · rw [failed]
          rw [keeps.constraints] at hd
          have mem := ((h.carries.pending d).mp hd).1
          intro θ met
          refine met.distinct d (disequalities_equal.symm ▸ mem) ?_
          exact (Disequality.check_violated_iff rigid keeps.sound ((overs d mem).advance adv)).mp
            violated θ ((solves θ).mpr (admitted θ met))
        · rw [valid]
          rw [keeps.constraints] at distinct ⊢
          have carries : Carries st rs t _ := h.carries.later (fun d hd => ?_) distinct
          · exact .of_carries solved (carries.congr disequalities_equal fun _ _ => rfl)
          · exact Disequality.check_satisfied_mono rigid h.solved.sound keeps.sound (overs d hd)
              ((overs d hd).advance adv) fun θ admits => ((solves θ).mp admits).1
  | distinct a b =>
    have given : (⟨a, b⟩ : Disequality).Over has st s :=
      ⟨given.left, given.right, h.solved.labels given.overLeft, h.solved.labels given.overRight⟩
    simp only [impose, Subst.requireDistinct]
    cases verdict : (⟨a, b⟩ : Disequality).check s st with
    | satisfied => exact ⟨h.solved.congr rfl equations_distinct, h.carries.satisfied verdict⟩
    | violated =>
      intro θ met
      refine met.distinct ⟨a, b⟩ (mem_disequalities_distinct.mpr (.inr rfl)) ?_
      refine (Disequality.check_violated_iff rigid h.solved.sound given).mp verdict θ ?_
      rw [h.solved.admits, ← equations_distinct (a := a) (b := b)]
      exact met.equal
    | pending =>
      have rest : s.addConstraint ⟨a, b⟩ =
          { s with constraints := (s.addConstraint ⟨a, b⟩).constraints } := by
        unfold Subst.addConstraint
        split <;> rfl
      simp only
      rw [rest]
      exact .of_carries (h.solved.congr rfl equations_distinct) (h.carries.pending_distinct verdict)

/-- Requirements imposed one after the other: all of them are, or no assignment meets them. -/
theorem foldlM_impose (rigid : Tree.Rigid has) (rs' : List Requirement) (h : Imposed has st rs s)
    (each : ∀ r ∈ rs ++ rs', r.Over has st) :
    match rs'.foldlM (impose st) s with
    | some s' => Imposed has st (rs ++ rs') s'
    | none => ∀ θ, ¬ Met st θ (rs ++ rs') := by
  induction rs' generalizing rs s with
  | nil =>
    rw [List.append_nil]
    exact h
  | cons r rest ih =>
    rw [List.append_cons] at each ⊢
    have first := impose_spec rigid h fun r hr => each r (List.mem_append_left _ hr)
    rw [List.foldlM_cons]
    cases eq : impose st s r with
    | none =>
      rw [eq] at first
      exact fun θ met => first θ (met.of_append)
    | some s' =>
      rw [eq] at first
      exact ih first each

/-! ## In any order -/

/-- A solution of equations that all others are instances of. -/
structure MostGeneral (st : Store) (eqs : List (TermId × TermId)) (θ : UInt32 → Tree) : Prop where
  solves : ∀ p ∈ eqs, st.Equates θ p.1 p.2
  general : ∀ σ, (∀ p ∈ eqs, st.Equates σ p.1 p.2) → ∃ ρ, ∀ v, Tree.Same (σ v) ((θ v).subst ρ)

namespace Imposed

/-- The images are a most general solution of the equations. -/
theorem mostGeneral (h : Imposed has st rs s) : MostGeneral st (equations rs) (s.image st) where
  solves := (h.solved.admits _).mp h.solved.sound.admits_own
  general σ solves := by
    have admits := (h.solved.admits σ).mpr solves
    refine ⟨σ, fun v => ?_⟩
    cases hv : s.get? v with
    | none =>
      rw [Subst.image_of_unbound hv]
      exact .refl _
    | some t =>
      rw [Subst.image_of_bound hv]
      exact (admits v t hv).trans (admits.same_tree h.solved.sound t)

/-- The images make the sides of no disequality the same. -/
theorem met (rigid : Tree.Rigid has) (each : ∀ r ∈ rs, r.Over has st) (h : Imposed has st rs s) :
    Met st (s.image st) rs where
  equal := h.mostGeneral.solves
  distinct d hd equates := h.carries.distinct d hd <|
    (Disequality.check_violated_iff_same rigid h.solved.sound (h.solved.disequality_over each hd)).mpr
      (h.solved.sound.equates_image.mp equates)

/-- All requirements can be imposed just when an assignment meets them, which may then be a most
    general solution of the equations. -/
theorem exists_iff (rigid : Tree.Rigid has) (hv : st.Valid) (each : ∀ r ∈ rs, r.Over has st) :
    ((∃ s, rs.foldlM (impose st) Subst.empty = some s) ↔ ∃ θ, Met st θ rs) ∧
      ((∃ θ, Met st θ rs) ↔ ∃ θ, MostGeneral st (equations rs) θ ∧
        ∀ d ∈ disequalities rs, ¬ st.Equates θ d.lhs d.rhs) := by
  have spec := foldlM_impose rigid rs (imposed_nil hv) each
  rw [List.nil_append] at spec
  cases o : rs.foldlM (impose st) Subst.empty with
  | none =>
    rw [o] at spec
    refine ⟨⟨nofun, fun ⟨θ, met⟩ => absurd met (spec θ)⟩, fun ⟨θ, met⟩ => absurd met (spec θ), ?_⟩
    exact fun ⟨θ, general, unequal⟩ => ⟨θ, general.solves, unequal⟩
  | some s =>
    rw [o] at spec
    have met := spec.met rigid each
    refine ⟨⟨fun _ => ⟨_, met⟩, fun _ => ⟨s, rfl⟩⟩, fun _ => ⟨_, spec.mostGeneral, met.distinct⟩, ?_⟩
    exact fun ⟨θ, general, unequal⟩ => ⟨θ, general.solves, unequal⟩

/-- What has come of requirements in another order admits the same assignments, and carries the same
    disequalities. -/
theorem perm (rigid : Tree.Rigid has) (each : ∀ r ∈ rs, r.Over has st) (perm : rs.Perm rs')
    (h : Imposed has st rs s) (h' : Imposed has st rs' s') :
    (∀ θ, s.Admits st θ ↔ s'.Admits st θ) ∧ s.constraints.Perm s'.constraints := by
  have admits : ∀ θ, s.Admits st θ ↔ s'.Admits st θ := by
    intro θ
    have mem : ∀ p, p ∈ equations rs ↔ p ∈ equations rs' := fun _ => (perm.filterMap _).mem_iff
    simp only [h.solved.admits, h'.solved.admits, mem]
  refine ⟨admits, (List.perm_ext_iff_of_nodup h.carries.nodup h'.carries.nodup).mpr fun d => ?_⟩
  have mem : d ∈ disequalities rs ↔ d ∈ disequalities rs' := (perm.filterMap _).mem_iff
  rw [h.carries.pending, h'.carries.pending, ← mem]
  refine and_congr_right fun hd => ?_
  have hd' : d.Over has st s' := h'.solved.disequality_over each hd
  rw [Disequality.check_congr rigid h.solved.sound h'.solved.sound
    (h.solved.disequality_over each hd) hd' admits]

end Imposed

end Requirement

end Regraft
