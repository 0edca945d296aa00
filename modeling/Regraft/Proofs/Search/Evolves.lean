import Regraft.Proofs.Search.Meets
import Regraft.Proofs.Unify.Stable
import Regraft.Proofs.Unify.Verdicts

/-
  What searches do to a store and a substitution, one act after the other: the store grows, terms are
  unified, disequalities are required, sites are recorded (`Subst.Evolves`). Each act keeps bindings
  and sites, and the substitution sound with all its disequalities pending, so that all acts together
  do (`Evolves.advance`, `Evolves.sites`, `Evolves.pending`).
-/

namespace Regraft

namespace Subst

/-- A stored term over some labels. -/
structure Given (has : Tree.Label → Prop) (st : Store) (s : Subst) (t : TermId) : Prop where
  stored : st.Stored t
  labels : (s.tree st t).Over has

/-- All disequalities that are carried are between stored terms, and pending. -/
def Pending (s : Subst) (st : Store) : Prop :=
  ∀ d ∈ s.constraints, (st.Stored d.lhs ∧ st.Stored d.rhs) ∧ d.check s st = .pending

/-- From a store and a substitution to later ones by the acts of goals. -/
inductive Evolves (has : Tree.Label → Prop) : Store → Subst → Store → Subst → Prop
  | refl {st : Store} {s : Subst} : Evolves has st s st s
  | grows {st st' st'' : Store} {s s' : Subst} (h : Evolves has st s st' s') (g : st'.Grows st'') :
      Evolves has st s st'' s'
  | unify {st st' : Store} {s s' s'' : Subst} {a b : TermId} (h : Evolves has st s st' s')
      (left : Given has st' s' a) (right : Given has st' s' b) (eq : s'.unify st' a b = some s'') :
      Evolves has st s st' s''
  | distinct {st st' : Store} {s s' s'' : Subst} {a b : TermId} (h : Evolves has st s st' s')
      (left : Given has st' s' a) (right : Given has st' s' b)
      (eq : s'.requireDistinct st' a b = some s'') : Evolves has st s st' s''
  | site {st st' : Store} {s s' : Subst} (h : Evolves has st s st' s') (site : Site) :
      Evolves has st s st' (s'.addSite site)

variable {has : Tree.Label → Prop} {st st' st'' : Store} {s s' s'' : Subst} {a b t : TermId}

theorem Given.advance (h : Given has st s t) (adv : Advance has st s st' s') : Given has st' s' t :=
  ⟨adv.grows.stored h.stored, adv.labels t h.stored h.labels⟩

/-- Unification keeps labels, with the disequalities looked at again. -/
theorem unify_advance (hs : s.Sound st) (left : Given has st s a) (right : Given has st s b)
    (h : s.unify st a b = some s') : Advance has st s st s' ∧ s'.sites = s.sites := by
  rcases unify_cases hs left.stored right.stored h with rfl | ⟨t, eq, -, rfl⟩
  · exact ⟨.refl hs, rfl⟩
  · have keeps := unifyBindings_keeps hs left.stored right.stored eq
    have adv := unifyBindings_advance hs left.stored right.stored left.labels right.labels eq
    exact ⟨adv.congr rfl, keeps.sites⟩

theorem requireDistinct_bindings (h : s.requireDistinct st a b = some s') :
    s.bindings = s'.bindings ∧ s'.sites = s.sites := by
  rcases requireDistinct_cases h with ⟨-, rfl⟩ | ⟨-, rfl⟩
  · exact ⟨rfl, rfl⟩
  · exact bindings_addConstraint s ⟨a, b⟩

namespace Pending

/-- Only the bindings count for what is pending. -/
theorem of_bindings (each : ∀ d ∈ s'.constraints,
    (st.Stored d.lhs ∧ st.Stored d.rhs) ∧ d.check s st = .pending)
    (eq : s.bindings = s'.bindings) : s'.Pending st := by
  intro d hd
  obtain ⟨stored, pending⟩ := each d hd
  exact ⟨stored, (d.check_of_bindings st eq).trans pending⟩

theorem grows (h : s.Pending st) (hs : s.Sound st) (g : st.Grows st') : s.Pending st' := by
  intro d hd
  obtain ⟨⟨left, right⟩, pending⟩ := h d hd
  refine ⟨⟨g.stored left, g.stored right⟩, ?_⟩
  rw [Disequality.check_grows hs g left right]
  exact pending

theorem unify (h : s.Pending st) (hs : s.Sound st) (ha : st.Stored a) (hb : st.Stored b)
    (eq : s.unify st a b = some s') : s'.Pending st := by
  rcases unify_cases hs ha hb eq with rfl | ⟨t, -, -, rfl⟩
  · exact h
  · refine of_bindings (s := t) (fun d hd => ?_) rfl
    obtain ⟨hd, pending⟩ := List.mem_filter.mp hd
    exact ⟨(h d hd).1, of_decide_eq_true pending⟩

theorem distinct (h : s.Pending st) (ha : st.Stored a) (hb : st.Stored b)
    (eq : s.requireDistinct st a b = some s') : s'.Pending st := by
  rcases requireDistinct_cases eq with ⟨-, rfl⟩ | ⟨pending, rfl⟩
  · exact h
  · refine of_bindings (s := s) (fun d hd => ?_) (bindings_addConstraint s ⟨a, b⟩).1
    rcases mem_addConstraint.mp hd with hd | rfl
    · exact h d hd
    · exact ⟨⟨ha, hb⟩, pending⟩

end Pending

namespace Evolves

theorem trans (h : Evolves has st s st' s') (h' : Evolves has st' s' st'' s'') :
    Evolves has st s st'' s'' := by
  induction h' with
  | refl => exact h
  | grows _ g ih => exact (ih h).grows g
  | unify _ left right eq ih => exact (ih h).unify left right eq
  | distinct _ left right eq ih => exact (ih h).distinct left right eq
  | site _ site ih => exact (ih h).site site

/-- Bindings are kept, the substitution stays sound, and labels are those of before. -/
theorem advance (h : Evolves has st s st' s') (hs : s.Sound st) : Advance has st s st' s' := by
  induction h with
  | refl => exact .refl hs
  | grows _ g ih => exact (ih hs).trans (.of_grows (ih hs).sound g)
  | unify _ left right eq ih => exact (ih hs).trans (unify_advance (ih hs).sound left right eq).1
  | distinct _ _ _ eq ih => exact (ih hs).congr (requireDistinct_bindings eq).1
  | site _ _ ih => exact (ih hs).congr rfl

/-- Sites are only added at the end. -/
theorem sites (h : Evolves has st s st' s') (hs : s.Sound st) : s.sites <+: s'.sites := by
  induction h with
  | refl => exact List.prefix_rfl
  | grows _ _ ih => exact ih hs
  | unify h left right eq ih => exact (unify_advance (h.advance hs).sound left right eq).2 ▸ ih hs
  | distinct _ _ _ eq ih => exact (requireDistinct_bindings eq).2 ▸ ih hs
  | site _ site ih => exact (ih hs).trans (List.prefix_append _ [site])

/-- All disequalities stay pending. -/
theorem pending (h : Evolves has st s st' s') (hs : s.Sound st) (pending : s.Pending st) :
    s'.Pending st' := by
  induction h with
  | refl => exact pending
  | grows h g ih => exact (ih hs pending).grows (h.advance hs).sound g
  | unify h left right eq ih =>
    exact (ih hs pending).unify (h.advance hs).sound left.stored right.stored eq
  | distinct h left right eq ih => exact (ih hs pending).distinct left.stored right.stored eq
  | site h site ih => exact .of_bindings (ih hs pending) rfl

end Evolves

end Subst

end Regraft
