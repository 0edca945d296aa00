import Regraft.Proofs.Unify.Stable
import Regraft.Proofs.Unify.Verdicts

/-
  Unification pair by pair. The pairs that a settled pair leaves may be unified one after the other, as
  problems of their own, with the disequalities looked at again after each of them that makes bindings:
  the outcome is the one of looking at them once in the end (`Watched.settled`). A disequality that is
  satisfied or violated under some bindings stays so under more bindings, so that looking at it earlier
  makes no difference (`openConstraints_later`).
-/

namespace Regraft

namespace Subst

variable {own has : Tree.Label → Prop} {st : Store} {s t u : Subst} {a b : TermId}
  {pairs : List (TermId × TermId)} {ds : List Disequality}

/-! ## Bindings -/

/-- The bindings for some pairs, one after the other. -/
abbrev bindPairs (st : Store) : List (TermId × TermId) → Subst → Option Subst :=
  unifyPairs fun a b s => s.unifyBindings st a b

/-- Pairs are unified by the rounds of their work. -/
theorem bindPairs_run (ready : Work.Ready st (pairs, s)) :
    Ends st (pairs, s) [] (bindPairs st pairs s) := by
  have run := unifyPairs_run (n := pairBound st) ready.sound ready.stored
    (fun _ _ _ hs ha hb hn rest => unifyWithin_run hs ha hb hn rest)
    (fun _ _ => potential_lt_pairBound) []
  rwa [List.append_nil] at run

theorem bindPairs_keeps (ready : Work.Ready st (pairs, s)) (h : bindPairs st pairs s = some t) :
    Keeps st s t := by
  have run := bindPairs_run ready
  rw [h] at run
  exact (run_keeps run ready).2

theorem bindPairs_advance (ready : Work.Ready st (pairs, s)) (labels : Work.Over has st (pairs, s))
    (h : bindPairs st pairs s = some t) : Advance has st s st t := by
  have run := bindPairs_run ready
  rw [h] at run
  exact (run_advance run ready labels).1

/-- The bindings for a pair are those for what it leaves when it is settled. -/
theorem Sound.unifyBindings_settle (hs : s.Sound st) (ha : st.Stored a) (hb : st.Stored b) :
    s.unifyBindings st a b = (settle st a b s).bind fun r => bindPairs st r.1 r.2 := by
  have enough : s.potential st a < pairBound st + 1 := Nat.lt_succ_of_lt potential_lt_pairBound
  rw [← unifyWithin_eq hs ha hb enough]
  exact unifyWithin_succ st (pairBound st) a b s

theorem Sound.unifyBindings_deref (hs : s.Sound st) (ha : st.Stored a) (hb : st.Stored b) :
    s.unifyBindings st (s.deref st a) (s.deref st b) = s.unifyBindings st a b := by
  have same : settle st (s.deref st a) (s.deref st b) s = settle st a b s := by
    unfold settle
    rw [hs.deref_deref, hs.deref_deref]
  rw [hs.unifyBindings_settle (hs.stored_deref ha) (hs.stored_deref hb), same,
    hs.unifyBindings_settle ha hb]

/-- Applications are settled by their operands. -/
theorem settle_of_app {f g : String} {xs ys : List TermId} {attrs attrs' : Attrs}
    (ne : s.deref st a ≠ s.deref st b) (left : st.term? (s.deref st a) = some (.app f xs attrs))
    (right : st.term? (s.deref st b) = some (.app g ys attrs')) : settle st a b s =
      if f = g ∧ xs.length = ys.length ∧ attrs.compatible attrs' = true then some (xs.zip ys, s)
      else none := by
  unfold settle
  simp only [ne, if_false, left, right]

/-! ## Disequalities -/

/-- Disequalities are looked at again if something has been bound. -/
def finish (st : Store) (s t : Subst) : Option Subst :=
  if t.size = s.size then some t else t.revalidate st

theorem unify_eq_bind (s : Subst) (st : Store) (a b : TermId) :
    s.unify st a b = (s.unifyBindings st a b).bind (finish st s) := by
  unfold unify
  cases s.unifyBindings st a b <;> rfl

theorem finish_self (st : Store) (s : Subst) : finish st s s = some s := if_pos rfl

/-- What is open of the disequalities that were open before is what is open of all of them, if those that
    were decided stay decided. -/
theorem openConstraints_later (decided : ∀ d ∈ ds,
    (d.check t st = .satisfied → d.check u st = .satisfied) ∧
      (d.check t st = .violated → d.check u st = .violated)) :
    (t.openConstraints st ds).bind (u.openConstraints st) = u.openConstraints st ds := by
  induction ds with
  | nil => rfl
  | cons d rest ih =>
    rw [List.forall_mem_cons] at decided
    have ih := ih decided.2
    cases now : d.check t st with
    | satisfied => rw [openConstraints, openConstraints, now, decided.1.1 now, ← ih]
    | violated => rw [openConstraints, openConstraints, now, decided.1.2 now, Option.bind_none]
    | pending =>
      rw [openConstraints, openConstraints, now, ← ih]
      cases t.openConstraints st rest with
      | none => cases d.check u st <;> rfl
      | some open' => rfl

theorem openConstraints_of_bindings (st : Store) (ds : List Disequality)
    (eq : s.bindings = t.bindings) : t.openConstraints st ds = s.openConstraints st ds := by
  rw [openConstraints_eq, openConstraints_eq]
  simp only [Disequality.check_of_bindings _ st eq]

theorem revalidate_carrying (s : Subst) (st : Store) (ds : List Disequality) (sites : List Site) :
    (s.carrying ds sites).revalidate st =
      (s.openConstraints st ds).map (s.carrying · sites) := by
  have same : (s.carrying ds sites).openConstraints st ds = s.openConstraints st ds :=
    openConstraints_of_bindings st ds rfl
  rw [revalidate]
  show ((s.carrying ds sites).openConstraints st ds).map _ = _
  rw [same]
  rfl

/-- The disequalities that are carried are between terms over some labels. If there are any, the labels are
    such that what is decided stays decided. -/
structure Watches (has : Tree.Label → Prop) (st : Store) (s : Subst) : Prop where
  labels : ∀ d ∈ s.constraints, d.Over has st s
  rigid : s.constraints = [] ∨ Tree.Rigid has

theorem Watches.advance (h : Watches has st s) (adv : Advance has st s st t)
    (same : t.constraints = s.constraints) : Watches has st t := by
  refine ⟨fun d hd => ?_, same ▸ h.rigid⟩
  exact (h.labels d (same ▸ hd)).advance adv

/-- What is decided stays decided under more bindings. -/
theorem Watches.decided (h : Watches has st s) (hs : s.Sound st) (hu : u.Sound st)
    (adv : Advance has st s st u) (d : Disequality) (hd : d ∈ s.constraints) :
    (d.check s st = .satisfied → d.check u st = .satisfied) ∧
      (d.check s st = .violated → d.check u st = .violated) := by
  have rigid := h.rigid.resolve_left (List.ne_nil_of_mem hd)
  have labels := h.labels d hd
  have labels' := labels.advance adv
  have fewer : ∀ θ, u.Admits st θ → s.Admits st θ := fun θ admits => admits.of_extends adv.kept
  refine ⟨Disequality.check_satisfied_mono rigid hs hu labels labels' fewer, fun violated => ?_⟩
  rw [Disequality.check_violated_iff rigid hu labels']
  exact fun θ admits => (Disequality.check_violated_iff rigid hs labels).mp violated θ (fewer θ admits)

/-! ## One pair after the other -/

/-- Those that are still open are watched as before. -/
theorem Watches.carrying (h : Watches has st s) (hs : s.Sound st)
    (still : s.openConstraints st s.constraints = some ds) (sites : List Site) :
    Watches has st (s.carrying ds sites) := by
  have sub : ds ⊆ s.constraints := by
    rw [openConstraints_eq] at still
    split at still
    · cases still
    · exact Option.some.inj still ▸ List.filter_sublist.subset
  refine ⟨fun d hd => ?_, h.rigid.imp (fun none => ?_) id⟩
  · have labels := h.labels d (sub hd)
    have same : ∀ t, (s.carrying ds sites).tree st t = s.tree st t := hs.tree_congr rfl
    exact ⟨labels.left, labels.right, same d.lhs ▸ labels.overLeft, same d.rhs ▸ labels.overRight⟩
  · exact List.subset_nil.mp (none ▸ sub)

/-- Looking at the disequalities earlier makes no difference to what is open in the end. -/
theorem Watches.finish_again (h : Watches has st s) (first : Keeps st s t)
    (adv : Advance has st s st t) (bound : t.size ≠ s.size) (later : Keeps st t u)
    (adv' : Advance has st t st u) :
    ((t.openConstraints st s.constraints).bind fun ds =>
      finish st (t.carrying ds s.sites) (u.carrying ds s.sites)) = finish st s u := by
  have watches := h.advance adv first.constraints
  have size : u.size ≠ s.size := by
    have grown := first.binds.resolve_left fun eq => bound (eq ▸ rfl)
    rcases later.binds with rfl | ⟨lt, -⟩ <;> omega
  have all : u.revalidate st = (u.openConstraints st s.constraints).map (u.carrying · s.sites) := by
    rw [← first.constraints, ← later.constraints, ← first.sites, ← later.sites]
    rfl
  have decided : ∀ {r}, Keeps st t r → Advance has st t st r →
      (t.openConstraints st s.constraints).bind (r.openConstraints st) =
        r.openConstraints st s.constraints := by
    intro r keeps adv
    rw [← first.constraints]
    exact openConstraints_later (watches.decided first.sound keeps.sound adv)
  have each : ∀ ds, t.openConstraints st s.constraints = some ds →
      finish st (t.carrying ds s.sites) (u.carrying ds s.sites) =
        (u.openConstraints st ds).map (u.carrying · s.sites) := by
    intro ds isOpen
    by_cases same : u.size = t.size
    · obtain rfl := later.binds.eq_of_size same
      have still := decided later adv'
      rw [isOpen] at still
      rw [show u.openConstraints st ds = some ds from still]
      exact if_pos rfl
    · rw [← revalidate_carrying]
      exact if_neg same
  rw [finish, if_neg size, all, ← decided later adv', Option.map_bind]
  exact Option.bind_congr each

theorem bindPairs_carrying (pairs : List (TermId × TermId)) (s : Subst) (ds : List Disequality)
    (sites : List Site) : bindPairs st pairs (s.carrying ds sites) =
      (bindPairs st pairs s).map (·.carrying ds sites) :=
  unifyPairs_carrying (fun _ _ s => unifyWithin_carrying s) pairs s

/-! ## Work with disequalities -/

/-- Some work on terms over some labels, with disequalities that are watched. -/
structure Watched (own has : Tree.Label → Prop) (st : Store) (w : Work) : Prop where
  ready : Work.Ready st w
  own : Work.Over own st w
  labels : Work.Over has st w
  watches : Watches has st w.2

theorem Work.Over.advance (h : Work.Over has st (pairs, s))
    (stored : ∀ p ∈ pairs, st.Stored p.1 ∧ st.Stored p.2) (adv : Advance has st s st t) :
    Work.Over has st (pairs, t) := fun p hp =>
  ⟨adv.labels _ (stored p hp).1 (h p hp).1, adv.labels _ (stored p hp).2 (h p hp).2⟩

theorem Work.Over.carrying (h : Work.Over has st (pairs, s)) (hs : s.Sound st) (ds : List Disequality)
    (sites : List Site) : Work.Over has st (pairs, s.carrying ds sites) := by
  have same : ∀ t, (s.carrying ds sites).tree st t = s.tree st t := hs.tree_congr rfl
  exact fun p hp => ⟨same p.1 ▸ (h p hp).1, same p.2 ▸ (h p hp).2⟩

namespace Watched

variable {p : TermId × TermId} {rest more : List (TermId × TermId)}

theorem head (h : Watched own has st (p :: rest, s)) : Watched own has st ([p], s) where
  ready := ⟨h.ready.sound, List.forall_mem_singleton.mpr (h.ready.stored p (.head _))⟩
  own := List.forall_mem_singleton.mpr (h.own p (.head _))
  labels := List.forall_mem_singleton.mpr (h.labels p (.head _))
  watches := h.watches

/-- The first pair has been bound. -/
theorem bound (h : Watched own has st (p :: rest, s))
    (eq : s.unifyBindings st p.1 p.2 = some t) :
    Watched own has st (rest, t) ∧ Keeps st s t ∧ Advance has st s st t := by
  have first : bindPairs st [p] s = some t := by
    show (s.unifyBindings st p.1 p.2).bind _ = _
    rw [eq]
    rfl
  have keeps := bindPairs_keeps h.head.ready first
  have adv := bindPairs_advance h.head.ready h.head.labels first
  have stored := fun q hq => h.ready.stored q (.tail _ hq)
  refine ⟨⟨⟨keeps.sound, stored⟩, ?_, ?_, h.watches.advance adv keeps.constraints⟩, keeps, adv⟩
  · exact Work.Over.advance (fun q hq => h.own q (.tail _ hq)) stored
      (bindPairs_advance h.head.ready h.head.own first)
  · exact Work.Over.advance (fun q hq => h.labels q (.tail _ hq)) stored adv

/-- The disequalities have been looked at. -/
theorem carrying (h : Watched own has st (more, s))
    (still : s.openConstraints st s.constraints = some ds) (sites : List Site) :
    Watched own has st (more, s.carrying ds sites) where
  ready := ⟨h.ready.sound.congr rfl, h.ready.stored⟩
  own := h.own.carrying h.ready.sound ds sites
  labels := h.labels.carrying h.ready.sound ds sites
  watches := h.watches.carrying h.ready.sound still sites

end Watched

theorem unifyPairs_cons (unify : TermId → TermId → Subst → Option Subst) (p : TermId × TermId)
    (rest : List (TermId × TermId)) (s : Subst) :
    unifyPairs unify (p :: rest) s = (unify p.1 p.2 s).bind (unifyPairs unify rest) := rfl

theorem bindPairs_cons (p : TermId × TermId) (rest : List (TermId × TermId)) (s : Subst) :
    bindPairs st (p :: rest) s = (s.unifyBindings st p.1 p.2).bind (bindPairs st rest) := rfl

/-- Disequalities are looked at in one way. -/
theorem finish_eq (keeps : Keeps st s t) : finish st s t =
    if t.size = s.size then some t else
      (t.openConstraints st s.constraints).map (t.carrying · s.sites) := by
  rw [finish, ← keeps.constraints, ← keeps.sites]
  rfl

/-- The pairs may as well be bound first, and the disequalities looked at in the end. -/
theorem Watched.unifyPairs_eq (h : Watched own has st (pairs, s)) :
    unifyPairs (fun a b s => s.unify st a b) pairs s = (bindPairs st pairs s).bind (finish st s) := by
  induction pairs generalizing s with
  | nil => exact (finish_self st s).symm
  | cons p rest ih =>
    rw [bindPairs_cons, unifyPairs_cons, unify_eq_bind]
    cases eq : s.unifyBindings st p.1 p.2 with
    | none => rfl
    | some t =>
      obtain ⟨behind, keeps, adv⟩ := h.bound eq
      rw [Option.bind_some, Option.bind_some, finish_eq keeps]
      by_cases size : t.size = s.size
      · obtain rfl := keeps.binds.eq_of_size size
        rw [if_pos rfl]
        exact ih behind
      have again : ∀ ds, t.openConstraints st s.constraints = some ds →
          unifyPairs (fun a b s => s.unify st a b) rest (t.carrying ds s.sites) =
            ((bindPairs st rest t).map (·.carrying ds s.sites)).bind
              (finish st (t.carrying ds s.sites)) := by
        intro ds isOpen
        rw [← bindPairs_carrying]
        exact ih (behind.carrying (by rw [keeps.constraints, isOpen]) s.sites)
      rw [if_neg size, Option.bind_map]
      refine (Option.bind_congr again).trans ?_
      cases bound : bindPairs st rest t with
      | none => cases t.openConstraints st s.constraints <;> rfl
      | some u =>
        exact h.watches.finish_again keeps adv size (bindPairs_keeps behind.ready bound)
          (bindPairs_advance behind.ready behind.labels bound)

/-- Two terms that are settled without a binding leave pairs to be unified. -/
theorem Watched.settled (h : Watched own has st ([(a, b)], s)) {more : List (TermId × TermId)}
    (settled : settle st a b s = some (more, s)) :
    Watched own has st (more, s) ∧ (∀ p ∈ more, s.potential st p.1 < s.potential st a) ∧
      s.unify st a b = unifyPairs (fun a b s => s.unify st a b) more s := by
  obtain ⟨ha, hb⟩ := h.ready.stored _ (.head _)
  obtain ⟨oa, ob⟩ := h.own _ (.head _)
  obtain ⟨la, lb⟩ := h.labels _ (.head _)
  have hs := h.ready.sound
  have settles := hs.settles ha hb settled
  have pairs := settles.pairs hs
  have left : Watched own has st (more, s) := ⟨⟨hs, fun q hq => (pairs q hq).1⟩,
    (settles.advance hs ha hb oa ob).2, (settles.advance hs ha hb la lb).2, h.watches⟩
  refine ⟨left, fun p hp => Nat.add_lt_add_left (pairs p hp).2.2 _, ?_⟩
  rw [left.unifyPairs_eq, unify_eq_bind, hs.unifyBindings_settle ha hb, settled, Option.bind_some]

theorem openPlaces_congr (eq : s.bindings = t.bindings) : t.openPlaces st = s.openPlaces st := by
  have get : t.get? = s.get? := by
    funext v
    rw [get?, get?, eq]
  unfold openPlaces isBound
  rw [get]

/-- Only the bindings count for the potential of a term. -/
theorem potential_congr (eq : s.bindings = t.bindings) : t.potential st a = s.potential st a := by
  have leads : t.Leads st = s.Leads st := by
    funext a b
    exact propext ⟨leads_congr eq.symm, leads_congr eq⟩
  unfold potential height
  rw [openPlaces_congr eq, leads]

/-- The first pair has been unified. -/
theorem Watched.unified {p : TermId × TermId} {rest : List (TermId × TermId)}
    (h : Watched own has st (p :: rest, s)) (eq : s.unify st p.1 p.2 = some t) :
    Watched own has st (rest, t) ∧ ∀ a, t.potential st a ≤ s.potential st a := by
  rw [unify_eq_bind, Option.bind_eq_some_iff] at eq
  obtain ⟨r, bound, finished⟩ := eq
  obtain ⟨behind, keeps, -⟩ := h.bound bound
  have le : ∀ a, r.potential st a ≤ s.potential st a := fun a => keeps.binds.potential_le
  rw [finish_eq keeps] at finished
  split at finished
  · cases finished
    exact ⟨behind, le⟩
  · obtain ⟨ds, isOpen, rfl⟩ := Option.map_eq_some_iff.mp finished
    refine ⟨behind.carrying (by rw [keeps.constraints, isOpen]) s.sites, fun a => ?_⟩
    exact Nat.le_trans (Nat.le_of_eq (potential_congr (s := r) rfl)) (le a)

end Subst

end Regraft
