import Regraft.Proofs.Subst.Bind
import Regraft.Proofs.Term.Same
import Regraft.Unify.Basic

/-
  Unification in rounds. A round settles one pair: it makes a binding, or leaves the pairs of operands
  to be unified (`settle`); a pair that can not be settled clashes. The bounded recursion of
  `unifyWithin` runs the rounds of a list of pairs to its end (`unifyWithin_run`): every binding takes
  an open variable away, and without one the pairs get less high, so that `pairBound` is never met
  (`potential_lt_pairBound`).
-/

namespace Regraft

open Relation

/-- Trees that unification tells apart at their roots, or of which one contains the other. -/
inductive Tree.Clash : Tree → Tree → Prop
  | occursLeft {v : UInt32} {t : Tree} (has : t.HasVar v) (ne : t ≠ .var v) : Clash (.var v) t
  | occursRight {v : UInt32} {t : Tree} (has : t.HasVar v) (ne : t ≠ .var v) : Clash t (.var v)
  | values {l m : Leaf} (ne : l ≠ m) (value : l.valueEq m = false) : Clash (.leaf l) (.leaf m)
  | roots {f g : String} {xs ys : List Tree} {a b : Attrs}
      (ne : ¬ (f = g ∧ xs.length = ys.length ∧ a.compatible b = true)) :
      Clash (.app f xs a) (.app g ys b)
  | leafApp {l : Leaf} {g : String} {ys : List Tree} {b : Attrs} : Clash (.leaf l) (.app g ys b)
  | appLeaf {f : String} {xs : List Tree} {a : Attrs} {m : Leaf} : Clash (.app f xs a) (.leaf m)

namespace Subst

variable {st : Store} {s s' : Subst} {a b t u : TermId} {v : UInt32}
  {more rest : List (TermId × TermId)}

/-- Settle a pair: the pairs that are left to unify for it, and the bindings. -/
def settle (st : Store) (a b : TermId) (s : Subst) : Option (List (TermId × TermId) × Subst) :=
  let a := s.deref st a
  let b := s.deref st b
  if a = b then some ([], s) else
  match st.term? a, st.term? b with
  | some (.var i), some (.var j) => some ([], if i < j then s.bind j a else s.bind i b)
  | some (.var i), some _ => (s.bindTo st i b).map ([], ·)
  | some _, some (.var j) => (s.bindTo st j a).map ([], ·)
  | some (.leaf l), some (.leaf m) => if l.valueEq m then some ([], s) else none
  | some (.app f xs attrs), some (.app g ys attrs') =>
    if f = g ∧ xs.length = ys.length ∧ attrs.compatible attrs' then some (xs.zip ys, s) else none
  | _, _ => none

/-- Unification settles a pair and unifies what is left. -/
theorem unifyWithin_succ (st : Store) (n : Nat) (a b : TermId) (s : Subst) :
    unifyWithin st (n + 1) a b s =
      (settle st a b s).bind fun r => unifyPairs (unifyWithin st n) r.1 r.2 := by
  have bound : ∀ v t, (s.bindTo st v t).map (([] : List (TermId × TermId)), ·) =
      if s.occurs st v t then none else some ([], s.bind v t) := by
    intro v t
    unfold bindTo
    split <;> rfl
  rw [unifyWithin, settle]
  by_cases same : s.deref st a = s.deref st b
  · simp only [same, if_true]
    rfl
  simp only [same, if_false, bound]
  unfold bindTo
  rcases st.term? (s.deref st a) with _ | x <;> rcases st.term? (s.deref st b) with _ | y
  · rfl
  · rfl
  · cases x <;> rfl
  · cases x <;> cases y <;> first | rfl | (simp only; split <;> rfl)

/-- What a settled pair leaves. -/
inductive Settles (st : Store) (s : Subst) (a b : TermId) : List (TermId × TermId) → Subst → Prop
  | same (eq : s.deref st a = s.deref st b) : Settles st s a b [] s
  | left {v : UInt32} (var : st.term? (s.deref st a) = some (.var v))
      (free : ¬ (s.tree st b).HasVar v) : Settles st s a b [] (s.bind v (s.deref st b))
  | right {v : UInt32} (var : st.term? (s.deref st b) = some (.var v))
      (free : ¬ (s.tree st a).HasVar v) : Settles st s a b [] (s.bind v (s.deref st a))
  | leaves {l m : Leaf} (left : st.term? (s.deref st a) = some (.leaf l))
      (right : st.term? (s.deref st b) = some (.leaf m)) (value : l.valueEq m = true) :
      Settles st s a b [] s
  | operands {op : String} {xs ys : List TermId} {attrs attrs' : Attrs}
      (left : st.term? (s.deref st a) = some (.app op xs attrs))
      (right : st.term? (s.deref st b) = some (.app op ys attrs'))
      (length : xs.length = ys.length) (fits : attrs.compatible attrs' = true) :
      Settles st s a b (xs.zip ys) s

theorem Sound.bindTo_cases (hs : s.Sound st) (v : UInt32) (t : TermId) :
    s.bindTo st v (s.deref st t) = some (s.bind v (s.deref st t)) ∧ ¬ (s.tree st t).HasVar v ∨
      s.bindTo st v (s.deref st t) = none ∧ (s.tree st t).HasVar v := by
  have occurs : s.occurs st v (s.deref st t) = true ↔ (s.tree st t).HasVar v := by
    rw [hs.occurs_iff, hs.tree_deref]
  unfold bindTo
  by_cases h : s.occurs st v (s.deref st t) = true
  · exact .inr ⟨if_pos h, occurs.mp h⟩
  · exact .inl ⟨if_neg h, mt occurs.mpr h⟩

/-- A pair is settled, or it clashes. -/
theorem Sound.settle_cases (hs : s.Sound st) (ha : st.Stored a) (hb : st.Stored b) :
    (∃ more s', settle st a b s = some (more, s') ∧ Settles st s a b more s') ∨
      settle st a b s = none ∧ Tree.Clash (s.tree st a) (s.tree st b) := by
  obtain ⟨x, hx⟩ := Store.term?_of_stored (hs.stored_deref ha)
  obtain ⟨y, hy⟩ := Store.term?_of_stored (hs.stored_deref hb)
  rw [settle]
  by_cases same : s.deref st a = s.deref st b
  · exact .inl ⟨_, _, if_pos same, .same same⟩
  simp only [same, if_false, hx, hy]
  have ne : x ≠ y := fun eq => same (Store.term?_inj hx (eq ▸ hy))
  cases x with
  | var i => cases y with
    | var j =>
      have ne : i ≠ j := fun eq => ne (eq ▸ rfl)
      refine .inl ⟨_, _, rfl, ?_⟩
      split
      · refine .right hy ?_
        rw [hs.tree_of_var hx, Tree.hasVar_var]
        exact ne.symm
      · refine .left hx ?_
        rw [hs.tree_of_var hy, Tree.hasVar_var]
        exact ne
    | leaf m =>
      rcases hs.bindTo_cases i b with ⟨eq, free⟩ | ⟨-, has⟩
      · exact .inl ⟨_, _, by simp only [eq]; rfl, .left hx free⟩
      · rw [hs.tree_of_leaf hy] at has
        exact absurd has Tree.not_hasVar_leaf
    | app g ys attrs' =>
      rcases hs.bindTo_cases i b with ⟨eq, free⟩ | ⟨eq, has⟩
      · exact .inl ⟨_, _, by simp only [eq]; rfl, .left hx free⟩
      · refine .inr ⟨by simp only [eq]; rfl, ?_⟩
        rw [hs.tree_of_var hx]
        refine .occursLeft has ?_
        rw [hs.tree_of_app hy]
        exact nofun
  | leaf l => cases y with
    | var j =>
      rcases hs.bindTo_cases j a with ⟨eq, free⟩ | ⟨-, has⟩
      · exact .inl ⟨_, _, by simp only [eq]; rfl, .right hy free⟩
      · rw [hs.tree_of_leaf hx] at has
        exact absurd has Tree.not_hasVar_leaf
    | leaf m =>
      by_cases value : l.valueEq m = true
      · exact .inl ⟨_, _, if_pos value, .leaves hx hy value⟩
      · refine .inr ⟨if_neg value, ?_⟩
        rw [hs.tree_of_leaf hx, hs.tree_of_leaf hy]
        exact .values (fun eq => ne (eq ▸ rfl)) (Bool.not_eq_true _ ▸ value)
    | app g ys attrs' =>
      refine .inr ⟨rfl, ?_⟩
      rw [hs.tree_of_leaf hx, hs.tree_of_app hy]
      exact .leafApp
  | app f xs attrs => cases y with
    | var j =>
      rcases hs.bindTo_cases j a with ⟨eq, free⟩ | ⟨eq, has⟩
      · exact .inl ⟨_, _, by simp only [eq]; rfl, .right hy free⟩
      · refine .inr ⟨by simp only [eq]; rfl, ?_⟩
        rw [hs.tree_of_var hy]
        refine .occursRight has ?_
        rw [hs.tree_of_app hx]
        exact nofun
    | leaf m =>
      refine .inr ⟨rfl, ?_⟩
      rw [hs.tree_of_app hx, hs.tree_of_leaf hy]
      exact .appLeaf
    | app g ys attrs' =>
      by_cases fits : f = g ∧ xs.length = ys.length ∧ attrs.compatible attrs' = true
      · obtain ⟨rfl, length, fits⟩ := fits
        exact .inl ⟨_, _, if_pos ⟨rfl, length, fits⟩, .operands hx hy length fits⟩
      · refine .inr ⟨if_neg fits, ?_⟩
        rw [hs.tree_of_app hx, hs.tree_of_app hy]
        refine .roots ?_
        rwa [List.length_map, List.length_map]

theorem Sound.settles (hs : s.Sound st) (ha : st.Stored a) (hb : st.Stored b)
    (h : settle st a b s = some (more, s')) : Settles st s a b more s' := by
  rcases hs.settle_cases ha hb with ⟨_, _, eq, settles⟩ | ⟨eq, -⟩
  · cases h.symm.trans eq
    exact settles
  · cases h.symm.trans eq

/-! ## What a settled pair keeps -/

namespace Settles

/-- A settled pair leaves stored pairs that are less high. -/
theorem pairs (h : Settles st s a b more s') (hs : s.Sound st) : ∀ p ∈ more,
    (st.Stored p.1 ∧ st.Stored p.2) ∧ s' = s ∧ s.height st p.1 < s.height st a := by
  cases h with
  | operands left right length fits =>
    intro p hp
    obtain ⟨hx, hy⟩ := List.of_mem_zip hp
    exact ⟨⟨hs.valid.stored left hx, hs.valid.stored right hy⟩, rfl, hs.height_lt left hx⟩
  | _ => exact nofun

/-- A settled pair changes nothing or binds an open variable to a stored term without it. -/
theorem binds (h : Settles st s a b more s') (hs : s.Sound st) (ha : st.Stored a)
    (hb : st.Stored b) : s' = s ∨ ∃ p v t, st.term? p = some (.var v) ∧ s.get? v = none ∧
      st.Stored t ∧ ¬ (s.tree st t).HasVar v ∧ s' = s.bind v t := by
  cases h with
  | left var free =>
    refine .inr ⟨_, _, _, var, hs.get?_of_deref var, hs.stored_deref hb, ?_, rfl⟩
    rwa [hs.tree_deref]
  | right var free =>
    refine .inr ⟨_, _, _, var, hs.get?_of_deref var, hs.stored_deref ha, ?_, rfl⟩
    rwa [hs.tree_deref]
  | _ => exact .inl rfl

end Settles

/-! ## Open variables -/

/-- The places of variables that are not bound. -/
def openPlaces (s : Subst) (st : Store) : Finset TermId :=
  ((Finset.range st.size).image TermId.mk).filter fun t => (st.var? t).any fun v => !s.isBound v

theorem mem_openPlaces : t ∈ s.openPlaces st ↔ ∃ v, st.term? t = some (.var v) ∧ s.get? v = none := by
  have isOpen : ((st.var? t).any fun v => !s.isBound v) = true ↔
      ∃ v, st.term? t = some (.var v) ∧ s.get? v = none := by
    simp [Option.any_eq_true, Store.var?_eq_some_iff, isBound]
  refine Finset.mem_filter.trans ((and_congr_right fun _ => isOpen).trans ⟨And.right, fun h => ⟨?_, h⟩⟩)
  obtain ⟨v, var, -⟩ := h
  exact Finset.mem_image.mpr ⟨t.index, Finset.mem_range.mpr (Store.stored_of_term? var), rfl⟩

theorem card_openPlaces_le : (s.openPlaces st).card ≤ st.size :=
  calc (s.openPlaces st).card
    _ ≤ ((Finset.range st.size).image TermId.mk).card := Finset.card_filter_le ..
    _ ≤ (Finset.range st.size).card := Finset.card_image_le
    _ = st.size := Finset.card_range _

theorem size_bind (h : s.get? v = none) : (s.bind v t).size = s.size + 1 := by
  have : v ∉ s.bindings := by
    rw [Std.TreeMap.mem_iff_isSome_getElem?]
    unfold get? at h
    simp [h]
  simp [size, bind, Std.TreeMap.size_insert, this]

/-- Nothing is changed, or variables that were open are bound. -/
def Binds (st : Store) (s s' : Subst) : Prop :=
  s' = s ∨ s.size < s'.size ∧ (s'.openPlaces st).card < (s.openPlaces st).card

theorem Binds.trans {s'' : Subst} (h : Binds st s s') (h' : Binds st s' s'') : Binds st s s'' := by
  rcases h with rfl | h
  · exact h'
  · rcases h' with rfl | h'
    · exact .inr h
    · exact .inr ⟨Nat.lt_trans h.1 h'.1, Nat.lt_trans h'.2 h.2⟩

/-- Whether something has been bound shows in the number of bindings. -/
theorem Binds.eq_of_size (h : Binds st s s') (eq : s'.size = s.size) : s' = s := by
  rcases h with rfl | ⟨lt, -⟩
  · rfl
  · omega

theorem binds_bind (var : st.term? u = some (.var v)) (hv : s.get? v = none) :
    Binds st s (s.bind v t) := by
  refine .inr ⟨by rw [size_bind hv]; exact Nat.lt_succ_self _, Finset.card_lt_card ?_⟩
  refine (Finset.ssubset_iff_of_subset fun w hw => ?_).mpr ⟨u, mem_openPlaces.mpr ⟨v, var, hv⟩, ?_⟩
  · obtain ⟨x, hx, hb⟩ := mem_openPlaces.mp hw
    rw [get?_bind] at hb
    split at hb
    · cases hb
    · exact mem_openPlaces.mpr ⟨x, hx, hb⟩
  · intro hu
    obtain ⟨x, hx, hb⟩ := mem_openPlaces.mp hu
    cases var.symm.trans hx
    rw [get?_bind, if_pos rfl] at hb
    cases hb

/-! ## Runs -/

/-- The pairs that are left to unify, and the bindings so far. -/
abbrev Work := List (TermId × TermId) × Subst

/-- The first pair is settled. -/
inductive Round (st : Store) : Work → Work → Prop
  | pair {a b : TermId} {s s' : Subst} {more rest : List (TermId × TermId)}
      (settled : settle st a b s = some (more, s')) : Round st ((a, b) :: rest, s) (more ++ rest, s')

/-- The substitution is sound, and all pairs are stored. -/
structure Work.Ready (st : Store) (w : Work) : Prop where
  sound : w.2.Sound st
  stored : ∀ p ∈ w.1, st.Stored p.1 ∧ st.Stored p.2

theorem ready_pair (hs : s.Sound st) (ha : st.Stored a) (hb : st.Stored b) :
    Work.Ready st ([(a, b)], s) := ⟨hs, List.forall_mem_singleton.mpr ⟨ha, hb⟩⟩

variable {w w' : Work}

/-- What a round does. -/
theorem Round.cases_ready (h : Round st w w') (ready : Work.Ready st w) :
    ∃ a b more rest, w.1 = (a, b) :: rest ∧ w'.1 = more ++ rest ∧ st.Stored a ∧ st.Stored b ∧
      Settles st w.2 a b more w'.2 := by
  obtain ⟨settled⟩ := h
  obtain ⟨ha, hb⟩ := ready.stored _ (.head _)
  exact ⟨_, _, _, _, rfl, rfl, ha, hb, ready.sound.settles ha hb settled⟩

/-- What a round keeps. -/
structure Keeps (st : Store) (s s' : Subst) : Prop where
  sound : s'.Sound st
  kept : s.Extends s'
  binds : Binds st s s'
  constraints : s'.constraints = s.constraints
  sites : s'.sites = s.sites

theorem Keeps.refl (hs : s.Sound st) : Keeps st s s := ⟨hs, .refl s, .inl rfl, rfl, rfl⟩

theorem Keeps.trans {s'' : Subst} (h : Keeps st s s') (h' : Keeps st s' s'') : Keeps st s s'' :=
  ⟨h'.sound, h.kept.trans h'.kept, h.binds.trans h'.binds, h'.constraints.trans h.constraints,
    h'.sites.trans h.sites⟩

theorem Settles.keeps (h : Settles st s a b more s') (hs : s.Sound st) (ha : st.Stored a)
    (hb : st.Stored b) : Keeps st s s' := by
  rcases h.binds hs ha hb with rfl | ⟨p, v, t, var, hv, ht, free, rfl⟩
  · exact .refl hs
  · exact ⟨hs.bind ht hv free, extends_bind hv, binds_bind var hv, rfl, rfl⟩

theorem Round.keeps (h : Round st w w') (ready : Work.Ready st w) :
    Work.Ready st w' ∧ Keeps st w.2 w'.2 := by
  obtain ⟨a, b, more, rest, pairs, pairs', ha, hb, settles⟩ := h.cases_ready ready
  have keeps := settles.keeps ready.sound ha hb
  refine ⟨⟨keeps.sound, ?_⟩, keeps⟩
  rw [pairs', List.forall_mem_append]
  refine ⟨fun p hp => (settles.pairs ready.sound p hp).1, fun p hp => ?_⟩
  exact ready.stored p (pairs ▸ .tail _ hp)

theorem run_keeps (h : ReflTransGen (Round st) w w') (ready : Work.Ready st w) :
    Work.Ready st w' ∧ Keeps st w.2 w'.2 := by
  induction h with
  | refl => exact ⟨ready, .refl ready.sound⟩
  | tail _ round ih =>
    obtain ⟨ready', keeps⟩ := round.keeps ih.1
    exact ⟨ready', ih.2.trans keeps⟩

/-! ## Bounds -/

/-- A bound on the rounds that go down from a pair: between two bindings the pairs get less high. -/
noncomputable def potential (s : Subst) (st : Store) (a : TermId) : Nat :=
  (s.openPlaces st).card * (st.size + 1) + s.height st a

theorem potential_lt_pairBound : s.potential st a < pairBound st := by
  have places : (s.openPlaces st).card ≤ st.size := card_openPlaces_le
  have height : s.height st a < st.size + 1 := height_lt_depthBound
  calc s.potential st a
    _ < (s.openPlaces st).card * (st.size + 1) + (st.size + 1) := by
      unfold potential
      omega
    _ = ((s.openPlaces st).card + 1) * (st.size + 1) := (Nat.succ_mul ..).symm
    _ ≤ (st.size + 1) * (st.size + 1) := Nat.mul_le_mul_right _ (by omega)
    _ ≤ pairBound st := Nat.le_mul_of_pos_right _ (Nat.succ_pos _)

/-- The potential of no term grows. -/
theorem Binds.potential_le (h : Binds st s s') : s'.potential st t ≤ s.potential st t := by
  rcases h with rfl | ⟨-, lt⟩
  · exact Nat.le_refl _
  have height : s'.height st t < st.size + 1 := height_lt_depthBound
  calc s'.potential st t
    _ ≤ ((s'.openPlaces st).card + 1) * (st.size + 1) := by
      rw [Nat.succ_mul]
      unfold potential
      omega
    _ ≤ (s.openPlaces st).card * (st.size + 1) := Nat.mul_le_mul_right _ lt
    _ ≤ s.potential st t := Nat.le_add_right ..

/-- The outcome of unifying the first pairs of some work is where its rounds end: behind these pairs, or
    at a pair that clashes. -/
def Ends (st : Store) (w : Work) (rest : List (TermId × TermId)) : Option Subst → Prop
  | some s' => ReflTransGen (Round st) w (rest, s')
  | none => ∃ a b more r, ReflTransGen (Round st) w ((a, b) :: more, r) ∧ settle st a b r = none

theorem Ends.of_run {w w' : Work} {o : Option Subst} (run : ReflTransGen (Round st) w w')
    (h : Ends st w' rest o) : Ends st w rest o := by
  cases o with
  | some s' => exact run.trans h
  | none =>
    obtain ⟨a, b, more, r, run', stuck⟩ := h
    exact ⟨a, b, more, r, run.trans run', stuck⟩

/-- An outcome is what a run ends in that can not go on. -/
theorem Ends.exists_run {w : Work} {o : Option Subst} (h : Ends st w [] o) :
    ∃ pairs r, ReflTransGen (Round st) w (pairs, r) ∧ (∀ w', ¬ Round st (pairs, r) w') ∧
      o = if pairs = [] then some r else none := by
  cases o with
  | some s' => exact ⟨[], s', h, nofun, rfl⟩
  | none =>
    obtain ⟨a, b, more, r, run, stuck⟩ := h
    refine ⟨_, r, run, ?_, rfl⟩
    rintro w ⟨settled⟩
    cases settled.symm.trans stuck

/-- There is one outcome. -/
theorem Ends.unique {w : Work} {o o' : Option Subst} (h : Ends st w [] o) (h' : Ends st w [] o') :
    o = o' := by
  have unique : Relator.RightUnique (Round st) := by
    rintro _ _ _ ⟨settled⟩ ⟨settled'⟩
    cases settled.symm.trans settled'
    rfl
  have stays : ∀ {w w' : Work}, (∀ next, ¬ Round st w next) → ReflTransGen (Round st) w w' →
      w = w' := fun stuck run => run.cases_head.resolve_right fun ⟨_, round, _⟩ => stuck _ round
  obtain ⟨pairs, r, run, stuck, rfl⟩ := h.exists_run
  obtain ⟨pairs', r', run', stuck', rfl⟩ := h'.exists_run
  rcases ReflTransGen.total_of_right_unique unique run run' with more | more
  · cases stays stuck more
    rfl
  · cases stays stuck' more
    rfl

/-- Pairs that end one after the other. -/
theorem unifyPairs_run {unify : TermId → TermId → Subst → Option Subst} {n : Nat}
    {pairs : List (TermId × TermId)} (hs : s.Sound st)
    (stored : ∀ p ∈ pairs, st.Stored p.1 ∧ st.Stored p.2)
    (each : ∀ a b s, s.Sound st → st.Stored a → st.Stored b → s.potential st a < n →
      ∀ rest, Ends st ((a, b) :: rest, s) rest (unify a b s))
    (bound : ∀ p ∈ pairs, s.potential st p.1 < n) (rest : List (TermId × TermId)) :
    Ends st (pairs ++ rest, s) rest (unifyPairs unify pairs s) := by
  induction pairs generalizing s with
  | nil => exact ReflTransGen.refl
  | cons p pairs ih =>
    rw [List.forall_mem_cons] at stored bound
    have first := each p.1 p.2 s hs stored.1.1 stored.1.2 bound.1
    show Ends st (p :: (pairs ++ rest), s) rest ((unify p.1 p.2 s).bind (unifyPairs unify pairs))
    cases h : unify p.1 p.2 s with
    | none =>
      rw [h] at first
      exact first (pairs ++ rest)
    | some r =>
      rw [h] at first
      have keeps := (run_keeps (first []) (ready_pair hs stored.1.1 stored.1.2)).2
      refine .of_run (first (pairs ++ rest)) (ih keeps.sound stored.2 fun q hq => ?_)
      exact Nat.lt_of_le_of_lt keeps.binds.potential_le (bound.2 q hq)

/-- With a bound above the potential of a pair, unification runs its rounds to the end. -/
theorem unifyWithin_run {n : Nat} (hs : s.Sound st) (ha : st.Stored a) (hb : st.Stored b)
    (hn : s.potential st a < n) (rest : List (TermId × TermId)) :
    Ends st ((a, b) :: rest, s) rest (unifyWithin st n a b s) := by
  induction n generalizing a b s rest with
  | zero => omega
  | succ n ih =>
    rw [unifyWithin_succ]
    rcases hs.settle_cases ha hb with ⟨more, s', eq, settles⟩ | ⟨eq, -⟩
    · rw [eq]
      have pairs := settles.pairs hs
      refine .of_run (.single (.pair eq)) (unifyPairs_run (n := n) (settles.keeps hs ha hb).sound
        (fun p hp => (pairs p hp).1) (fun _ _ _ hs ha hb hn rest => ih hs ha hb hn rest) ?_ rest)
      intro p hp
      obtain ⟨-, rfl, lt⟩ := pairs p hp
      unfold potential at hn ⊢
      omega
    · rw [eq]
      exact ⟨a, b, rest, s, .refl, eq⟩

/-- A higher bound makes no difference. -/
theorem unifyWithin_eq {n : Nat} (hs : s.Sound st) (ha : st.Stored a) (hb : st.Stored b)
    (hn : s.potential st a < n) : unifyWithin st n a b s = s.unifyBindings st a b :=
  (unifyWithin_run hs ha hb hn []).unique (unifyWithin_run hs ha hb potential_lt_pairBound [])

/-- Unification runs the rounds of its pair to the end. -/
theorem unifyBindings_run (hs : s.Sound st) (ha : st.Stored a) (hb : st.Stored b) :
    Ends st ([(a, b)], s) [] (s.unifyBindings st a b) :=
  unifyWithin_run hs ha hb potential_lt_pairBound []

theorem unifyBindings_keeps (hs : s.Sound st) (ha : st.Stored a) (hb : st.Stored b)
    (h : s.unifyBindings st a b = some s') : Keeps st s s' := by
  have run := unifyBindings_run hs ha hb
  rw [h] at run
  exact (run_keeps run (ready_pair hs ha hb)).2

end Subst

end Regraft
