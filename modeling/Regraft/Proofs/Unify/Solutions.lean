import Regraft.Proofs.Subst.Advance
import Regraft.Proofs.Subst.Reify
import Regraft.Proofs.Term.Same
import Regraft.Proofs.Unify.Rounds

/-
  The solutions of unification problems, for any way to compare trees that agrees with unification on the
  labels of a problem (`Tree.Likeness`). An assignment of the variables is a solution of some work if it
  satisfies all bindings and makes the two terms of each pair alike. A round keeps the solutions
  (`Round.solvesIn_iff`), and a pair that clashes has none.
-/

namespace Regraft

open Relation

namespace Tree

variable {has : Label → Prop} {R : Tree → Tree → Prop}

/-- An equivalence of trees that allows for the exchange of operands. -/
structure Congruence (R : Tree → Tree → Prop) : Prop where
  refl : ∀ t, R t t
  symm : ∀ {t u}, R t u → R u t
  trans : ∀ {t u w}, R t u → R u w → R t w
  congr : ∀ {op xs ys attrs}, List.Forall₂ R xs ys → R (.app op xs attrs) (.app op ys attrs)

/-- A congruence that tells trees over some labels apart just as unification does. -/
structure Likeness (has : Label → Prop) (R : Tree → Tree → Prop) : Prop extends Congruence R where
  size_eq : ∀ {t u}, R t u → t.size = u.size
  leaf_iff : ∀ {l m}, has (.leaf l) → has (.leaf m) →
    (R (.leaf l) (.leaf m) ↔ l = m ∨ l.valueEq m = true)
  app_iff : ∀ {f g xs ys a b}, has (.node f xs.length a) → has (.node g ys.length b) →
    (R (.app f xs a) (.app g ys b) ↔ f = g ∧ a.compatible b = true ∧ List.Forall₂ R xs ys)
  leaf_app : ∀ {l g ys b}, ¬ R (.leaf l) (.app g ys b)

/-- Trees that clash are alike under no assignment. -/
theorem Clash.not_like (like : Likeness has R) {t u : Tree} (h : Clash t u) (ht : t.Over has)
    (hu : u.Over has) (θ : UInt32 → Tree) : ¬ R (t.subst θ) (u.subst θ) := by
  cases h with
  | occursLeft occurs ne =>
    exact fun same => Nat.ne_of_lt ((size_le_subst occurs θ).2 ne) (like.size_eq same)
  | occursRight occurs ne =>
    exact fun same => Nat.ne_of_gt ((size_le_subst occurs θ).2 ne) (like.size_eq same)
  | values ne value =>
    intro same
    rcases (like.leaf_iff (over_leaf.mp ht) (over_leaf.mp hu)).mp same with eq | eq
    · exact ne eq
    · exact absurd (value.symm.trans eq) Bool.false_ne_true
  | @roots f g xs ys a b ne =>
    intro same
    rw [over_app, ← List.length_map (subst θ)] at ht hu
    rw [subst_app, subst_app, like.app_iff ht.1 hu.1] at same
    obtain ⟨op, fits, operands⟩ := same
    have length := operands.length_eq
    rw [List.length_map, List.length_map] at length
    exact ne ⟨op, length, fits⟩
  | leafApp => exact like.leaf_app
  | appLeaf => exact fun same => like.leaf_app (like.symm same)

end Tree

namespace Subst

open Regraft.Tree (Congruence Likeness)

variable {has : Tree.Label → Prop} {R : Tree → Tree → Prop} {st : Store} {s s' : Subst}
  {a b t u : TermId} {v : UInt32} {θ : UInt32 → Tree} {more rest : List (TermId × TermId)} {w w' : Work}

/-! ## Bindings -/

/-- An assignment satisfies all bindings: what a bound variable is assigned is like its binding. -/
def AdmitsIn (R : Tree → Tree → Prop) (s : Subst) (st : Store) (θ : UInt32 → Tree) : Prop :=
  ∀ v t, s.get? v = some t → R (θ v) ((st.tree t).subst θ)

theorem admitsIn_bind (hv : s.get? v = none) : (s.bind v t).AdmitsIn R st θ ↔
    s.AdmitsIn R st θ ∧ R (θ v) ((st.tree t).subst θ) := by
  refine ⟨fun h => ⟨fun w u hw => h w u (extends_bind hv w u hw), h v t ?_⟩, ?_⟩
  · rw [get?_bind, if_pos rfl]
  · rintro ⟨h, same⟩ w u hw
    rw [get?_bind] at hw
    split at hw
    · rename_i eq
      cases hw
      exact eq ▸ same
    · exact h w u hw

/-- Under an assignment that is admitted, bindings may be followed. -/
theorem AdmitsIn.tree (h : s.AdmitsIn R st θ) (cong : Congruence R) (hs : s.Sound st) (t : TermId) :
    R ((st.tree t).subst θ) ((s.tree st t).subst θ) := by
  induction t using hs.leads_induct with
  | step t ih =>
    cases ht : st.term? t with
    | none =>
      have ne : ∀ v, st.term? t ≠ some (.var v) := fun v hv => nomatch ht.symm.trans hv
      rw [hs.tree_eq, hs.deref_of_ne_var ne, ht, Store.tree, Store.treeWithin, ht]
      exact cong.refl _
    | some x => cases x with
      | var v =>
        rw [hs.valid.tree_var ht, hs.tree_var ht, Tree.subst_var]
        cases hb : s.get? v with
        | none =>
          rw [image_of_unbound hb]
          exact cong.refl _
        | some u =>
          rw [image_of_bound hb]
          exact cong.trans (h v u hb) (ih u (.binding ht hb))
      | leaf l =>
        rw [hs.valid.tree_leaf ht, hs.tree_leaf ht]
        exact cong.refl _
      | app op args attrs =>
        rw [hs.valid.tree_app ht, hs.tree_app ht, Tree.subst_app, Tree.subst_app]
        refine cong.congr ?_
        simp only [List.map_map, List.forall₂_map_left_iff, List.forall₂_map_right_iff,
          List.forall₂_same]
        exact fun u hu => ih u (.operand ht hu)

theorem AdmitsIn.pair_iff (h : s.AdmitsIn R st θ) (cong : Congruence R) (hs : s.Sound st) :
    R ((st.tree a).subst θ) ((st.tree b).subst θ) ↔
      R ((s.tree st a).subst θ) ((s.tree st b).subst θ) := by
  have left := h.tree cong hs a
  have right := h.tree cong hs b
  exact ⟨fun e => cong.trans (cong.symm left) (cong.trans e right),
    fun e => cong.trans left (cong.trans e (cong.symm right))⟩

theorem AdmitsIn.deref (h : s.AdmitsIn R st θ) (cong : Congruence R) (hs : s.Sound st) (t : TermId) :
    R ((st.tree (s.deref st t)).subst θ) ((s.tree st t).subst θ) := by
  rw [← hs.tree_deref t]
  exact h.tree cong hs _

/-- The images of a substitution satisfy its bindings. -/
theorem Sound.admitsIn_own (cong : Congruence R) (hs : s.Sound st) : s.AdmitsIn R st (s.image st) := by
  intro v t hv
  rw [← hs.tree_eq_subst, image_of_bound hv]
  exact cong.refl _

/-! ## Solutions -/

/-- An assignment satisfies the bindings and makes the terms of all pairs alike. -/
def Work.SolvesIn (R : Tree → Tree → Prop) (st : Store) (θ : UInt32 → Tree) (w : Work) : Prop :=
  w.2.AdmitsIn R st θ ∧ ∀ p ∈ w.1, R ((st.tree p.1).subst θ) ((st.tree p.2).subst θ)

/-- What is left after a pair is settled has the solutions of the pair. -/
theorem Settles.solvesIn_iff (like : Likeness has R) (h : Settles st s a b more s') (hs : s.Sound st)
    (la : (s.tree st a).Over has) (lb : (s.tree st b).Over has) :
    (s'.AdmitsIn R st θ ∧ ∀ p ∈ more, R ((st.tree p.1).subst θ) ((st.tree p.2).subst θ)) ↔
      s.AdmitsIn R st θ ∧ R ((st.tree a).subst θ) ((st.tree b).subst θ) := by
  have cong := like.toCongruence
  have reads : s.AdmitsIn R st θ → (R ((st.tree a).subst θ) ((st.tree b).subst θ) ↔
    R ((s.tree st a).subst θ) ((s.tree st b).subst θ)) := fun h => h.pair_iff cong hs
  cases h with
  | same eq =>
    refine and_congr_right fun admits => ?_
    rw [reads admits, ← hs.tree_deref a, eq, hs.tree_deref]
    exact ⟨fun _ => cong.refl _, fun _ => nofun⟩
  | left var free =>
    rw [admitsIn_bind (hs.get?_of_deref var), and_assoc]
    refine and_congr_right fun admits => ?_
    have bound := admits.deref cong hs b
    rw [reads admits, hs.tree_of_var var]
    exact ⟨fun h => cong.trans h.1 bound, fun h => ⟨cong.trans h (cong.symm bound), nofun⟩⟩
  | right var free =>
    rw [admitsIn_bind (hs.get?_of_deref var), and_assoc]
    refine and_congr_right fun admits => ?_
    have bound := admits.deref cong hs a
    rw [reads admits, hs.tree_of_var var]
    exact ⟨fun h => cong.symm (cong.trans h.1 bound),
      fun h => ⟨cong.trans (cong.symm h) (cong.symm bound), nofun⟩⟩
  | leaves left right value =>
    refine and_congr_right fun admits => ?_
    rw [hs.tree_of_leaf left, Tree.over_leaf] at la
    rw [hs.tree_of_leaf right, Tree.over_leaf] at lb
    rw [reads admits, hs.tree_of_leaf left, hs.tree_of_leaf right]
    exact ⟨fun _ => (like.leaf_iff la lb).mpr (.inr value), fun _ => nofun⟩
  | operands left right length fits =>
    refine and_congr_right fun admits => ?_
    rw [hs.tree_of_app left, Tree.over_app, ← List.length_map (Tree.subst θ)] at la
    rw [hs.tree_of_app right, Tree.over_app, ← List.length_map (Tree.subst θ)] at lb
    rw [reads admits, hs.tree_of_app left, hs.tree_of_app right, Tree.subst_app, Tree.subst_app,
      like.app_iff la.1 lb.1, and_iff_right rfl, and_iff_right fits]
    rw [List.map_map, List.map_map, List.forall₂_map_left_iff, List.forall₂_map_right_iff,
      List.forall₂_iff_zip, and_iff_right length]
    exact ⟨fun h _ _ hp => (admits.pair_iff cong hs).mp (h _ hp),
      fun h _ hp => (admits.pair_iff cong hs).mpr (h hp)⟩

/-- Settling a pair brings in no labels but those of the pair. -/
theorem Settles.advance (h : Settles st s a b more s') (hs : s.Sound st) (ha : st.Stored a)
    (hb : st.Stored b) (la : (s.tree st a).Over has) (lb : (s.tree st b).Over has) :
    Advance has st s st s' ∧
      ∀ p ∈ more, (s'.tree st p.1).Over has ∧ (s'.tree st p.2).Over has := by
  cases h with
  | left var free =>
    refine ⟨.bind hs (hs.stored_deref hb) (hs.get?_of_deref var) ?_ ?_, nofun⟩ <;>
      rwa [hs.tree_deref]
  | right var free =>
    refine ⟨.bind hs (hs.stored_deref ha) (hs.get?_of_deref var) ?_ ?_, nofun⟩ <;>
      rwa [hs.tree_deref]
  | operands left right length fits =>
    rw [hs.tree_of_app left, Tree.over_app] at la
    rw [hs.tree_of_app right, Tree.over_app] at lb
    refine ⟨.refl hs, fun p hp => ?_⟩
    obtain ⟨hx, hy⟩ := List.of_mem_zip hp
    exact ⟨la.2 _ (List.mem_map_of_mem hx), lb.2 _ (List.mem_map_of_mem hy)⟩
  | _ => exact ⟨.refl hs, nofun⟩

/-- The terms of all pairs are made of some labels. -/
def Work.Over (has : Tree.Label → Prop) (st : Store) (w : Work) : Prop :=
  ∀ p ∈ w.1, (w.2.tree st p.1).Over has ∧ (w.2.tree st p.2).Over has

/-- A round keeps the labels. -/
theorem Round.advance (h : Round st w w') (ready : Work.Ready st w) (labels : Work.Over has st w) :
    Advance has st w.2 st w'.2 ∧ Work.Over has st w' := by
  obtain ⟨a, b, more, rest, pairs, pairs', ha, hb, settles⟩ := h.cases_ready ready
  have stored := ready.stored
  unfold Work.Over at *
  rw [pairs, List.forall_mem_cons] at labels stored
  obtain ⟨adv, left⟩ := settles.advance ready.sound ha hb labels.1.1 labels.1.2
  refine ⟨adv, ?_⟩
  rw [pairs', List.forall_mem_append]
  refine ⟨left, fun p hp => ?_⟩
  exact ⟨adv.labels _ (stored.2 p hp).1 (labels.2 p hp).1,
    adv.labels _ (stored.2 p hp).2 (labels.2 p hp).2⟩

theorem run_advance (h : ReflTransGen (Round st) w w') (ready : Work.Ready st w)
    (labels : Work.Over has st w) : Advance has st w.2 st w'.2 ∧ Work.Over has st w' := by
  induction h with
  | refl => exact ⟨.refl ready.sound, labels⟩
  | tail run round ih =>
    obtain ⟨adv, labels'⟩ := round.advance (run_keeps run ready).1 ih.2
    exact ⟨ih.1.trans adv, labels'⟩

/-- A round keeps the solutions. -/
theorem Round.solvesIn_iff (like : Likeness has R) (h : Round st w w') (ready : Work.Ready st w)
    (labels : Work.Over has st w) : Work.SolvesIn R st θ w' ↔ Work.SolvesIn R st θ w := by
  obtain ⟨a, b, more, rest, pairs, pairs', ha, hb, settles⟩ := h.cases_ready ready
  unfold Work.Over Work.SolvesIn at *
  rw [pairs, List.forall_mem_cons] at labels
  rw [pairs, pairs', List.forall_mem_append, List.forall_mem_cons, ← and_assoc, ← and_assoc,
    settles.solvesIn_iff like ready.sound labels.1.1 labels.1.2]

theorem run_solvesIn_iff (like : Likeness has R) (h : ReflTransGen (Round st) w w')
    (ready : Work.Ready st w) (labels : Work.Over has st w) :
    Work.SolvesIn R st θ w' ↔ Work.SolvesIn R st θ w := by
  induction h with
  | refl => rfl
  | tail run round ih =>
    rw [round.solvesIn_iff like (run_keeps run ready).1 (run_advance run ready labels).2, ih]

/-- Work that begins with a pair that can not be settled has no solution. -/
theorem not_solvesIn_of_stuck (like : Likeness has R) (ready : Work.Ready st ((a, b) :: rest, s))
    (labels : Work.Over has st ((a, b) :: rest, s)) (stuck : settle st a b s = none) :
    ¬ Work.SolvesIn R st θ ((a, b) :: rest, s) := by
  rintro ⟨admits, pairs⟩
  obtain ⟨ha, hb⟩ := ready.stored _ (.head _)
  obtain ⟨la, lb⟩ := labels _ (.head _)
  rcases ready.sound.settle_cases ha hb with ⟨more, s', eq, -⟩ | ⟨-, clash⟩
  · cases eq.symm.trans stuck
  · refine clash.not_like like la lb θ ?_
    exact (admits.pair_iff like.toCongruence ready.sound).mp (pairs _ (.head _))

/-- The bindings in which work ends admit just its solutions; where it gets stuck there are none. -/
theorem Ends.solvesIn_iff {o : Option Subst} (like : Likeness has R) (run : Ends st w [] o)
    (ready : Work.Ready st w) (labels : Work.Over has st w) (θ : UInt32 → Tree) :
    (∃ t ∈ o, t.AdmitsIn R st θ) ↔ Work.SolvesIn R st θ w := by
  cases o with
  | some t =>
    rw [← run_solvesIn_iff like run ready labels]
    exact ⟨fun ⟨_, rfl, admits⟩ => ⟨admits, nofun⟩, fun solved => ⟨t, rfl, solved.1⟩⟩
  | none =>
    refine ⟨fun ⟨_, h, _⟩ => (nomatch h), fun solves => ?_⟩
    obtain ⟨c, d, more, r, run, stuck⟩ := run
    refine absurd ?_ (not_solvesIn_of_stuck (θ := θ) like (run_keeps run ready).1
      (run_advance run ready labels).2 stuck)
    rwa [run_solvesIn_iff like run ready labels]

/-- Work comes to bindings just when it has a solution. -/
theorem Ends.exists_iff {o : Option Subst} (like : Likeness has R) (run : Ends st w [] o)
    (ready : Work.Ready st w) (labels : Work.Over has st w) :
    (∃ t, o = some t) ↔ ∃ θ, Work.SolvesIn R st θ w := by
  refine ⟨?_, fun ⟨θ, solves⟩ => ?_⟩
  · rintro ⟨t, rfl⟩
    have sound : t.Sound st := (run_keeps run ready).2.sound
    exact ⟨_, (run.solvesIn_iff like ready labels _).mp
      ⟨t, rfl, sound.admitsIn_own like.toCongruence⟩⟩
  · obtain ⟨t, eq, -⟩ := (run.solvesIn_iff like ready labels θ).mpr solves
    exact ⟨t, eq⟩

end Subst

end Regraft
