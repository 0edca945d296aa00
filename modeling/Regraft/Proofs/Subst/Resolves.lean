import Regraft.Proofs.Subst.Bind
import Regraft.Proofs.Subst.Reify

/-
  Reading terms under a sound substitution ends by itself. Searches down a term go on from a term to
  where it leads, and no path of such steps is endless (`Sound.paths`); hence no larger
  bound on hops or on depth would change what is read (`Sound.resolves`).
-/

namespace Regraft

namespace Subst

variable {s : Subst} {st st' : Store} {t u : TermId} {v : UInt32} {n m : Nat}

/-- What is read under a substitution does not depend on the bounds within which it is read. -/
structure Resolves (s : Subst) (st : Store) : Prop where
  /-- Following bindings stops where there is nothing to follow. -/
  deref : ∀ t, s.hop st (s.deref st t) = none
  hops : ∀ t n, s.size + 1 ≤ n → s.derefWithin st n t = s.deref st t
  /-- There is no endless path down a term and through bindings. -/
  paths : WellFounded fun u t => s.Leads st t u
  occurs : ∀ v t n, depthBound st ≤ n → s.occursWithin st v n t = s.occurs st v t
  firstUnbound : ∀ t n, depthBound st ≤ n → s.firstUnboundWithin st n t = s.firstUnbound st t
  reify : ∀ t n, st.Stored t → depthBound st ≤ n → s.reifyWithin n t st = s.reify t st

/-- Hops that lead nowhere do not count. -/
theorem Sound.derefWithin_of_le (hs : s.Sound st) (h : s.size ≤ n) (t : TermId) :
    s.derefWithin st n t = s.derefWithin st s.size t := by
  have enough : ∀ m, s.size ≤ m → reach (s.Leads st) (s.boundPlaces st) t ≤ m := fun m hm =>
    (reach_le.trans card_boundPlaces_le).trans hm
  induction n, h using Nat.le_induction with
  | base => rfl
  | succ n h ih => rw [hs.derefWithin_stable (enough n h), ih]

theorem mapOperands_congr {read read' : TermId → Store → TermId × Store} {ts : List TermId}
    (h : ∀ t ∈ ts, ∀ st', st.Grows st' → read t st' = read' t st')
    (grows : ∀ t ∈ ts, ∀ st', st.Grows st' → st'.Grows (read t st').2) :
    mapOperands read ts st = mapOperands read' ts st := by
  induction ts generalizing st with
  | nil => rfl
  | cons t rest ih =>
    have first := grows t (.head _) st (.refl st)
    have later : mapOperands read rest (read t st).2 = mapOperands read' rest (read t st).2 :=
      ih (fun u hu st' g => h u (.tail _ hu) st' (first.trans g))
        fun u hu st' g => grows u (.tail _ hu) st' (first.trans g)
    rw [mapOperands, mapOperands, ← h t (.head _) st (.refl st)]
    simp only [later]

theorem Sound.reifyWithin_eq (hs : s.Sound st) (ht : st.Stored t) (hn : (s.tree st t).depth < n)
    (hm : (s.tree st t).depth < m) : s.reifyWithin n t st = s.reifyWithin m t st := by
  induction n generalizing st t m with
  | zero => omega
  | succ n ih =>
    cases m with
    | zero => omega
    | succ m =>
      rw [reifyWithin, reifyWithin]
      split
      · rfl
      · rename_i op args attrs h
        rw [Store.app?_eq_some_iff] at h
        have below : ∀ u ∈ args, ∀ st', st.Grows st' → s.Sound st' ∧ st'.Stored u ∧
            (s.tree st' u).depth < n ∧ (s.tree st' u).depth < m := by
          intro u mem st' g
          obtain ⟨hs', stored, same, lt⟩ := hs.operand_grows h mem g
          rw [same]
          exact ⟨hs', stored, by omega, by omega⟩
        have operands : mapOperands (s.reifyWithin n) args st =
            mapOperands (s.reifyWithin m) args st := by
          refine mapOperands_congr (fun u mem st' g => ?_) fun u mem st' g => ?_
          · obtain ⟨hs', stored, hn', hm'⟩ := below u mem st' g
            exact ih hs' stored hn' hm'
          · obtain ⟨hs', stored, hn', -⟩ := below u mem st' g
            exact (hs'.reifyWithin_reads stored hn').grows
        rw [operands]

theorem Sound.paths (hs : s.Sound st) : WellFounded fun u t => s.Leads st t u :=
  ⟨fun t => hs.leads_induct (P := fun t => Acc (fun u t => s.Leads st t u) t)
    (fun t ih => .intro t ih) t⟩

/-- Reading under a sound substitution ends by itself. -/
theorem Sound.resolves (hs : s.Sound st) : s.Resolves st where
  deref := hs.hop_deref
  hops t n h := by
    unfold Subst.deref
    rw [hs.derefWithin_of_le (Nat.le_of_succ_le h), hs.derefWithin_of_le (Nat.le_succ _)]
  paths := hs.paths
  occurs v t n h := by
    rw [Bool.eq_iff_iff, hs.occurs_iff]
    exact hs.occursWithin_iff (Nat.lt_of_lt_of_le height_lt_depthBound h)
  firstUnbound t n h := by
    rw [hs.firstUnbound_eq_head?]
    exact hs.firstUnboundWithin_eq_head? (Nat.lt_of_lt_of_le (hs.depth_tree_lt t) h)
  reify t n ht h :=
    hs.reifyWithin_eq ht (Nat.lt_of_lt_of_le (hs.depth_tree_lt t) h) (hs.depth_tree_lt t)

end Subst

end Regraft
