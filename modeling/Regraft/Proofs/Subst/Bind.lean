import Regraft.Proofs.Subst.Tree

/-
  Binding a variable. The occurs check finds exactly the variables of a tree (`Sound.occurs_iff`), and
  a binding that passes it keeps a substitution sound, since a cycle through the new binding would lead
  from the bound term back to the variable.
-/

namespace Regraft

open Relation

namespace Subst

variable {s s' : Subst} {st : Store} {t u : TermId} {v : UInt32}

/-! ## Occurrence -/

theorem Sound.occursWithin_iff (hs : s.Sound st) {n : Nat} (hn : s.height st t < n) :
    s.occursWithin st v n t = true ↔ (s.tree st t).HasVar v := by
  induction n generalizing t with
  | zero => omega
  | succ n ih =>
    rw [occursWithin]
    cases h : st.term? (s.deref st t) with
    | none =>
      rw [hs.tree_eq, h]
      simp
    | some x => cases x with
      | var w =>
        rw [hs.tree_of_var h, decide_eq_true_eq, Tree.hasVar_var]
        exact eq_comm
      | leaf l =>
        rw [hs.tree_of_leaf h]
        simp
      | app op args attrs =>
        have each : ∀ u ∈ args, s.occursWithin st v n u = true ↔ (s.tree st u).HasVar v :=
          fun u hu => ih (by have := hs.height_lt h hu; omega)
        simp only [hs.tree_of_app h, List.any_reverse, List.any_eq_true, Tree.hasVar_app]
        constructor
        · rintro ⟨u, hu, hv⟩
          exact ⟨_, List.mem_map_of_mem hu, (each u hu).mp hv⟩
        · rintro ⟨_, hm, hv⟩
          obtain ⟨u, hu, rfl⟩ := List.mem_map.mp hm
          exact ⟨u, hu, (each u hu).mpr hv⟩

/-- The occurs check finds the variables of the tree. -/
theorem Sound.occurs_iff (hs : s.Sound st) :
    s.occurs st v t = true ↔ (s.tree st t).HasVar v := hs.occursWithin_iff height_lt_depthBound

/-! ## Binding -/

theorem extends_bind (h : s.get? v = none) : s.Extends (s.bind v t) := by
  intro w u hw
  rw [get?_bind]
  split
  · rename_i hv
    subst hv
    rw [h] at hw
    cases hw
  · exact hw

theorem leads_bind (h : (s.bind v t).Leads st u w) :
    s.Leads st u w ∨ st.term? u = some (.var v) ∧ w = t := by
  cases h with
  | binding var bound =>
    rw [get?_bind] at bound
    split at bound
    · rename_i hv
      cases bound
      exact .inr ⟨hv ▸ var, rfl⟩
    · exact .inl (.binding var bound)
  | operand app mem => exact .inl (.operand app mem)

/-- A path under the new binding follows it or is an old path. -/
theorem leads_of_bind {w x : TermId} (h : ReflTransGen ((s.bind v t).Leads st) w x) :
    ReflTransGen (s.Leads st) w x ∨
      ∃ y, st.term? y = some (.var v) ∧ ReflTransGen (s.Leads st) w y := by
  induction h with
  | refl => exact .inl .refl
  | tail _ h ih =>
    rcases ih with ih | ih
    · rcases leads_bind h with h | ⟨hy, _⟩
      · exact .inl (ih.tail h)
      · exact .inr ⟨_, hy, ih⟩
    · exact .inr ih

/-- A variable may be bound to a stored term in which it does not occur. -/
theorem Sound.bind (hs : s.Sound st) (ht : st.Stored t) (hv : s.get? v = none)
    (free : ¬ (s.tree st t).HasVar v) : (s.bind v t).Sound st where
  valid := hs.valid
  stored w u h := by
    rw [get?_bind] at h
    split at h
    · cases h
      exact ht
    · exact hs.stored w u h
  acyclic w cycle := by
    have no_return : ∀ y, st.term? y = some (.var v) →
        ¬ ReflTransGen ((s.bind v t).Leads st) t y := by
      intro y hy h
      rcases leads_of_bind h with h | ⟨z, hz, h⟩
      · exact free (hs.hasVar_of_leads h hy hv)
      · exact free (hs.hasVar_of_leads h hz hv)
    -- A cycle is an old one or passes a place of the variable, and from there comes back.
    have split : ∀ {x}, TransGen ((s.bind v t).Leads st) w x → TransGen (s.Leads st) w x ∨
        ∃ y, st.term? y = some (.var v) ∧ ReflTransGen ((s.bind v t).Leads st) w y ∧
          ReflTransGen ((s.bind v t).Leads st) t x := by
      intro x h
      induction h with
      | single h =>
        rcases leads_bind h with h | ⟨hy, rfl⟩
        · exact .inl (.single h)
        · exact .inr ⟨_, hy, .refl, .refl⟩
      | tail hp h ih =>
        rcases ih with ih | ⟨y, hy, hw, ht⟩
        · rcases leads_bind h with h | ⟨hy, rfl⟩
          · exact .inl (ih.tail h)
          · exact .inr ⟨_, hy, hp.to_reflTransGen, .refl⟩
        · exact .inr ⟨y, hy, hw, ht.tail h⟩
    rcases split cycle with h | ⟨y, hy, hw, ht⟩
    · exact hs.acyclic w h
    · exact no_return y hy (ht.trans hw)

/-- The images of the old variables, where the bound one stands for the tree of its binding. -/
theorem Sound.image_bind (hs : s.Sound st) (ht : st.Stored t) (hv : s.get? v = none)
    (free : ¬ (s.tree st t).HasVar v) {w : UInt32} (hw : s.get? w = none) :
    (s.bind v t).image st w = if w = v then s.tree st t else .var w := by
  have hb := hs.bind ht hv free
  split
  · rename_i h
    rw [h, image_of_bound (by rw [get?_bind, if_pos rfl]), (extends_bind hv).tree_eq hs hb]
    conv => rhs; rw [← Tree.subst_id (s.tree st t)]
    refine Tree.subst_congr fun x hx => image_of_unbound ?_
    have ne : v ≠ x := by
      rintro rfl
      exact free hx
    rw [get?_bind, if_neg ne]
    exact hs.get?_of_hasVar hx
  · rename_i h
    exact image_of_unbound (by rw [get?_bind, if_neg (Ne.symm h), hw])

/-! ## Constraints and sites -/

/-- Only the bindings count for what a substitution leads to. -/
theorem leads_congr (h : s.bindings = s'.bindings) : s.Leads st t u → s'.Leads st t u := by
  have get : s.get? = s'.get? := by
    funext v
    rw [get?, get?, h]
  rintro (⟨var, bound⟩ | ⟨app, mem⟩)
  · exact .binding var (get ▸ bound)
  · exact .operand app mem

theorem Sound.congr (hs : s.Sound st) (h : s.bindings = s'.bindings) : s'.Sound st where
  valid := hs.valid
  stored v t hv := hs.stored v t (by rw [get?, h]; exact hv)
  acyclic t cycle := hs.acyclic t (TransGen.mono (fun _ _ => leads_congr h.symm) t t cycle)

theorem extends_congr (h : s.bindings = s'.bindings) : s.Extends s' := by
  intro v t hv
  rw [get?, ← h]
  exact hv

/-- Only the bindings count for trees. -/
theorem Sound.tree_congr (hs : s.Sound st) (h : s.bindings = s'.bindings) (t : TermId) :
    s'.tree st t = s.tree st t := by
  rw [(extends_congr h).tree_eq hs (hs.congr h)]
  conv => rhs; rw [← Tree.subst_id (s.tree st t)]
  refine Tree.subst_congr fun v hv => image_of_unbound ?_
  rw [get?, ← h]
  exact hs.get?_of_hasVar hv

end Subst

end Regraft
