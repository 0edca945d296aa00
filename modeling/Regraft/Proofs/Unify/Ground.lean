import Mathlib.Data.List.Zip
import Regraft.Proofs.Subst.Advance
import Regraft.Unify.Disequality

/-
  Unification with a ground term. A variable is bound to it (`Sound.unify_var_left`,
  `Sound.unify_var_right`), and two ground terms unify without bindings, just when their trees agree up to
  the values of constants and attributes that are left out (`Sound.unify_ground`).
-/

namespace Regraft

/-- Attributes fit themselves. -/
theorem Attrs.compatible_self (a : Attrs) : a.compatible a = true := by
  have fits_self : ∀ {α : Type} [DecidableEq α] (x : Option α), fits x x = true := by
    intro α _ x
    cases x <;> simp [fits]
  simp [compatible, fits_self]

theorem Attrs.compatible_symm {a b : Attrs} (h : a.compatible b = true) : b.compatible a = true := by
  have fits_symm : ∀ {α : Type} [DecidableEq α] (x y : Option α), fits x y = fits y x := by
    intro α _ x y
    cases x <;> cases y <;> simp [fits, eq_comm]
  rw [compatible] at h ⊢
  rwa [fits_symm b.elem, fits_symm b.shape, fits_symm b.output]

theorem Constant.valueEq_symm {c d : Constant} (h : c.valueEq d = true) : d.valueEq c = true := by
  simp only [valueEq, Bool.and_eq_true, decide_eq_true_eq, List.all_eq_true] at h ⊢
  refine ⟨h.1.symm, fun p hp => ?_⟩
  rw [← List.zip_swap, List.mem_map] at hp
  obtain ⟨q, hq, rfl⟩ := hp
  exact beq_symm (h.2 q hq)

theorem Leaf.valueEq_symm {l m : Leaf} (h : l.valueEq m = true) : m.valueEq l = true := by
  cases l <;> cases m
  case const.const c d => exact Constant.valueEq_symm (c := c) h
  case input.input => simpa [valueEq, eq_comm] using h
  all_goals cases h

namespace Tree

/-- Trees that unify as they are: leaves of one value, and operands in their order, where attributes
    fit. -/
inductive Agree : Tree → Tree → Prop
  | refl (t : Tree) : Agree t t
  | leaf {l m : Leaf} (value : l.valueEq m = true) : Agree (.leaf l) (.leaf m)
  | app {op : String} {xs ys : List Tree} {a b : Attrs} (length : xs.length = ys.length)
      (fits : a.compatible b = true) (each : ∀ p ∈ xs.zip ys, Agree p.1 p.2) :
      Agree (.app op xs a) (.app op ys b)

theorem agree_app_iff {f g : String} {xs ys : List Tree} {a b : Attrs} :
    Agree (app f xs a) (app g ys b) ↔ f = g ∧ xs.length = ys.length ∧ a.compatible b = true ∧
      ∀ p ∈ xs.zip ys, Agree p.1 p.2 := by
  constructor
  · rintro (_ | _ | ⟨length, fits, each⟩)
    · refine ⟨rfl, rfl, a.compatible_self, fun p hp => ?_⟩
      have same : p.1 = p.2 := by
        rw [← List.map_id xs, List.zip_map', List.mem_map] at hp
        obtain ⟨t, -, rfl⟩ := hp
        rfl
      rw [same]
      exact .refl _
    · exact ⟨rfl, length, fits, each⟩
  · rintro ⟨rfl, length, fits, each⟩
    exact .app length fits each

end Tree

namespace Subst

variable {st : Store} {s s' : Subst} {a b : TermId} {v : UInt32}

/-- Without disequalities there is nothing to look at again. -/
theorem revalidate_of_free (free : s.constraints = []) : s.revalidate st = some s := by
  unfold revalidate
  rw [free]
  show some { s with constraints := [] } = some s
  rw [← free]

/-- Without disequalities unification is done when the bindings are found. -/
theorem unify_of_free {t : Subst} (kept : t.constraints = [])
    (h : s.unifyBindings st a b = some t) : s.unify st a b = some t := by
  unfold unify
  rw [h]
  simp only [revalidate_of_free kept, ite_self]

theorem unifyBindings_eq (s : Subst) (st : Store) (a b : TermId) :
    ∃ n, depthBound st ≤ n + 1 ∧ s.unifyBindings st a b = unifyWithin st (n + 1) a b s := by
  have le : depthBound st ≤ pairBound st := by
    unfold depthBound pairBound
    exact Nat.le_mul_of_pos_left _ (Nat.mul_pos (Nat.succ_pos _) (Nat.succ_pos _))
  obtain ⟨n, hn⟩ := Nat.exists_eq_add_one.mpr (Nat.lt_of_lt_of_le (Nat.succ_pos st.size) le)
  exact ⟨n, hn ▸ le, by rw [unifyBindings, hn]⟩

theorem Sound.bindTo_ground (hs : s.Sound st) (ground : (s.tree st a).Ground) (v : UInt32) :
    s.bindTo st v (s.deref st a) = some (s.bind v (s.deref st a)) := by
  have free : s.occurs st v (s.deref st a) = false := by
    rw [← Bool.not_eq_true, hs.occurs_iff, hs.tree_deref]
    exact ground v
  rw [bindTo, free]
  rfl

/-- A ground term is no variable. -/
theorem Sound.ne_var_of_ground (hs : s.Sound st) (ground : (s.tree st a).Ground) (w : UInt32) :
    st.term? (s.deref st a) ≠ some (.var w) := by
  intro h
  rw [hs.tree_of_var h] at ground
  exact ground w .var

theorem Sound.unify_var_left (hs : s.Sound st) (free : s.constraints = []) (hb : st.Stored b)
    (ha : st.term? (s.deref st a) = some (.var v)) (ground : (s.tree st b).Ground) :
    s.unify st a b = some (s.bind v (s.deref st b)) := by
  refine unify_of_free free ?_
  obtain ⟨n, -, eq⟩ := unifyBindings_eq s st a b
  obtain ⟨y, hy⟩ := Store.term?_of_stored (hs.stored_deref hb)
  have other := hs.ne_var_of_ground ground
  have ne : s.deref st a ≠ s.deref st b := fun same => other v (same ▸ ha)
  rw [eq, unifyWithin]
  simp only [ne, if_false, ha, hy]
  cases y with
  | var w => exact absurd hy (other w)
  | _ => exact hs.bindTo_ground ground v

theorem Sound.unify_var_right (hs : s.Sound st) (free : s.constraints = []) (ha : st.Stored a)
    (hb : st.term? (s.deref st b) = some (.var v)) (ground : (s.tree st a).Ground) :
    s.unify st a b = some (s.bind v (s.deref st a)) := by
  refine unify_of_free free ?_
  obtain ⟨n, -, eq⟩ := unifyBindings_eq s st a b
  obtain ⟨x, hx⟩ := Store.term?_of_stored (hs.stored_deref ha)
  have other := hs.ne_var_of_ground ground
  have ne : s.deref st a ≠ s.deref st b := fun same => other v (same ▸ hb)
  rw [eq, unifyWithin]
  simp only [ne, if_false, hx, hb]
  cases x with
  | var w => exact absurd hx (other w)
  | _ => exact hs.bindTo_ground ground v

/-- Pairs that unify without bindings. -/
theorem unifyPairs_ground {unify : TermId → TermId → Subst → Option Subst}
    {pairs : List (TermId × TermId)} {R : TermId × TermId → Prop}
    (each : ∀ p ∈ pairs, ∀ t, unify p.1 p.2 s = some t ↔ R p ∧ t = s) (t : Subst) :
    unifyPairs unify pairs s = some t ↔ (∀ p ∈ pairs, R p) ∧ t = s := by
  induction pairs with
  | nil =>
    rw [unifyPairs, Option.some.injEq]
    exact ⟨fun h => ⟨nofun, h.symm⟩, fun h => h.2.symm⟩
  | cons p rest ih =>
    rw [List.forall_mem_cons] at each
    show (unify p.1 p.2 s).bind (unifyPairs unify rest) = some t ↔ _
    rw [Option.bind_eq_some_iff, List.forall_mem_cons]
    constructor
    · rintro ⟨r, hr, later⟩
      obtain ⟨first, rfl⟩ := (each.1 r).mp hr
      obtain ⟨others, eq⟩ := (ih each.2).mp later
      exact ⟨⟨first, others⟩, eq⟩
    · rintro ⟨⟨first, others⟩, eq⟩
      exact ⟨s, (each.1 s).mpr ⟨first, rfl⟩, (ih each.2).mpr ⟨others, eq⟩⟩

theorem Sound.unifyWithin_ground (hs : s.Sound st) {n : Nat} (ha : st.Stored a) (hb : st.Stored b)
    (ground : (s.tree st a).Ground) (ground' : (s.tree st b).Ground)
    (hn : (s.tree st a).depth < n) : ∀ t,
    unifyWithin st n a b s = some t ↔ Tree.Agree (s.tree st a) (s.tree st b) ∧ t = s := by
  induction n generalizing a b with
  | zero => omega
  | succ n ih =>
    intro t
    obtain ⟨x, hx⟩ := Store.term?_of_stored (hs.stored_deref ha)
    obtain ⟨y, hy⟩ := Store.term?_of_stored (hs.stored_deref hb)
    rw [unifyWithin]
    by_cases same : s.deref st a = s.deref st b
    · have eq : s.tree st a = s.tree st b := by rw [← hs.tree_deref a, same, hs.tree_deref]
      simp only [same, if_true, Option.some.injEq]
      exact ⟨fun h => ⟨eq ▸ .refl _, h.symm⟩, fun h => h.2.symm⟩
    simp only [same, if_false, hx, hy]
    cases x with
    | var v => exact absurd hx (hs.ne_var_of_ground ground v)
    | leaf l =>
      rw [hs.tree_of_leaf hx]
      cases y with
      | var v => exact absurd hy (hs.ne_var_of_ground ground' v)
      | leaf m =>
        rw [hs.tree_of_leaf hy]
        have agree : Tree.Agree (.leaf l) (.leaf m) ↔ l.valueEq m = true := by
          refine ⟨?_, .leaf⟩
          rintro (_ | value | _)
          · exact absurd (Store.term?_inj hx hy) same
          · exact value
        rw [agree]
        by_cases value : l.valueEq m = true
        · simp only [value, if_true, Option.some.injEq, true_and]
          exact eq_comm
        · simp [value]
      | app g ys attrs' =>
        rw [hs.tree_of_app hy]
        exact ⟨nofun, fun h => nomatch h.1⟩
    | app f xs attrs =>
      have left := hs.tree_of_app hx
      cases y with
      | var v => exact absurd hy (hs.ne_var_of_ground ground' v)
      | leaf m =>
        rw [left, hs.tree_of_leaf hy]
        exact ⟨nofun, fun h => nomatch h.1⟩
      | app g ys attrs' =>
        have right := hs.tree_of_app hy
        have each : ∀ p ∈ xs.zip ys, ∀ t, unifyWithin st n p.1 p.2 s = some t ↔
            Tree.Agree (s.tree st p.1) (s.tree st p.2) ∧ t = s := by
          intro p hp
          obtain ⟨mem, mem'⟩ := List.of_mem_zip hp
          have lt : (s.tree st p.1).depth < (s.tree st a).depth := by
            rw [left]
            exact Tree.depth_lt (List.mem_map_of_mem mem)
          rw [left] at ground
          rw [right] at ground'
          exact ih (hs.valid.stored hx mem) (hs.valid.stored hy mem')
            (ground.of_mem (List.mem_map_of_mem mem)) (ground'.of_mem (List.mem_map_of_mem mem'))
            (by omega)
        rw [left, right, Tree.agree_app_iff, List.length_map, List.length_map, List.zip_map]
        simp only [List.forall_mem_map, Prod.map_fst, Prod.map_snd]
        by_cases fits : f = g ∧ xs.length = ys.length ∧ attrs.compatible attrs' = true
        · simp only [fits, and_self, if_true, true_and, unifyPairs_ground each]
        · simp only [fits, if_false]
          refine ⟨nofun, fun h => absurd ⟨h.1.1, h.1.2.1, h.1.2.2.1⟩ fits⟩

/-- Ground terms get no bindings when their trees agree, and else there are none to be found. -/
theorem Sound.unifyBindings_ground (hs : s.Sound st) (ha : st.Stored a) (hb : st.Stored b)
    (ground : (s.tree st a).Ground) (ground' : (s.tree st b).Ground) (t : Subst) :
    s.unifyBindings st a b = some t ↔ Tree.Agree (s.tree st a) (s.tree st b) ∧ t = s := by
  obtain ⟨n, le, eq⟩ := unifyBindings_eq s st a b
  rw [eq]
  exact hs.unifyWithin_ground ha hb ground ground' (Nat.lt_of_lt_of_le (hs.depth_tree_lt a) le) t

/-- Ground terms unify when their trees agree, and nothing is bound. -/
theorem Sound.unify_ground (hs : s.Sound st) (free : s.constraints = []) (ha : st.Stored a)
    (hb : st.Stored b) (ground : (s.tree st a).Ground) (ground' : (s.tree st b).Ground) (t : Subst) :
    s.unify st a b = some t ↔ Tree.Agree (s.tree st a) (s.tree st b) ∧ t = s := by
  have found := hs.unifyBindings_ground ha hb ground ground'
  constructor
  · intro h
    unfold unify at h
    cases eq : s.unifyBindings st a b with
    | none =>
      rw [eq] at h
      cases h
    | some r =>
      obtain ⟨agree, rfl⟩ := (found r).mp eq
      exact ⟨agree, (Option.some.inj ((unify_of_free free eq).symm.trans h)).symm⟩
  · rintro ⟨agree, rfl⟩
    exact unify_of_free free ((found t).mpr ⟨agree, rfl⟩)

end Subst

end Regraft
