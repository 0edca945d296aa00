import Regraft.Proofs.Term.Alike

/-
  Trees that are the same up to the values of constants: one operator, one set of attributes and the
  same operands in their order. This is the equality that unification establishes. It is an
  equivalence and a congruence for substitution, and trees that are the same are equally large, while what
  is put in for a variable is smaller than a term around it (`size_le_subst`).
-/

namespace Regraft

namespace Tree

/-- Equal trees, where leaves may differ in the values of constants that match. -/
inductive Same : Tree → Tree → Prop
  | var (v : UInt32) : Same (.var v) (.var v)
  | leaf {l m : Leaf} (same : l.Same m) : Same (.leaf l) (.leaf m)
  | app {op : String} {xs ys : List Tree} {attrs : Attrs} (length : xs.length = ys.length)
      (each : ∀ p ∈ xs.zip ys, Same p.1 p.2) : Same (.app op xs attrs) (.app op ys attrs)
  | unknown (id : TermId) : Same (.unknown id) (.unknown id)

namespace Same

variable {op : String} {xs ys : List Tree} {a b : Attrs} {t u w : Tree} {v : UInt32}

theorem of_forall₂ (h : List.Forall₂ Same xs ys) : Same (.app op xs a) (.app op ys a) :=
  .app h.length_eq fun _ hp => List.forall₂_zip h hp

/-- Applications that are the same have operands that are. -/
theorem app_iff {g : String} : Same (.app op xs a) (.app g ys b) ↔
    op = g ∧ a = b ∧ List.Forall₂ Same xs ys := by
  constructor
  · rintro (_ | _ | ⟨length, each⟩)
    exact ⟨rfl, rfl, List.forall₂_iff_zip.mpr ⟨length, fun hp => each _ hp⟩⟩
  · rintro ⟨rfl, rfl, h⟩
    exact of_forall₂ h

theorem leaf_iff {l m : Leaf} : Same (.leaf l) (.leaf m) ↔ l.Same m :=
  ⟨fun | .leaf h => h, .leaf⟩

theorem refl (t : Tree) : Same t t := by
  induction t with
  | var v => exact .var v
  | leaf l => exact .leaf (.refl l)
  | app op args attrs ih => exact of_forall₂ (List.forall₂_same.mpr ih)
  | unknown id => exact .unknown id

theorem symm (h : Same t u) : Same u t := by
  induction h with
  | var v => exact .var v
  | leaf same => exact .leaf same.symm
  | app length each ih =>
    refine of_forall₂ (List.Forall₂.flip ?_)
    exact List.forall₂_iff_zip.mpr ⟨length, fun hp => ih _ hp⟩
  | unknown id => exact .unknown id

theorem trans (h : Same t u) (h' : Same u w) : Same t w := by
  induction h generalizing w with
  | var v => exact h'
  | leaf same => cases h' with
    | leaf same' => exact .leaf (same.trans same')
  | app length each ih => cases h' with
    | app length' each' =>
      refine of_forall₂ (forall₂_trans (fun t u w first second => first second)
        (List.forall₂_iff_zip.mpr ⟨length, fun hp => @ih _ hp⟩)
        (List.forall₂_iff_zip.mpr ⟨length', fun hp => each' _ hp⟩))
  | unknown id => exact h'

/-- Substitution keeps trees the same. -/
theorem subst (h : Same t u) (σ : UInt32 → Tree) : Same (t.subst σ) (u.subst σ) := by
  induction h with
  | var v => exact refl _
  | leaf same => exact .leaf same
  | app length each ih =>
    rw [subst_app, subst_app]
    refine of_forall₂ ?_
    rw [List.forall₂_map_left_iff, List.forall₂_map_right_iff]
    exact List.forall₂_iff_zip.mpr ⟨length, fun hp => ih _ hp⟩
  | unknown id => exact .unknown id

theorem size_eq (h : Same t u) : t.size = u.size := by
  induction h with
  | app length each ih =>
    have sizes : List.Forall₂ (fun t u : Tree => t.size = u.size) _ _ :=
      List.forall₂_iff_zip.mpr ⟨length, fun hp => ih _ hp⟩
    rw [size_app, size_app]
    congr 2
    rwa [← List.forall₂_eq_eq_eq, List.forall₂_map_left_iff, List.forall₂_map_right_iff]
  | _ => rfl

end Same

/-- What is put in for a variable is no larger than the result, and smaller than the result for an
    application around the variable. -/
theorem size_le_subst {v : UInt32} {t : Tree} (h : HasVar v t) (σ : UInt32 → Tree) :
    (σ v).size ≤ (t.subst σ).size ∧ (t ≠ .var v → (σ v).size < (t.subst σ).size) := by
  induction h with
  | var => exact ⟨Nat.le_refl _, fun ne => absurd rfl ne⟩
  | @app op args attrs t mem _ ih =>
    have lt : (t.subst σ).size < ((app op args attrs).subst σ).size := by
      rw [subst_app]
      exact size_lt (List.mem_map_of_mem mem)
    exact ⟨Nat.le_of_lt (Nat.lt_of_le_of_lt ih.1 lt), fun _ => Nat.lt_of_le_of_lt ih.1 lt⟩

/-! ## Labels that can be told apart -/

/-- Constants fill their shapes, and attributes of one operator that fit are equal. With other labels
    terms may unify that no assignment makes equal. -/
structure Rigid (has : Label → Prop) : Prop where
  fills : ∀ c, has (.leaf (.const c)) → c.Fills
  fits : ∀ op n a b, has (.node op n a) → has (.node op n b) → a.compatible b = true → a = b

/-- Labels without attributes, where constants fill their shapes. -/
def bareLabel : Label → Prop
  | .leaf (.const c) => c.Fills
  | .leaf (.input _) => True
  | .node _ _ attrs => attrs = .unspecified

/-- No application says anything of its value, and constants fill their shapes. -/
def Bare (t : Tree) : Prop := t.Over bareLabel

theorem rigid_bare : Rigid bareLabel where
  fills _ h := h
  fits _ _ _ _ ha hb _ := Eq.trans ha (Eq.symm hb)

/-- Leaves match by value when they are the same, unless they are identical. -/
theorem Rigid.leaf_same {has : Label → Prop} (rigid : Rigid has) {l m : Leaf}
    (hl : has (.leaf l)) (hm : has (.leaf m)) (h : l.valueEq m = true) : l.Same m :=
  Leaf.same_of_valueEq (fun c eq => rigid.fills c (eq ▸ hl)) (fun c eq => rigid.fills c (eq ▸ hm)) h

end Tree

end Regraft
