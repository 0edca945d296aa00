import Regraft.Proofs.Term.Alike
import Mathlib.Algebra.BigOperators.Group.List.Basic
import Mathlib.Algebra.Group.TypeTags.Basic
import Mathlib.Algebra.Ring.Defs

/-
  What terms mean. An interpretation gives every operator a function on lists of operands, whatever
  the attributes, and every constant a value by its shape and its canonical values; a valuation gives
  values to variables and inputs. Trees that are alike modulo some facts have the same value wherever
  these facts hold (`Alike.value_eq`).
-/

namespace Regraft

structure Interpretation (M : Type*) where
  op : String → List M → M
  const : Shape → List Float → M

structure Valuation (M : Type*) where
  var : UInt32 → M
  input : String → M
  /-- The value of an id that the store does not know. -/
  unknown : TermId → M

namespace Interpretation

variable {M : Type*}

/-- The facts hold: operands of an operator that commutes may be permuted, and one that also
    associates is the product of a commutative monoid, taken over all operands. -/
structure Respects (I : Interpretation M) (F : Facts) : Prop where
  permuted : ∀ op, F.isCommutative op = true → ∀ xs ys, xs.Perm ys → I.op op xs = I.op op ys
  folded : ∀ op, F.isCommutative op = true → F.isAssociative op = true →
    ∃ _ : CommMonoid M, ∀ xs, I.op op xs = xs.prod

variable (I : Interpretation M) (ρ : Valuation M)

def leafValue : Leaf → M
  | .const c => I.const c.shape (c.values.map canonical)
  | .input name => ρ.input name

/-- The value of a tree. -/
def value : Tree → M := Tree.fold ρ.var (I.leafValue ρ) (fun op _ xs => I.op op xs) ρ.unknown

variable {I ρ}

@[simp] theorem value_var (v : UInt32) : I.value ρ (.var v) = ρ.var v := rfl

@[simp] theorem value_leaf (l : Leaf) : I.value ρ (.leaf l) = I.leafValue ρ l := rfl

@[simp] theorem value_app (op : String) (args : List Tree) (attrs : Attrs) :
    I.value ρ (.app op args attrs) = I.op op (args.map (I.value ρ)) := Tree.fold_app ..

@[simp] theorem value_unknown (id : TermId) : I.value ρ (.unknown id) = ρ.unknown id := rfl

/-- Substituting in a tree changes the values of its variables. -/
theorem value_subst (σ : UInt32 → Tree) (t : Tree) :
    I.value ρ (t.subst σ) = I.value { ρ with var := fun v => I.value ρ (σ v) } t := by
  induction t with
  | var v => rfl
  | leaf l =>
    cases l with
    | const c => rfl
    | input name => rfl
  | app op args attrs ih =>
    rw [Tree.subst_app, value_app, value_app, List.map_map]
    congr 1
    exact List.map_congr_left ih
  | unknown id => rfl

/-- Only the variables that occur count. -/
theorem value_congr {var : UInt32 → M} {t : Tree} (h : ∀ v, t.HasVar v → ρ.var v = var v) :
    I.value ρ t = I.value { ρ with var } t := by
  induction t with
  | var v => exact h v .var
  | leaf l =>
    cases l with
    | const c => rfl
    | input name => rfl
  | app op args attrs ih =>
    rw [value_app, value_app]
    congr 1
    exact List.map_congr_left fun t ht => ih t ht fun v hv => h v (.app ht hv)
  | unknown id => rfl

variable {F : Facts} {op : String}

/-- Under a chain operator a tree has the value of its chain. -/
theorem Respects.value_items (hI : I.Respects F) (hc : F.isCommutative op = true)
    (ha : F.isAssociative op = true) (t : Tree) :
    I.op op ((Tree.items op t).map (I.value ρ)) = I.value ρ t := by
  obtain ⟨inst, prod⟩ := hI.folded op hc ha
  induction t with
  | app f args attrs ih =>
    by_cases hf : f = op
    · subst hf
      have flat : (args.flatMap fun t => (Tree.items f t).map (I.value ρ)).prod =
          (args.map (I.value ρ)).prod := by
        clear hc ha
        induction args with
        | nil => rfl
        | cons t rest ih' =>
          rw [List.forall_mem_cons] at ih
          rw [List.flatMap_cons, List.prod_append, List.map_cons, List.prod_cons, ih' ih.2, ← prod,
            ih.1]
      rw [Tree.items_app_self, List.map_flatMap, prod, flat, value_app, prod]
    · rw [Tree.items_of_not_isApp (t := .app f args attrs) hf, prod, List.map_singleton,
        List.prod_singleton]
  | var v => rw [prod, Tree.items, List.map_singleton, List.prod_singleton]
  | leaf l => rw [prod, Tree.items, List.map_singleton, List.prod_singleton]
  | unknown id => rw [prod, Tree.items, List.map_singleton, List.prod_singleton]

/-- The operands that matching pairs up have the value of the application. -/
theorem Respects.value_operands (hI : I.Respects F) (xs : List Tree) :
    I.op op ((Tree.operands F op xs).map (I.value ρ)) = I.op op (xs.map (I.value ρ)) := by
  unfold Tree.operands
  split
  · rename_i chain
    obtain ⟨hc, ha⟩ := Bool.and_eq_true_iff.mp chain
    have h := hI.value_items (ρ := ρ) hc ha (.app op xs .unspecified)
    rwa [Tree.items_app_self, value_app] at h
  · rfl

theorem leafValue_eq_of_same {l m : Leaf} (h : l.Same m) : I.leafValue ρ l = I.leafValue ρ m := by
  cases l <;> cases m
  · obtain ⟨shape, values⟩ := Constant.Same.canonical_eq h
    simp only [leafValue, shape, values]
  · exact h.elim
  · exact h.elim
  · have names : _ = _ := h
    rw [names]

/-- Trees that are alike modulo facts have the same value where the facts hold. -/
theorem Respects.value_eq (hI : I.Respects F) {t u : Tree} (h : Tree.Alike F t u) :
    I.value ρ t = I.value ρ u := by
  induction h using Tree.Alike.induct with
  | var v => rfl
  | leaf l m same => exact leafValue_eq_of_same same
  | app op xs ys a b h =>
    obtain ⟨zs, hz, hr⟩ := h
    have values : zs.map (I.value ρ) = (Tree.operands F op ys).map (I.value ρ) := by
      rw [← List.forall₂_eq_eq_eq, List.forall₂_map_left_iff, List.forall₂_map_right_iff]
      exact hr.imp fun t u h => h.2
    have arranged : I.op op ((Tree.operands F op xs).map (I.value ρ)) =
        I.op op (zs.map (I.value ρ)) := by
      rcases hz with rfl | ⟨hc, hz⟩
      · rfl
      · exact hI.permuted op hc _ _ (hz.map _)
    rw [value_app, value_app, ← hI.value_operands xs, arranged, values, hI.value_operands]
  | unknown id => rfl

/-- Sums and products of all operands respect that they commute and associate. -/
theorem respects_arithmetic {M : Type*} [CommSemiring M] {I : Interpretation M}
    (sum : ∀ xs, I.op "add" xs = xs.sum) (prod : ∀ xs, I.op "mul" xs = xs.prod) :
    I.Respects ⟨["mul", "add"], ["mul", "add"]⟩ := by
  have known : ∀ op, (⟨["mul", "add"], ["mul", "add"]⟩ : Facts).isCommutative op = true →
      op = "mul" ∨ op = "add" := by
    intro op commutes
    simpa [Facts.isCommutative] using commutes
  refine ⟨fun op commutes xs ys perm => ?_, fun op commutes _ => ?_⟩
  · rcases known op commutes with rfl | rfl
    · rw [prod, prod, perm.prod_eq]
    · rw [sum, sum, perm.sum_eq]
  · rcases known op commutes with rfl | rfl
    · exact ⟨inferInstance, prod⟩
    · exact ⟨inferInstanceAs (CommMonoid (Multiplicative M)), sum⟩

end Interpretation

end Regraft
