import Regraft.Proofs.Term.Pairs
import Regraft.Proofs.Term.Tree

/-
  Trees that are alike modulo the facts of a session: one operator, and operands that pair up, in any
  order if the operator commutes, where chains of an operator that also associates count as one long
  application. Attributes do not count, and constants are compared by value. Being alike is an
  equivalence, a congruence, and closed under substitution; this is what matching establishes.
-/

namespace Regraft

/-- Inputs of one name, or constants that are the same by value. -/
def Leaf.Same : Leaf → Leaf → Prop
  | .const c, .const d => c.Same d
  | .input a, .input b => a = b
  | _, _ => False

namespace Leaf.Same

theorem refl (l : Leaf) : l.Same l := by
  cases l with
  | const c => exact Constant.Same.refl c
  | input name => rfl

theorem symm {l m : Leaf} (h : l.Same m) : m.Same l := by
  cases l <;> cases m
  · exact Constant.Same.symm h
  · exact h
  · exact h
  · exact Eq.symm h

theorem trans {l m n : Leaf} (h : l.Same m) (h' : m.Same n) : l.Same n := by
  cases l <;> cases m <;> cases n <;> first | exact h.elim | exact h'.elim | skip
  · exact Constant.Same.trans h h'
  · exact Eq.trans h h'

/-- The same leaves are identical or match by value. -/
theorem eq_or_valueEq {l m : Leaf} (h : l.Same m) : l = m ∨ l.valueEq m = true := by
  cases l <;> cases m
  · rcases Constant.Same.eq_or_valueEq h with rfl | h
    · exact .inl rfl
    · exact .inr h
  · exact h.elim
  · exact h.elim
  · obtain rfl := h
    exact .inl rfl

end Leaf.Same

/-- Leaves that match by value are the same if constants fill their shapes. -/
theorem Leaf.same_of_valueEq {l m : Leaf} (hl : ∀ c, l = .const c → c.Fills)
    (hm : ∀ c, m = .const c → c.Fills) (h : l.valueEq m = true) : l.Same m := by
  cases l with
  | const c => cases m with
    | const d => exact Constant.same_of_valueEq (hl c rfl) (hm d rfl) h
    | input name => cases h
  | input name => cases m with
    | const d => cases h
    | input other => exact of_decide_eq_true (p := name = other) h

namespace Tree

/-- The operands that matching pairs up. -/
def operands (F : Facts) (op : String) (args : List Tree) : List Tree :=
  if F.isChain op then args.flatMap (items op) else args

/-- Equal modulo the facts, as matching decides it. The pairs are the operands as they match. -/
inductive Alike (F : Facts) : Tree → Tree → Prop
  | var (v : UInt32) : Alike F (.var v) (.var v)
  | leaf {l m : Leaf} (same : l.Same m) : Alike F (.leaf l) (.leaf m)
  | app {op : String} {xs ys : List Tree} {a b : Attrs} (pairs : List (Tree × Tree))
      (each : ∀ p ∈ pairs, Alike F p.1 p.2)
      (left : F.Arranges op (operands F op xs) (pairs.map Prod.fst))
      (right : pairs.map Prod.snd = operands F op ys) : Alike F (.app op xs a) (.app op ys b)
  | unknown (id : TermId) : Alike F (.unknown id) (.unknown id)

namespace Alike

variable {F : Facts} {op : String} {xs ys : List Tree} {a b : Attrs} {t u w : Tree}

/-- Applications are alike when their operands pair up. -/
theorem of_pairs (h : F.Pairs (Alike F) op (operands F op xs) (operands F op ys)) :
    Alike F (.app op xs a) (.app op ys b) := by
  obtain ⟨zs, hz, h⟩ := h
  have hl := h.length_eq
  refine .app (zs.zip (operands F op ys)) (fun p hp => List.forall₂_zip h hp) ?_ ?_
  · rwa [List.map_fst_zip (Nat.le_of_eq hl)]
  · exact List.map_snd_zip (Nat.le_of_eq hl.symm)

theorem pairs_of_list {R : Tree → Tree → Prop} {pairs : List (Tree × Tree)}
    (each : ∀ p ∈ pairs, R p.1 p.2)
    (left : F.Arranges op (operands F op xs) (pairs.map Prod.fst))
    (right : pairs.map Prod.snd = operands F op ys) :
    F.Pairs R op (operands F op xs) (operands F op ys) := by
  refine ⟨pairs.map Prod.fst, left, ?_⟩
  rw [← right, List.forall₂_map_left_iff, List.forall₂_map_right_iff, List.forall₂_same]
  exact each

/-- Applications that are alike have one operator, and their operands pair up. -/
theorem app_iff {g : String} : Alike F (.app op xs a) (.app g ys b) ↔
    op = g ∧ F.Pairs (Alike F) op (operands F op xs) (operands F op ys) := by
  constructor
  · rintro (_ | _ | ⟨pairs, each, left, right⟩)
    exact ⟨rfl, pairs_of_list each left right⟩
  · rintro ⟨rfl, h⟩
    exact of_pairs h

/-- Induction with the operands paired up. -/
@[elab_as_elim]
theorem induct {P : ∀ t u, Alike F t u → Prop} (var : ∀ v, P _ _ (.var v))
    (leaf : ∀ (l m : Leaf) (same : l.Same m), P _ _ (.leaf same))
    (app : ∀ op xs ys a b
      (h : F.Pairs (fun t u => ∃ h : Alike F t u, P t u h) op (operands F op xs) (operands F op ys)),
      P _ _ (of_pairs (a := a) (b := b) (h.imp fun _ _ h => h.1)))
    (unknown : ∀ id, P _ _ (.unknown id)) (h : Alike F t u) : P t u h := by
  induction h with
  | var v => exact var v
  | leaf same => exact leaf _ _ same
  | app pairs each left right ih =>
    exact app _ _ _ _ _ (pairs_of_list (fun p hp => ⟨each p hp, ih p hp⟩) left right)
  | unknown id => exact unknown id

theorem refl (t : Tree) : Alike F t t := by
  induction t using size_induct with
  | step t ih => cases t with
    | var v => exact .var v
    | leaf l => exact .leaf (.refl l)
    | unknown id => exact .unknown id
    | app op args attrs =>
      refine of_pairs (.of_forall₂ (List.forall₂_same.mpr fun u hu => ih u ?_))
      unfold operands at hu
      split at hu
      · obtain ⟨t, ht, hu⟩ := List.mem_flatMap.mp hu
        exact Nat.lt_of_le_of_lt (size_le_of_mem_items hu) (size_lt ht)
      · exact size_lt hu

theorem symm (h : Alike F t u) : Alike F u t := by
  induction h using induct with
  | var v => exact .var v
  | leaf l m same => exact .leaf same.symm
  | app op xs ys a b h => exact of_pairs (h.symm fun t u h => h.2)
  | unknown id => exact .unknown id

theorem trans (h : Alike F t u) (h' : Alike F u w) : Alike F t w := by
  induction h using induct generalizing w with
  | var v => exact h'
  | leaf l m same =>
    cases h' with
    | leaf same' => exact .leaf (same.trans same')
  | app op xs ys a b h =>
    cases h' with
    | app pairs each left right =>
      refine of_pairs (h.trans (fun t u w h h' => ?_) (pairs_of_list each left right))
      exact h.2 h'
  | unknown id => exact h'

/-- Trees that are alike are applications of the same operators. -/
theorem isApp_iff (h : Alike F t u) : IsApp op t ↔ IsApp op u := by
  cases h <;> exact Iff.rfl

/-- What is alike an application of an operator that does not commute has operands that are alike in
    their order. -/
theorem operands_of_ordered (ordered : F.isCommutative op = false) (h : Alike F t (.app op xs a)) :
    ∃ ws b, t = .app op ws b ∧ List.Forall₂ (Alike F) ws xs := by
  cases t with
  | app f ws b =>
    obtain ⟨rfl, zs, arranged, alike⟩ := app_iff.mp h
    have plain : ∀ ts, operands F f ts = ts := fun ts =>
      if_neg fun chain => Bool.false_ne_true (ordered.symm.trans (F.commutative_of_isChain chain))
    rw [plain] at arranged alike
    rcases arranged with rfl | ⟨commutes, -⟩
    · exact ⟨_, _, rfl, alike⟩
    · exact absurd (ordered.symm.trans commutes) Bool.false_ne_true
  | _ => cases h

/-- The chains of trees that are alike pair up. -/
theorem items (chain : F.isChain op = true) (h : Alike F t u) :
    F.Pairs (Alike F) op (items op t) (items op u) := by
  by_cases ht : IsApp op t
  · cases h with
    | app pairs each left right =>
      obtain rfl : _ = op := ht
      have hp := pairs_of_list each left right
      unfold operands at hp
      rw [if_pos chain, if_pos chain] at hp
      rwa [items_app_self, items_app_self]
    | _ => exact ht.elim
  · rw [items_of_not_isApp ht, items_of_not_isApp (mt h.isApp_iff.mpr ht)]
    exact .of_forall₂ (.cons h .nil)

/-- What pairs up place by place makes applications that are alike. -/
theorem operands_of_pairs (h : F.Pairs (Alike F) op xs ys) :
    F.Pairs (Alike F) op (operands F op xs) (operands F op ys) := by
  unfold operands
  split
  · rename_i chain
    exact (h.imp fun t u h => h.items chain).flatMap
  · exact h

theorem congr (h : F.Pairs (Alike F) op xs ys) : Alike F (.app op xs a) (.app op ys b) :=
  of_pairs (operands_of_pairs h)

/-- Chains whose operands pair up are alike. -/
theorem of_items (chain : F.isChain op = true) (ht : IsApp op t) (hu : IsApp op u)
    (h : F.Pairs (Alike F) op (Tree.items op t) (Tree.items op u)) : Alike F t u := by
  cases t with
  | app f xs a => cases u with
    | app g ys b =>
      obtain rfl : f = op := ht
      obtain rfl : g = f := hu
      refine of_pairs ?_
      unfold operands
      rw [if_pos chain, if_pos chain]
      rwa [items_app_self, items_app_self] at h
    | _ => exact hu.elim
  | _ => exact ht.elim

theorem operands_subst (σ : UInt32 → Tree) (xs : List Tree) :
    operands F op (xs.map (Tree.subst σ)) =
      if F.isChain op then (operands F op xs).flatMap fun u => Tree.items op (u.subst σ)
      else (operands F op xs).map (Tree.subst σ) := by
  unfold operands
  split
  · rw [List.flatMap_map, List.flatMap_assoc]
    exact List.flatMap_congr fun t _ => items_subst op σ t
  · rfl

/-- Trees stay alike under a substitution. -/
theorem subst (σ : UInt32 → Tree) (h : Alike F t u) : Alike F (t.subst σ) (u.subst σ) := by
  induction h using induct with
  | var v => exact refl _
  | leaf l m same => exact .leaf same
  | app op xs ys a b h =>
    rw [subst_app, subst_app]
    refine of_pairs ?_
    rw [operands_subst, operands_subst]
    split
    · rename_i chain
      exact (h.imp fun t u ⟨_, h⟩ => h.items chain).flatMap
    · exact (h.imp fun t u h => h.2).map
  | unknown id => exact .unknown id

/-- Substitutions that put in trees that are alike make trees that are alike. -/
theorem subst_congr {σ τ : UInt32 → Tree} (h : ∀ v, HasVar v t → Alike F (σ v) (τ v)) :
    Alike F (t.subst σ) (t.subst τ) := by
  induction t with
  | var v => exact h v .var
  | leaf l => exact refl _
  | app op args attrs ih =>
    rw [subst_app, subst_app]
    refine congr (.of_forall₂ ?_)
    rw [List.forall₂_map_left_iff, List.forall₂_map_right_iff, List.forall₂_same]
    exact fun u hu => ih u hu fun v hv => h v (.app hu hv)
  | unknown id => exact refl _

theorem hasVar_operands {v : UInt32} :
    HasVar v (.app op xs a) ↔ ∃ t ∈ operands F op xs, HasVar v t := by
  rw [hasVar_app]
  unfold operands
  split
  · simp only [List.mem_flatMap]
    constructor
    · rintro ⟨t, ht, hv⟩
      obtain ⟨u, hu, hv⟩ := hasVar_items.mpr hv
      exact ⟨u, ⟨t, ht, hu⟩, hv⟩
    · rintro ⟨u, ⟨t, ht, hu⟩, hv⟩
      exact ⟨t, ht, hasVar_items.mp ⟨u, hu, hv⟩⟩
  · rfl

theorem hasVar {v : UInt32} (h : Alike F t u) (hv : HasVar v t) : HasVar v u := by
  induction h using induct with
  | var w => exact hv
  | leaf l m same => exact absurd hv not_hasVar_leaf
  | app op xs ys a b h =>
    rw [hasVar_operands (F := F)] at hv ⊢
    exact h.exists_mem (fun t u h => h.2) hv
  | unknown id => exact hv

/-- What is alike a tree without variables has none either. -/
theorem ground (h : Alike F t u) (hu : Ground u) : Ground t := fun v hv => hu v (h.hasVar hv)

end Alike

end Tree

end Regraft
