import Regraft.Term.Tree
import Regraft.Proofs.Term.Constant
import Mathlib.Algebra.GroupWithZero.Nat
import Mathlib.Data.List.Forall2

/-
  Trees as terms: induction on the operands, folds, substitution for variables, the variables and
  labels that occur, and the operands of a chain of one operator (`Tree.items`). Substitution
  commutes with reading off a chain, except that what is put in for a variable may be a chain of
  the same operator itself (`items_subst`).
-/

namespace Regraft

namespace Tree

/-- Induction on a tree, with the statement for all operands of an application. -/
@[elab_as_elim, induction_eliminator]
theorem induct {P : Tree → Prop} (var : ∀ v, P (.var v)) (leaf : ∀ l, P (.leaf l))
    (app : ∀ op args attrs, (∀ t ∈ args, P t) → P (.app op args attrs))
    (unknown : ∀ id, P (.unknown id)) (t : Tree) : P t :=
  @Tree.rec P (fun ts => ∀ t ∈ ts, P t) var leaf app unknown
    (fun _ h => nomatch h)
    (fun _ _ hd tl _ h => match h with
      | .head _ => hd
      | .tail _ h => tl _ h) t

/-! ## Folds -/

section

variable {β : Type*} (var : UInt32 → β) (leaf : Leaf → β) (app : String → Attrs → List β → β)
  (unknown : TermId → β)

mutual

/-- The value of a tree, from the values of its operands. -/
def fold : Tree → β
  | .var v => var v
  | .leaf l => leaf l
  | .app op args attrs => app op attrs (foldAll args)
  | .unknown id => unknown id

def foldAll : List Tree → List β
  | [] => []
  | t :: rest => fold t :: foldAll rest

end

theorem foldAll_eq_map (ts : List Tree) :
    foldAll var leaf app unknown ts = ts.map (fold var leaf app unknown) := by
  induction ts with
  | nil => rfl
  | cons t rest ih => rw [foldAll, List.map_cons, ih]

theorem fold_app (op : String) (args : List Tree) (attrs : Attrs) :
    fold var leaf app unknown (.app op args attrs) =
      app op attrs (args.map (fold var leaf app unknown)) := by
  rw [fold, foldAll_eq_map]

end

/-! ## Substitution -/

/-- Put a tree in for every variable. -/
def subst (σ : UInt32 → Tree) : Tree → Tree :=
  fold σ .leaf (fun op attrs ts => .app op ts attrs) .unknown

@[simp] theorem subst_var (σ : UInt32 → Tree) (v : UInt32) : (var v).subst σ = σ v := rfl

@[simp] theorem subst_leaf (σ : UInt32 → Tree) (l : Leaf) : (leaf l).subst σ = leaf l := rfl

@[simp] theorem subst_unknown (σ : UInt32 → Tree) (id : TermId) :
    (unknown id).subst σ = unknown id := rfl

@[simp] theorem subst_app (σ : UInt32 → Tree) (op : String) (args : List Tree) (attrs : Attrs) :
    (app op args attrs).subst σ = app op (args.map (subst σ)) attrs := fold_app ..

theorem subst_subst (σ τ : UInt32 → Tree) (t : Tree) :
    (t.subst σ).subst τ = t.subst fun v => (σ v).subst τ := by
  induction t with
  | var v => rfl
  | leaf l => rfl
  | app op args attrs ih =>
    rw [subst_app, subst_app, subst_app, List.map_map]
    congr 1
    exact List.map_congr_left ih
  | unknown id => rfl

/-- A variable occurs in a tree. -/
inductive HasVar (v : UInt32) : Tree → Prop
  | var : HasVar v (.var v)
  | app {op : String} {args : List Tree} {attrs : Attrs} {t : Tree} (mem : t ∈ args)
      (has : HasVar v t) : HasVar v (.app op args attrs)

@[simp] theorem hasVar_var {v w : UInt32} : HasVar v (var w) ↔ v = w := by
  constructor
  · rintro ⟨⟩
    rfl
  · rintro rfl
    exact .var

@[simp] theorem not_hasVar_leaf {v : UInt32} {l : Leaf} : ¬ HasVar v (leaf l) := nofun

@[simp] theorem not_hasVar_unknown {v : UInt32} {id : TermId} : ¬ HasVar v (unknown id) := nofun

@[simp] theorem hasVar_app {v : UInt32} {op : String} {args : List Tree} {attrs : Attrs} :
    HasVar v (app op args attrs) ↔ ∃ t ∈ args, HasVar v t := by
  constructor
  · rintro (_ | ⟨mem, has⟩)
    exact ⟨_, mem, has⟩
  · rintro ⟨t, mem, has⟩
    exact .app mem has

/-- No variable occurs. -/
def Ground (t : Tree) : Prop := ∀ v, ¬ HasVar v t

theorem Ground.of_mem {op : String} {args : List Tree} {attrs : Attrs}
    (h : Ground (app op args attrs)) {t : Tree} (mem : t ∈ args) : Ground t :=
  fun v has => h v (.app mem has)

/-- The variables from left to right, each as often as it occurs. -/
def vars : Tree → List UInt32 :=
  fold (fun v => [v]) (fun _ => []) (fun _ _ vs => vs.flatten) fun _ => []

@[simp] theorem vars_app (op : String) (args : List Tree) (attrs : Attrs) :
    (app op args attrs).vars = args.flatMap vars := by
  rw [List.flatMap_def]
  exact fold_app ..

theorem mem_vars {v : UInt32} {t : Tree} : v ∈ t.vars ↔ HasVar v t := by
  induction t with
  | var w => exact List.mem_singleton.trans hasVar_var.symm
  | leaf l => exact iff_of_false List.not_mem_nil not_hasVar_leaf
  | app op args attrs ih =>
    rw [vars_app, List.mem_flatMap, hasVar_app]
    exact exists_congr fun t => and_congr_right fun mem => ih t mem
  | unknown id => exact iff_of_false List.not_mem_nil not_hasVar_unknown

theorem vars_eq_nil {t : Tree} : t.vars = [] ↔ Ground t := by
  rw [List.eq_nil_iff_forall_not_mem]
  simp only [mem_vars]
  rfl

theorem subst_congr {σ τ : UInt32 → Tree} {t : Tree} (h : ∀ v, HasVar v t → σ v = τ v) :
    t.subst σ = t.subst τ := by
  induction t with
  | var v => exact h v .var
  | leaf l => rfl
  | app op args attrs ih =>
    rw [subst_app, subst_app]
    congr 1
    exact List.map_congr_left fun t ht => ih t ht fun v hv => h v (.app ht hv)
  | unknown id => rfl

theorem subst_id (t : Tree) : t.subst var = t := by
  induction t with
  | var v => rfl
  | leaf l => rfl
  | app op args attrs ih =>
    rw [subst_app]
    congr 1
    conv => rhs; rw [← List.map_id args]
    exact List.map_congr_left ih
  | unknown id => rfl

theorem Ground.subst {t : Tree} (h : Ground t) (σ : UInt32 → Tree) : t.subst σ = t := by
  conv => rhs; rw [← subst_id t]
  exact subst_congr fun v hv => absurd hv (h v)

theorem hasVar_subst {v : UInt32} {σ : UInt32 → Tree} {t : Tree} :
    HasVar v (t.subst σ) ↔ ∃ w, HasVar w t ∧ HasVar v (σ w) := by
  induction t with
  | var w => simp
  | leaf l => simp
  | app op args attrs ih =>
    simp only [subst_app, hasVar_app, List.mem_map]
    constructor
    · rintro ⟨_, ⟨t, ht, rfl⟩, hv⟩
      obtain ⟨w, hw, hv⟩ := (ih t ht).mp hv
      exact ⟨w, ⟨t, ht, hw⟩, hv⟩
    · rintro ⟨w, ⟨t, ht, hw⟩, hv⟩
      exact ⟨_, ⟨t, ht, rfl⟩, (ih t ht).mpr ⟨w, hw, hv⟩⟩
  | unknown id => simp

/-! ## Depth -/

/-- How many applications stand above each other at most. -/
def depth : Tree → Nat :=
  fold (fun _ => 0) (fun _ => 0) (fun _ _ depths => depths.foldr max 0 + 1) fun _ => 0

theorem depth_app (op : String) (args : List Tree) (attrs : Attrs) :
    (app op args attrs).depth = (args.map depth).foldr max 0 + 1 := fold_app ..

theorem le_foldr_max {n : Nat} {ns : List Nat} (h : n ∈ ns) : n ≤ ns.foldr max 0 := by
  induction h with
  | head => exact Nat.le_max_left ..
  | tail _ _ ih => exact Nat.le_trans ih (Nat.le_max_right ..)

theorem foldr_max_lt {n : Nat} {ns : List Nat} (hn : 0 < n) (h : ∀ k ∈ ns, k < n) :
    ns.foldr max 0 < n := by
  induction ns with
  | nil => exact hn
  | cons k rest ih =>
    rw [List.forall_mem_cons] at h
    exact Nat.max_lt.mpr ⟨h.1, ih h.2⟩

theorem depth_lt {op : String} {args : List Tree} {attrs : Attrs} {t : Tree} (h : t ∈ args) :
    t.depth < (app op args attrs).depth := by
  rw [depth_app]
  exact Nat.lt_succ_of_le (le_foldr_max (List.mem_map_of_mem h))

/-! ## Size -/

/-- How many nodes a tree has. -/
def size : Tree → Nat :=
  fold (fun _ => 1) (fun _ => 1) (fun _ _ sizes => sizes.sum + 1) fun _ => 1

theorem size_app (op : String) (args : List Tree) (attrs : Attrs) :
    (app op args attrs).size = (args.map size).sum + 1 := fold_app ..

theorem le_sum {n : Nat} {ns : List Nat} (h : n ∈ ns) : n ≤ ns.sum := by
  induction h with
  | head => exact Nat.le_add_right ..
  | tail _ _ ih => exact Nat.le_trans ih (Nat.le_add_left ..)

theorem size_lt {op : String} {args : List Tree} {attrs : Attrs} {t : Tree} (h : t ∈ args) :
    t.size < (app op args attrs).size := by
  rw [size_app]
  exact Nat.lt_succ_of_le (le_sum (List.mem_map_of_mem h))

/-- Induction on the size of a tree. -/
theorem size_induct {P : Tree → Prop} (step : ∀ t, (∀ u, u.size < t.size → P u) → P t) (t : Tree) :
    P t := by
  generalize hn : t.size = n
  induction n using Nat.strongRecOn generalizing t with
  | ind n ih => exact step t fun u hu => ih _ (hn ▸ hu) u rfl

/-! ## Labels -/

/-- What a tree is made of, apart from its variables. -/
inductive Label
  | leaf (l : Leaf)
  | node (op : String) (operands : Nat) (attrs : Attrs)

/-- All labels of a tree are among some given ones. -/
inductive Over (has : Label → Prop) : Tree → Prop
  | var (v : UInt32) : Over has (.var v)
  | leaf {l : Leaf} (label : has (.leaf l)) : Over has (.leaf l)
  | app {op : String} {args : List Tree} {attrs : Attrs} (label : has (.node op args.length attrs))
      (operands : ∀ t ∈ args, Over has t) : Over has (.app op args attrs)
  | unknown (id : TermId) : Over has (.unknown id)

theorem over_leaf {has : Label → Prop} {l : Leaf} : Over has (leaf l) ↔ has (.leaf l) :=
  ⟨fun | .leaf h => h, .leaf⟩

theorem over_app {has : Label → Prop} {op : String} {args : List Tree} {attrs : Attrs} :
    Over has (app op args attrs) ↔
      has (.node op args.length attrs) ∧ ∀ t ∈ args, Over has t :=
  ⟨fun | .app h hs => ⟨h, hs⟩, fun h => .app h.1 h.2⟩

theorem over_pair {has : Label → Prop} {op : String} {t u : Tree} {attrs : Attrs}
    (h : has (.node op 2 attrs)) (ht : Over has t) (hu : Over has u) :
    Over has (app op [t, u] attrs) := by
  refine over_app.mpr ⟨h, ?_⟩
  simp only [List.mem_cons, List.not_mem_nil, or_false, forall_eq_or_imp, forall_eq]
  exact ⟨ht, hu⟩

theorem over_subst {has : Label → Prop} {σ : UInt32 → Tree} {t : Tree} (ht : Over has t)
    (hσ : ∀ v, HasVar v t → Over has (σ v)) : Over has (t.subst σ) := by
  induction t with
  | var v => exact hσ v .var
  | leaf l => exact ht
  | app op args attrs ih =>
    obtain ⟨label, operands⟩ := over_app.mp ht
    rw [subst_app, over_app, List.length_map]
    refine ⟨label, fun t' ht' => ?_⟩
    obtain ⟨t, mem, rfl⟩ := List.mem_map.mp ht'
    exact ih t mem (operands t mem) fun v hv => hσ v (.app mem hv)
  | unknown id => exact ht

/-- What is put in for the variables of a tree is made of the labels of the result. -/
theorem Over.of_subst {has : Label → Prop} {σ : UInt32 → Tree} {t : Tree}
    (h : Over has (t.subst σ)) {v : UInt32} (hv : HasVar v t) : Over has (σ v) := by
  induction hv with
  | var => exact h
  | app mem _ ih =>
    rw [subst_app, over_app] at h
    exact ih (h.2 _ (List.mem_map_of_mem mem))

/-- A tree has no labels that it loses when something is put in for its variables. -/
theorem over_of_over_subst {has : Label → Prop} {σ : UInt32 → Tree} {t : Tree}
    (h : Over has (t.subst σ)) : Over has t := by
  induction t with
  | var v => exact .var v
  | leaf l => exact h
  | app op args attrs ih =>
    rw [subst_app, over_app, List.length_map] at h
    exact over_app.mpr ⟨h.1, fun t mem => ih t mem (h.2 _ (List.mem_map_of_mem mem))⟩
  | unknown id => exact h

theorem Over.imp {has has' : Label → Prop} {t : Tree} (h : Over has t) (imp : ∀ l, has l → has' l) :
    Over has' t := by
  induction h with
  | var v => exact .var v
  | leaf label => exact .leaf (imp _ label)
  | app label _ ih => exact .app (imp _ label) ih
  | unknown id => exact .unknown id

/-- All labels. -/
def anyLabel : Label → Prop := fun _ => True

theorem over_any (t : Tree) : t.Over anyLabel := by
  induction t with
  | var v => exact .var v
  | leaf l => exact .leaf trivial
  | app op args attrs ih => exact .app trivial ih
  | unknown id => exact .unknown id

/-- Every constant in a tree fills its shape. -/
def Filled (t : Tree) : Prop := t.Over fun
  | .leaf (.const c) => c.Fills
  | _ => True

theorem filled_input (name : String) : (leaf (.input name)).Filled := .leaf trivial

theorem filled_app {op : String} {args : List Tree} {attrs : Attrs} :
    (app op args attrs).Filled ↔ ∀ t ∈ args, t.Filled :=
  over_app.trans (and_iff_right trivial)

/-! ## Subtrees -/

/-- A tree is another one or stands below it. -/
inductive Sub (u : Tree) : Tree → Prop
  | refl : Sub u u
  | operand {op : String} {args : List Tree} {attrs : Attrs} {t : Tree} (mem : t ∈ args)
      (sub : Sub u t) : Sub u (.app op args attrs)

theorem Sub.trans {t u w : Tree} (hu : Sub u t) (hw : Sub w u) : Sub w t := by
  induction hu with
  | refl => exact hw
  | operand mem _ ih => exact .operand mem ih

/-! ## Chains -/

/-- The tree is an application of an operator. -/
def IsApp (op : String) : Tree → Prop
  | app f _ _ => f = op
  | _ => False

mutual

/-- The operands of a chain of an operator from left to right; a tree that is no application of the
    operator is a chain of its own. -/
def items (op : String) : Tree → List Tree
  | app f args attrs => if f = op then itemsAll op args else [app f args attrs]
  | var v => [var v]
  | leaf l => [leaf l]
  | unknown id => [unknown id]

def itemsAll (op : String) : List Tree → List Tree
  | [] => []
  | t :: rest => items op t ++ itemsAll op rest

end

theorem itemsAll_eq_flatMap (op : String) (ts : List Tree) :
    itemsAll op ts = ts.flatMap (items op) := by
  induction ts with
  | nil => rfl
  | cons t rest ih => rw [itemsAll, List.flatMap_cons, ih]

@[simp] theorem items_app_self (op : String) (args : List Tree) (attrs : Attrs) :
    items op (app op args attrs) = args.flatMap (items op) := by
  rw [items, if_pos rfl, itemsAll_eq_flatMap]

theorem items_of_not_isApp {op : String} {t : Tree} (h : ¬ IsApp op t) : items op t = [t] := by
  cases t with
  | app f args attrs =>
    have hf : ¬ f = op := h
    rw [items, if_neg hf]
  | var v => rfl
  | leaf l => rfl
  | unknown id => rfl

theorem not_isApp_of_mem_items {op : String} {t u : Tree} (h : u ∈ items op t) : ¬ IsApp op u := by
  induction t with
  | app f args attrs ih =>
    by_cases hf : f = op
    · subst hf
      rw [items_app_self, List.mem_flatMap] at h
      obtain ⟨t, ht, hu⟩ := h
      exact ih t ht hu
    · rw [items_of_not_isApp (t := app f args attrs) hf, List.mem_singleton] at h
      exact h ▸ hf
  | var v => exact (List.mem_singleton.mp h) ▸ id
  | leaf l => exact (List.mem_singleton.mp h) ▸ id
  | unknown id => exact (List.mem_singleton.mp h) ▸ fun h => h

theorem size_le_of_mem_items {op : String} {t u : Tree} (h : u ∈ items op t) : u.size ≤ t.size := by
  induction t with
  | app f args attrs ih =>
    by_cases hf : f = op
    · subst hf
      rw [items_app_self, List.mem_flatMap] at h
      obtain ⟨t, ht, hu⟩ := h
      exact Nat.le_of_lt (Nat.lt_of_le_of_lt (ih t ht hu) (size_lt ht))
    · rw [items_of_not_isApp (t := app f args attrs) hf, List.mem_singleton] at h
      exact Nat.le_of_eq (congrArg size h)
  | _ => exact Nat.le_of_eq (congrArg size (List.mem_singleton.mp h))

theorem size_lt_of_mem_items {op : String} {t u : Tree} (ht : IsApp op t) (h : u ∈ items op t) :
    u.size < t.size := by
  cases t with
  | app f args attrs =>
    obtain rfl : f = op := ht
    rw [items_app_self, List.mem_flatMap] at h
    obtain ⟨t, ht, hu⟩ := h
    exact Nat.lt_of_le_of_lt (size_le_of_mem_items hu) (size_lt ht)
  | _ => exact ht.elim

theorem depth_le_of_mem_items {op : String} {t u : Tree} (h : u ∈ items op t) : u.depth ≤ t.depth := by
  induction t with
  | app f args attrs ih =>
    by_cases hf : f = op
    · subst hf
      rw [items_app_self, List.mem_flatMap] at h
      obtain ⟨t, ht, hu⟩ := h
      exact Nat.le_of_lt (Nat.lt_of_le_of_lt (ih t ht hu) (depth_lt ht))
    · rw [items_of_not_isApp (t := app f args attrs) hf, List.mem_singleton] at h
      exact Nat.le_of_eq (congrArg depth h)
  | _ => exact Nat.le_of_eq (congrArg depth (List.mem_singleton.mp h))

/-- The operands of a chain are less deep than the chain. -/
theorem depth_lt_of_mem_items {op : String} {t u : Tree} (ht : IsApp op t) (h : u ∈ items op t) :
    u.depth < t.depth := by
  cases t with
  | app f args attrs =>
    obtain rfl : f = op := ht
    rw [items_app_self, List.mem_flatMap] at h
    obtain ⟨t, ht, hu⟩ := h
    exact Nat.lt_of_le_of_lt (depth_le_of_mem_items hu) (depth_lt ht)
  | _ => exact ht.elim

theorem Over.of_mem_items {has : Label → Prop} {op : String} {t u : Tree} (h : Over has t)
    (hu : u ∈ items op t) : Over has u := by
  induction t with
  | app f args attrs ih =>
    by_cases hf : f = op
    · subst hf
      rw [items_app_self, List.mem_flatMap] at hu
      obtain ⟨t, ht, hu⟩ := hu
      exact ih t ht ((over_app.mp h).2 t ht) hu
    · rw [items_of_not_isApp (t := Tree.app f args attrs) hf, List.mem_singleton] at hu
      exact hu ▸ h
  | _ => exact List.mem_singleton.mp hu ▸ h

theorem hasVar_items {op : String} {v : UInt32} {t : Tree} :
    (∃ u ∈ items op t, HasVar v u) ↔ HasVar v t := by
  induction t with
  | app f args attrs ih =>
    by_cases hf : f = op
    · subst hf
      simp only [items_app_self, List.mem_flatMap, hasVar_app]
      constructor
      · rintro ⟨u, ⟨t, ht, hu⟩, hv⟩
        exact ⟨t, ht, (ih t ht).mp ⟨u, hu, hv⟩⟩
      · rintro ⟨t, ht, hv⟩
        obtain ⟨u, hu, hv⟩ := (ih t ht).mpr hv
        exact ⟨u, ⟨t, ht, hu⟩, hv⟩
    · rw [items_of_not_isApp (t := app f args attrs) hf]
      simp
  | _ => simp [items]

/-- A chain of operands of a ground chain is ground. -/
theorem Ground.of_items {op : String} {t u : Tree} (h : Ground t)
    (sub : ∀ w ∈ items op u, w ∈ items op t) : Ground u := by
  intro v hv
  obtain ⟨w, hw, hv⟩ := hasVar_items.mpr hv
  exact h v (hasVar_items.mp ⟨w, sub w hw, hv⟩)

theorem isApp_subst {op : String} {σ : UInt32 → Tree} {t : Tree} (h : IsApp op t) :
    IsApp op (t.subst σ) := by
  cases t with
  | app f args attrs =>
    rw [subst_app]
    exact h
  | _ => exact h.elim

/-- The chain of a tree under a substitution: each operand of the tree's own chain contributes the
    chain that it has become. -/
theorem items_subst (op : String) (σ : UInt32 → Tree) (t : Tree) :
    items op (t.subst σ) = (items op t).flatMap fun u => items op (u.subst σ) := by
  induction t with
  | app f args attrs ih =>
    by_cases hf : f = op
    · subst hf
      rw [subst_app, items_app_self, items_app_self, List.flatMap_map, List.flatMap_assoc]
      exact List.flatMap_congr ih
    · rw [items_of_not_isApp (t := app f args attrs) hf, List.flatMap_singleton]
  | var v => exact (List.flatMap_singleton ..).symm
  | leaf l => exact (List.flatMap_singleton ..).symm
  | unknown id => exact (List.flatMap_singleton ..).symm

theorem flatMap_items_of_not_isApp {op : String} {ts : List Tree} (h : ∀ t ∈ ts, ¬ IsApp op t) :
    ts.flatMap (items op) = ts := by
  induction ts with
  | nil => rfl
  | cons t rest ih =>
    rw [List.forall_mem_cons] at h
    rw [List.flatMap_cons, items_of_not_isApp h.1, ih h.2, List.singleton_append]

end Tree

end Regraft
