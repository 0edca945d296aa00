import Regraft.Match.Modulo
import Regraft.Proofs.Match.Enumeration
import Regraft.Proofs.Unify.Ground
import Mathlib.Data.Set.Function
import Mathlib.Logic.Function.Basic

/-
  The ways to match trees, told apart to the last detail. `Matches F pairs θ` says that the ground trees
  on the left of some pairs match the patterns on their right one after the other, and that the
  variables of the patterns are bound as `θ` says. Operands are paired up in the ways that matching
  tries (`Lineup`); what a variable gets of a longer chain is a stretch of it that stands there as one
  term, or a term made anew (`Strand.group`). A way binds all variables of the patterns to ground trees
  and no others (`Matches.ground`, `Matches.eq_var`), and does not depend on how the variables are
  numbered (`Matches.rename`).
-/

namespace Regraft

namespace Tree

variable {F : Facts} {op : String} {t u : Tree} {θ σ τ : UInt32 → Tree} {v w : UInt32}
  {ps qs : List (Tree × Tree)}

/-! ## Assignments -/

/-- First one assignment of trees to variables, then another. -/
def andThen (σ τ : UInt32 → Tree) : UInt32 → Tree := fun v => (σ v).subst τ

/-- A tree for one variable. -/
def only (v : UInt32) (t : Tree) : UInt32 → Tree := fun w => if w = v then t else .var w

@[simp] theorem only_self (v : UInt32) (t : Tree) : only v t v = t := if_pos rfl

theorem only_of_ne (h : w ≠ v) : only v t w = .var w := if_neg h

theorem subst_andThen (σ τ : UInt32 → Tree) (t : Tree) :
    t.subst (andThen σ τ) = (t.subst σ).subst τ := (subst_subst σ τ t).symm

theorem andThen_assoc (ρ σ τ : UInt32 → Tree) :
    andThen (andThen ρ σ) τ = andThen ρ (andThen σ τ) := by
  funext v
  exact subst_subst σ τ (ρ v)

@[simp] theorem var_andThen (τ : UInt32 → Tree) : andThen .var τ = τ := rfl

@[simp] theorem andThen_var (σ : UInt32 → Tree) : andThen σ .var = σ := by
  funext v
  exact subst_id (σ v)

/-- Give the variables of a tree other numbers. -/
def rename (ρ : UInt32 → UInt32) (t : Tree) : Tree := t.subst fun v => .var (ρ v)

theorem hasVar_rename {ρ : UInt32 → UInt32} : (t.rename ρ).HasVar w ↔ ∃ v, t.HasVar v ∧ w = ρ v := by
  unfold rename
  rw [hasVar_subst]
  simp only [hasVar_var]

theorem rename_app (ρ : UInt32 → UInt32) (op : String) (args : List Tree) (attrs : Attrs) :
    (app op args attrs).rename ρ = app op (args.map (rename ρ)) attrs := subst_app ..

theorem Ground.rename (h : t.Ground) (ρ : UInt32 → UInt32) : t.rename ρ = t := h.subst _

theorem subst_rename (ρ : UInt32 → UInt32) (t : Tree) :
    (t.rename ρ).subst θ = t.subst fun v => θ (ρ v) := subst_subst _ _ t

/-- The tree is a variable. -/
def isVar : Tree → Bool
  | .var _ => true
  | _ => false

/-! ## Chains with their parts -/

/-- A chain: its items, and the stretches of them that stand as one term, inner ones first. -/
structure Strand where
  items : List Tree
  spans : List (Nat × Nat × Tree)

namespace Strand

mutual

/-- Append a tree to a chain, its own operands if it is an application of the operator. -/
def append (op : String) : Strand → Tree → Strand
  | c, .app f args attrs =>
    if f = op then
      let c' := appendAll op c args
      { c' with spans := c'.spans ++ [(c.items.length, c'.items.length, .app f args attrs)] }
    else { c with items := c.items ++ [.app f args attrs] }
  | c, .var v => { c with items := c.items ++ [.var v] }
  | c, .leaf l => { c with items := c.items ++ [.leaf l] }
  | c, .unknown id => { c with items := c.items ++ [.unknown id] }

def appendAll (op : String) : Strand → List Tree → Strand
  | c, [] => c
  | c, t :: rest => appendAll op (append op c t) rest

end

theorem append_of_not_isApp (c : Strand) (h : ¬ t.IsApp op) :
    append op c t = { c with items := c.items ++ [t] } := by
  cases t with
  | app f args attrs =>
    have hf : ¬ f = op := h
    rw [append, if_neg hf]
  | _ => rw [append]

/-- The chain of a tree. -/
def of (op : String) (t : Tree) : Strand := append op ⟨[], []⟩ t

/-- A tree for the items at some positions: the item itself if it is one, the first stretch that
    covers just them, or else a new one nested to the left. -/
def group (c : Strand) (op : String) (positions : List Nat) : Option Tree :=
  match positions.filterMap (c.items[·]?) with
  | [] => none
  | [t] => some t
  | t :: rest =>
    match (Chain.consecutive positions).bind fun (start, stop) =>
        c.spans.find? fun span => span.1 = start ∧ span.2.1 = stop with
    | some span => some span.2.2
    | none => some (rest.foldl (fun t u => .app op [t, u] .unspecified) t)

end Strand

/-! ## Pairing up -/

/-- The ways to pair up the operands of a ground tree with those of a pattern: in an order that the
    facts allow, or groups of a longer chain with the operands of a shorter one. -/
inductive Lineup (F : Facts) : Tree → Tree → List (Tree × Tree) → Prop
  | pair {op : String} {xs ys zs : List Tree} {a b : Attrs}
      (length : (operands F op xs).length = (operands F op ys).length)
      (arranged : F.Arranges op (operands F op xs) zs) :
      Lineup F (.app op xs a) (.app op ys b) (zs.zip (operands F op ys))
  | group {op : String} {xs ys ts : List Tree} {a b : Attrs} {assignment : List Nat}
      (chain : F.isChain op = true)
      (longer : (operands F op ys).length < (operands F op xs).length)
      (absorbs : ((operands F op ys).map isVar).contains true = true)
      (length : assignment.length = (operands F op xs).length)
      (bound : ∀ d ∈ assignment, d < (operands F op ys).length)
      (ok : admissible ((operands F op ys).map isVar) assignment = true)
      (made : List.Forall₂ (fun slot t => (Strand.of op (.app op xs a)).group op
        (Search.members assignment slot) = some t) (List.range (operands F op ys).length) ts) :
      Lineup F (.app op xs a) (.app op ys b) (ts.zip (operands F op ys))

/-- Put trees in for the variables of patterns. -/
abbrev fill (θ : UInt32 → Tree) (ps : List (Tree × Tree)) : List (Tree × Tree) :=
  ps.map fun p => (p.1, p.2.subst θ)

/-- Ground trees match patterns, one after the other. -/
inductive Matches (F : Facts) : List (Tree × Tree) → (UInt32 → Tree) → Prop
  | nil : Matches F [] .var
  | same {t : Tree} {rest : List (Tree × Tree)} {θ : UInt32 → Tree} (ground : t.Ground)
      (later : Matches F rest θ) : Matches F ((t, t) :: rest) θ
  | bind {t : Tree} {v : UInt32} {rest : List (Tree × Tree)} {θ : UInt32 → Tree} (ground : t.Ground)
      (later : Matches F (fill (only v t) rest) θ) :
      Matches F ((t, .var v) :: rest) (andThen (only v t) θ)
  | leaf {l m : Leaf} {rest : List (Tree × Tree)} {θ : UInt32 → Tree}
      (value : l.valueEq m = true) (later : Matches F rest θ) :
      Matches F ((.leaf l, .leaf m) :: rest) θ
  | app {op : String} {xs ys : List Tree} {a b : Attrs} {pairs rest : List (Tree × Tree)}
      {θ : UInt32 → Tree} (fits : a.compatible b = true)
      (lineup : Lineup F (.app op xs a) (.app op ys b) pairs) (later : Matches F (pairs ++ rest) θ) :
      Matches F ((.app op xs a, .app op ys b) :: rest) θ

/-- An operator with one operand matches where the operand does, unless it has chains. -/
theorem Matches.operand {F : Facts} {op : String} {x y : Tree} {θ : UInt32 → Tree}
    (plain : F.isChain op = false) (h : Matches F [(x, y)] θ) :
    Matches F [(.app op [x] .unspecified, .app op [y] .unspecified)] θ := by
  have alone : ∀ t, operands F op [t] = [t] := fun t => if_neg (by rw [plain]; decide)
  have lineup : Lineup F (.app op [x] .unspecified) (.app op [y] .unspecified)
      ((operands F op [x]).zip (operands F op [y])) :=
    .pair (by rw [alone, alone]; rfl) (.inl rfl)
  rw [alone, alone] at lineup
  exact .app rfl lineup h

/-! ## One pair after the other -/

theorem fill_fill (σ τ : UInt32 → Tree) (ps : List (Tree × Tree)) :
    fill τ (fill σ ps) = fill (andThen σ τ) ps := by
  rw [fill, fill, List.map_map]
  exact List.map_congr_left fun p _ => by rw [subst_andThen]; rfl

theorem fill_var (ps : List (Tree × Tree)) : fill .var ps = ps := by
  conv => rhs; rw [← List.map_id ps]
  exact List.map_congr_left fun p _ => by rw [subst_id]; rfl

namespace Matches

theorem append (h : Matches F ps σ) (h' : Matches F (fill σ qs) τ) :
    Matches F (ps ++ qs) (andThen σ τ) := by
  induction h generalizing qs with
  | nil => rwa [fill_var] at h'
  | same ground later ih => exact .same ground (ih h')
  | @bind t v rest θ ground later ih =>
    rw [andThen_assoc, List.cons_append]
    refine .bind ground ?_
    rw [fill, List.map_append]
    rw [← fill_fill] at h'
    exact ih h'
  | leaf value later ih => exact .leaf value (ih h')
  | app fits lineup later ih =>
    rw [List.cons_append]
    refine .app fits lineup ?_
    rw [← List.append_assoc]
    exact ih h'

theorem of_append (h : Matches F (ps ++ qs) θ) :
    ∃ σ τ, Matches F ps σ ∧ Matches F (fill σ qs) τ ∧ θ = andThen σ τ := by
  generalize all : ps ++ qs = rs at h
  induction h generalizing ps qs with
  | nil =>
    obtain ⟨rfl, rfl⟩ := List.append_eq_nil_iff.mp all
    exact ⟨.var, .var, .nil, .nil, rfl⟩
  | @bind t v rest θ ground later ih =>
    cases ps with
    | nil =>
      obtain rfl : qs = _ := all
      exact ⟨.var, _, .nil, by rw [fill_var]; exact .bind ground later, rfl⟩
    | cons p ps =>
      obtain ⟨rfl, rfl⟩ := List.cons_eq_cons.mp all
      obtain ⟨σ, τ, first, second, rfl⟩ := ih (List.map_append ..).symm
      rw [fill_fill] at second
      exact ⟨_, τ, .bind ground first, second, (andThen_assoc ..).symm⟩
  | @same t rest θ ground later ih =>
    cases ps with
    | nil =>
      obtain rfl : qs = _ := all
      exact ⟨.var, _, .nil, by rw [fill_var]; exact .same ground later, rfl⟩
    | cons p ps =>
      obtain ⟨rfl, rfl⟩ := List.cons_eq_cons.mp all
      obtain ⟨σ, τ, first, second, rfl⟩ := ih rfl
      exact ⟨σ, τ, .same ground first, second, rfl⟩
  | @leaf l m rest θ value later ih =>
    cases ps with
    | nil =>
      obtain rfl : qs = _ := all
      exact ⟨.var, _, .nil, by rw [fill_var]; exact .leaf value later, rfl⟩
    | cons p ps =>
      obtain ⟨rfl, rfl⟩ := List.cons_eq_cons.mp all
      obtain ⟨σ, τ, first, second, rfl⟩ := ih rfl
      exact ⟨σ, τ, .leaf value first, second, rfl⟩
  | @app op xs ys a b pairs rest θ fits lineup later ih =>
    cases ps with
    | nil =>
      obtain rfl : qs = _ := all
      exact ⟨.var, _, .nil, by rw [fill_var]; exact .app fits lineup later, rfl⟩
    | cons p ps =>
      obtain ⟨rfl, rfl⟩ := List.cons_eq_cons.mp all
      obtain ⟨σ, τ, first, second, rfl⟩ := ih (List.append_assoc ..)
      exact ⟨σ, τ, .app fits lineup first, second, rfl⟩

/-- Pairs are matched one after the other. -/
theorem append_iff : Matches F (ps ++ qs) θ ↔
    ∃ σ τ, Matches F ps σ ∧ Matches F (fill σ qs) τ ∧ θ = andThen σ τ :=
  ⟨of_append, fun ⟨_, _, first, second, eq⟩ => eq ▸ first.append second⟩

end Matches

/-! ## Variables -/

/-- All operands of the pattern are in the lineup. -/
theorem Lineup.hasVar (h : Lineup F t u ps) : u.HasVar v ↔ ∃ p ∈ ps, p.2.HasVar v := by
  have zipped : ∀ {zs ys : List Tree}, zs.length = ys.length →
      ((∃ y ∈ ys, y.HasVar v) ↔ ∃ p ∈ zs.zip ys, p.2.HasVar v) := by
    intro zs ys length
    have snd : (zs.zip ys).map Prod.snd = ys := List.map_snd_zip (Nat.le_of_eq length.symm)
    conv => lhs; rw [← snd]
    simp only [List.mem_map, exists_exists_and_eq_and]
  cases h with
  | pair length arranged =>
    rw [Alike.hasVar_operands (F := F), zipped]
    rw [← arranged.perm.length_eq, length]
  | group chain longer absorbs length bound ok made =>
    rw [Alike.hasVar_operands (F := F), zipped]
    rw [← made.length_eq, List.length_range]

/-- Which variables are left when a ground tree is put in for one. -/
theorem exists_hasVar_fill (ground : t.Ground) {rest : List (Tree × Tree)} :
    (∃ p ∈ fill (only v t) rest, p.2.HasVar w) ↔ w ≠ v ∧ ∃ p ∈ rest, p.2.HasVar w := by
  have left : ∀ u : Tree, (u.subst (only v t)).HasVar w ↔ w ≠ v ∧ u.HasVar w := by
    intro u
    rw [hasVar_subst]
    constructor
    · rintro ⟨x, hx, hw⟩
      by_cases eq : x = v
      · rw [eq, only_self] at hw
        exact absurd hw (ground w)
      · rw [only_of_ne eq, hasVar_var] at hw
        exact ⟨hw ▸ eq, hw ▸ hx⟩
    · exact fun ⟨ne, hw⟩ => ⟨w, hw, by rw [only_of_ne ne, hasVar_var]⟩
  simp only [List.mem_map, exists_exists_and_eq_and, left]
  constructor
  · exact fun ⟨p, hp, ne, hw⟩ => ⟨ne, p, hp, hw⟩
  · exact fun ⟨ne, p, hp, hw⟩ => ⟨p, hp, ne, hw⟩

/-- Variables of the patterns get ground trees, and all others stay. -/
theorem Matches.spec (h : Matches F ps θ) (v : UInt32) :
    ((∃ p ∈ ps, p.2.HasVar v) → (θ v).Ground) ∧ ((¬ ∃ p ∈ ps, p.2.HasVar v) → θ v = .var v) := by
  induction h with
  | nil => exact ⟨fun ⟨_, hp, _⟩ => (List.not_mem_nil hp).elim, fun _ => rfl⟩
  | @bind t w rest θ ground later ih =>
    rw [exists_hasVar_fill ground] at ih
    by_cases eq : v = w
    · subst eq
      have here : andThen (only v t) θ v = t := by
        rw [andThen, only_self]
        exact ground.subst _
      rw [here]
      exact ⟨fun _ => ground, fun none => absurd ⟨_, .head _, .var⟩ none⟩
    · have there : andThen (only w t) θ v = θ v := by rw [andThen, only_of_ne eq, subst_var]
      rw [there]
      refine ⟨fun ⟨p, hp, hv⟩ => ih.1 ⟨eq, ?_⟩, fun none => ih.2 fun ⟨_, p, hp, hv⟩ => ?_⟩
      · rcases List.mem_cons.mp hp with rfl | hp
        · exact absurd (hasVar_var.mp hv) eq
        · exact ⟨p, hp, hv⟩
      · exact none ⟨p, .tail _ hp, hv⟩
  | same ground later ih =>
    refine ⟨fun ⟨p, hp, hv⟩ => ih.1 ?_, fun none => ih.2 fun ⟨p, hp, hv⟩ => none ⟨p, .tail _ hp, hv⟩⟩
    rcases List.mem_cons.mp hp with rfl | hp
    · exact absurd hv (ground v)
    · exact ⟨p, hp, hv⟩
  | leaf value later ih =>
    refine ⟨fun ⟨p, hp, hv⟩ => ih.1 ?_, fun none => ih.2 fun ⟨p, hp, hv⟩ => none ⟨p, .tail _ hp, hv⟩⟩
    rcases List.mem_cons.mp hp with rfl | hp
    · exact absurd hv not_hasVar_leaf
    · exact ⟨p, hp, hv⟩
  | @app op xs ys a b pairs rest θ fits lineup later ih =>
    have same : (∃ p ∈ (Tree.app op xs a, Tree.app op ys b) :: rest, p.2.HasVar v) ↔
        ∃ p ∈ pairs ++ rest, p.2.HasVar v := by
      simp only [List.mem_cons, List.mem_append, or_and_right, exists_or, exists_eq_left]
      rw [lineup.hasVar]
    rw [same]
    exact ih

theorem Matches.ground (h : Matches F ps θ) {p : Tree × Tree} (hp : p ∈ ps) (hv : p.2.HasVar v) :
    (θ v).Ground := (h.spec v).1 ⟨p, hp, hv⟩

theorem Matches.eq_var (h : Matches F ps θ) (hv : ∀ p ∈ ps, ¬ p.2.HasVar v) : θ v = .var v :=
  (h.spec v).2 fun ⟨p, hp, has⟩ => hv p hp has

/-- Nothing is bound when the patterns are ground. -/
theorem Matches.eq_var_of_ground (h : Matches F ps θ) (ground : ∀ p ∈ ps, p.2.Ground) : θ = .var :=
  funext fun v => h.eq_var fun p hp => ground p hp v

/-! ## One pair -/

namespace Matches

theorem refl_all {ts : List Tree} (h : ∀ t ∈ ts, t.Ground) : Matches F (ts.zip ts) .var := by
  induction ts with
  | nil => exact .nil
  | cons t rest ih =>
    rw [List.forall_mem_cons] at h
    exact .same h.1 (ih h.2)

/-- A single pair of applications is matched by a lineup of their operands. -/
theorem app_iff {f g : String} {xs ys : List Tree} {a b : Attrs} (ground : (Tree.app f xs a).Ground) :
    Matches F [(Tree.app f xs a, Tree.app g ys b)] θ ↔ f = g ∧ a.compatible b = true ∧
      ∃ pairs, Lineup F (Tree.app f xs a) (Tree.app g ys b) pairs ∧ Matches F pairs θ := by
  constructor
  · rintro (_ | ⟨-, ⟨⟩⟩ | _ | _ | ⟨fits, lineup, later⟩)
    · refine ⟨rfl, a.compatible_self, _, .pair rfl (.inl rfl), refl_all fun t ht v hv => ?_⟩
      exact ground v (Alike.hasVar_operands.mpr ⟨t, ht, hv⟩)
    · rw [List.append_nil] at later
      exact ⟨rfl, fits, _, lineup, later⟩
  · rintro ⟨rfl, fits, pairs, lineup, later⟩
    exact .app fits lineup (by rwa [List.append_nil])

theorem var_iff (ground : t.Ground) : Matches F [(t, Tree.var v)] θ ↔ θ = only v t := by
  constructor
  · rintro (_ | _ | ⟨-, ⟨⟩⟩)
    · exact absurd .var (ground v)
    · rw [andThen_var]
  · rintro rfl
    have bound : Matches F [(t, Tree.var v)] (andThen (only v t) .var) := .bind ground .nil
    rwa [andThen_var] at bound

theorem leaf_iff {l m : Leaf} :
    Matches F [(Tree.leaf l, Tree.leaf m)] θ ↔ (l = m ∨ l.valueEq m = true) ∧ θ = .var := by
  constructor
  · rintro (_ | ⟨-, ⟨⟩⟩ | _ | ⟨value, ⟨⟩⟩)
    · exact ⟨.inl rfl, rfl⟩
    · exact ⟨.inr value, rfl⟩
  · rintro ⟨rfl | value, rfl⟩
    · exact .same (fun v => not_hasVar_leaf) .nil
    · exact .leaf value .nil

theorem self_iff (ground : t.Ground) : Matches F [(t, t)] θ ↔ θ = .var :=
  ⟨fun h => h.eq_var_of_ground (List.forall_mem_singleton.mpr ground),
    fun eq => eq ▸ .same ground .nil⟩

end Matches

/-! ## Other names for the variables -/

theorem items_rename (ρ : UInt32 → UInt32) (t : Tree) :
    (t.rename ρ).items op = (t.items op).map (rename ρ) := by
  rw [rename, items_subst, List.map_eq_flatMap]
  refine List.flatMap_congr fun u hu => items_of_not_isApp ?_
  have single := not_isApp_of_mem_items hu
  cases u with
  | app f args attrs => rwa [subst_app]
  | _ => exact id

theorem isVar_rename (ρ : UInt32 → UInt32) (t : Tree) : (t.rename ρ).isVar = t.isVar := by
  cases t with
  | app f args attrs =>
    rw [rename_app]
    rfl
  | _ => rfl

theorem operands_rename (ρ : UInt32 → UInt32) (ys : List Tree) :
    operands F op (ys.map (rename ρ)) = (operands F op ys).map (rename ρ) := by
  unfold operands
  split
  · rw [List.flatMap_map, List.map_flatMap]
    exact List.flatMap_congr fun t _ => items_rename ρ t
  · rfl

/-- Give the variables of patterns other numbers. -/
abbrev renameAll (ρ : UInt32 → UInt32) (ps : List (Tree × Tree)) : List (Tree × Tree) :=
  ps.map fun p => (p.1, p.2.rename ρ)

theorem renameAll_zip (ρ : UInt32 → UInt32) (ts us : List Tree) :
    renameAll ρ (ts.zip us) = ts.zip (us.map (rename ρ)) := by
  rw [List.zip_map_right]
  rfl

theorem Lineup.rename (ρ : UInt32 → UInt32) (h : Lineup F t u ps) :
    Lineup F t (u.rename ρ) (renameAll ρ ps) := by
  cases h with
  | @pair op xs ys zs a b length arranged =>
    rw [renameAll_zip, rename_app, ← operands_rename]
    refine .pair ?_ arranged
    rw [operands_rename, List.length_map, length]
  | @group op xs ys ts a b assignment chain longer absorbs length bound ok made =>
    have vars : (operands F op (ys.map (Tree.rename ρ))).map isVar = (operands F op ys).map isVar := by
      rw [operands_rename, List.map_map]
      exact List.map_congr_left fun u _ => isVar_rename ρ u
    have count : (operands F op (ys.map (Tree.rename ρ))).length = (operands F op ys).length := by
      rw [operands_rename, List.length_map]
    rw [renameAll_zip, rename_app, ← operands_rename]
    refine .group chain ?_ ?_ length ?_ ?_ ?_
    · rwa [count]
    · rwa [vars]
    · rwa [count]
    · rwa [vars]
    · rwa [count]

theorem vars_tail {p : Tree × Tree} {rest : List (Tree × Tree)} :
    {v | ∃ q ∈ rest, q.2.HasVar v} ⊆ {v | ∃ q ∈ p :: rest, q.2.HasVar v} :=
  fun _ ⟨q, hq, hv⟩ => ⟨q, .tail _ hq, hv⟩

/-- A match does not depend on how the variables of the patterns are numbered. -/
theorem Matches.rename {ρ : UInt32 → UInt32} (h : Matches F ps θ)
    (inj : Set.InjOn ρ {v | ∃ p ∈ ps, p.2.HasVar v}) :
    ∃ θ', Matches F (renameAll ρ ps) θ' ∧ ∀ v, (∃ p ∈ ps, p.2.HasVar v) → θ' (ρ v) = θ v := by
  induction h with
  | nil => exact ⟨.var, .nil, fun v ⟨_, hp, _⟩ => (List.not_mem_nil hp).elim⟩
  | @same t rest θ ground later ih =>
    obtain ⟨θ', matched, eq⟩ := ih (inj.mono vars_tail)
    refine ⟨θ', ?_, fun v ⟨p, hp, hv⟩ => eq v ?_⟩
    · rw [renameAll, List.map_cons, ground.rename]
      exact .same ground matched
    · rcases List.mem_cons.mp hp with rfl | hp
      · exact absurd hv (ground v)
      · exact ⟨p, hp, hv⟩
  | @bind t w rest θ ground later ih =>
    have here : ∃ p ∈ (t, Tree.var w) :: rest, p.2.HasVar w := ⟨_, .head _, .var⟩
    have there : ∀ {v}, (∃ p ∈ fill (only w t) rest, p.2.HasVar v) →
        v ≠ w ∧ ∃ p ∈ (t, Tree.var w) :: rest, p.2.HasVar v := by
      intro v h
      obtain ⟨ne, p, hp, hv⟩ := (exists_hasVar_fill ground).mp h
      exact ⟨ne, p, .tail _ hp, hv⟩
    obtain ⟨θ', matched, eq⟩ := ih (inj.mono fun v h => (there h).2)
    -- Renaming first or putting in the bound tree first comes to the same.
    have commute : renameAll ρ (fill (only w t) rest) = fill (only (ρ w) t) (renameAll ρ rest) := by
      rw [renameAll, fill, fill, renameAll, List.map_map, List.map_map]
      refine List.map_congr_left fun p hp => Prod.ext rfl ?_
      show (p.2.subst (only w t)).rename ρ = (p.2.rename ρ).subst (only (ρ w) t)
      rw [subst_rename, Tree.rename, subst_subst]
      refine subst_congr fun v hv => ?_
      by_cases same : v = w
      · rw [same, only_self, only_self]
        exact ground.subst _
      · rw [only_of_ne same, only_of_ne (fun h => same (inj ⟨p, .tail _ hp, hv⟩ here h))]
        rfl
    rw [commute] at matched
    refine ⟨_, .bind ground matched, fun v ⟨p, hp, hv⟩ => ?_⟩
    by_cases same : v = w
    · rw [andThen, andThen, same, only_self, only_self, ground.subst, ground.subst]
    · have ne : ρ v ≠ ρ w := fun h => same (inj ⟨p, hp, hv⟩ here h)
      rw [andThen, andThen, only_of_ne same, only_of_ne ne, subst_var, subst_var]
      refine eq v ((exists_hasVar_fill ground).mpr ⟨same, ?_⟩)
      rcases List.mem_cons.mp hp with rfl | hp
      · exact absurd (hasVar_var.mp hv) same
      · exact ⟨p, hp, hv⟩
  | @leaf l m rest θ value later ih =>
    obtain ⟨θ', matched, eq⟩ := ih (inj.mono vars_tail)
    refine ⟨θ', .leaf value matched, fun v ⟨p, hp, hv⟩ => eq v ?_⟩
    rcases List.mem_cons.mp hp with rfl | hp
    · exact absurd hv not_hasVar_leaf
    · exact ⟨p, hp, hv⟩
  | @app op xs ys a b pairs rest θ fits lineup later ih =>
    have same : ∀ v, (∃ p ∈ pairs ++ rest, p.2.HasVar v) ↔
        ∃ p ∈ (Tree.app op xs a, Tree.app op ys b) :: rest, p.2.HasVar v := by
      intro v
      simp only [List.mem_cons, List.mem_append, or_and_right, exists_or, exists_eq_left]
      rw [lineup.hasVar]
    simp only [same] at ih
    obtain ⟨θ', matched, eq⟩ := ih inj
    refine ⟨θ', ?_, eq⟩
    have renamed := lineup.rename ρ
    rw [renameAll, List.map_append] at matched
    rw [rename_app] at renamed
    rw [renameAll, List.map_cons, rename_app]
    exact .app fits renamed matched

end Tree

end Regraft
