import Regraft.Proofs.Rewriting.Effects
import Regraft.Proofs.Rewriting.Pattern

/-
  What rules made of patterns do.
-/

namespace Regraft

open Regraft.Tree (andThen only Matches)

namespace Tree

theorem IsApp.op_eq {t : Tree} {f g : String} (hf : t.IsApp f) (hg : t.IsApp g) : f = g := by
  cases t with
  | app op args attrs => exact Eq.trans (Eq.symm hf) hg
  | _ => cases hf

/-- A pattern and its replacement, and the variable in them that stands for the tree that is
    matched. -/
structure Pattern where
  witness : UInt32
  lhs : Tree
  rhs : Tree

namespace Pattern

/-- The trees that variables get where a pattern matches. -/
def Binds (F : Facts) (p : Pattern) (t : Tree) (σ : UInt32 → Tree) : Prop :=
  ∃ τ, Matches F [(t, p.lhs)] τ ∧ (p.lhs.HasVar p.witness → Agree (τ p.witness) t) ∧
    σ = andThen τ (only p.witness t)

/-- The replacement has only variables of the pattern, and the witness. -/
def Closed (p : Pattern) : Prop := ∀ v, p.rhs.HasVar v → p.lhs.HasVar v ∨ v = p.witness

variable {F : Facts} {p : Pattern} {t : Tree} {σ : UInt32 → Tree} {v : UInt32}

theorem Binds.of_matches (h : Matches F [(t, p.lhs)] σ) (own : ¬ p.lhs.HasVar p.witness) :
    p.Binds F t (andThen σ (only p.witness t)) := ⟨σ, h, fun has => absurd has own, rfl⟩

theorem Binds.ground (h : p.Binds F t σ) (ht : t.Ground) (hv : p.lhs.HasVar v ∨ v = p.witness) :
    (σ v).Ground := by
  obtain ⟨τ, matched, -, rfl⟩ := h
  by_cases has : p.lhs.HasVar v
  · have ground := matched.ground (List.mem_singleton_self _) has
    rw [andThen, ground.subst]
    exact ground
  · obtain rfl := hv.resolve_left has
    rw [andThen, matched.eq_var (List.forall_mem_singleton.mpr has), subst_var, only_self]
    exact ht

theorem Binds.eq_var (h : p.Binds F t σ) (hv : ¬ p.lhs.HasVar v) (ne : v ≠ p.witness) :
    σ v = .var v := by
  obtain ⟨τ, matched, -, rfl⟩ := h
  rw [andThen, matched.eq_var (List.forall_mem_singleton.mpr hv), subst_var, only_of_ne ne]

/-! ### Other names for the variables -/

/-- Give the variables other numbers. -/
def rename (ρ : UInt32 → UInt32) (p : Pattern) : Pattern :=
  ⟨ρ p.witness, p.lhs.rename ρ, p.rhs.rename ρ⟩

/-- The variables of the pattern, with the witness. -/
def vars (p : Pattern) : Set UInt32 := {v | p.lhs.HasVar v ∨ v = p.witness}

/-- The variables of the pattern and of the replacement. -/
def names (p : Pattern) : Set UInt32 := {v | p.lhs.HasVar v ∨ p.rhs.HasVar v ∨ v = p.witness}

theorem vars_subset_names (p : Pattern) : p.vars ⊆ p.names := fun _ hv => hv.imp id .inr

/-- The new numbers of the variables known outside. -/
def Moved (r : UInt32 → UInt32) (outer : UInt32 → Prop) (u : UInt32) : Prop :=
  ∃ v, outer v ∧ r v = u

/-- The variables known outside get their own new numbers, and the others do not get mixed up with
    them. -/
structure Renames (outer : UInt32 → Prop) (r : UInt32 → UInt32) (p : Pattern) (ρ : UInt32 → UInt32) :
    Prop where
  inj : Set.InjOn ρ p.vars
  injOuter : Set.InjOn r {v | outer v}
  follows : ∀ v ∈ p.vars, outer v → ρ v = r v
  apart : ∀ v ∈ p.vars, ¬ outer v → ¬ Moved r outer (ρ v)

variable {outer : UInt32 → Prop} {r ρ : UInt32 → UInt32}

theorem vars_rename : (p.rename ρ).vars = ρ '' p.vars := by
  ext v
  simp only [vars, rename, hasVar_rename, Set.mem_image, Set.mem_ofPred_eq, or_and_right, exists_or,
    exists_eq_left, eq_comm]

/-- What a pattern binds it binds under other names. -/
theorem Binds.rename (h : p.Binds F t σ) (inj : Set.InjOn ρ p.vars) :
    ∃ σ', (p.rename ρ).Binds F t σ' ∧ ∀ v ∈ p.vars, σ' (ρ v) = σ v := by
  obtain ⟨τ, matched, agree, rfl⟩ := h
  obtain ⟨τ', matched', eq⟩ := matched.rename (ρ := ρ) (inj.mono fun v ⟨q, hq, hv⟩ => by
    rw [List.mem_singleton.mp hq] at hv
    exact .inl hv)
  simp only [List.mem_singleton, exists_eq_left] at eq
  have same : ∀ v, p.lhs.HasVar v → (τ v).Ground ∧ τ' (ρ v) = τ v := fun v hv =>
    ⟨matched.ground (List.mem_singleton_self _) hv, eq v hv⟩
  refine ⟨_, ⟨τ', matched', ?_, rfl⟩, ?_⟩
  · intro has
    obtain ⟨v, hv, eq'⟩ := hasVar_rename.mp has
    obtain rfl : p.witness = v := inj (.inr rfl) (.inl hv) eq'
    show Agree (τ' (ρ p.witness)) t
    rw [eq _ hv]
    exact agree hv
  · intro v hv
    by_cases has : p.lhs.HasVar v
    · obtain ⟨ground, eq⟩ := same v has
      rw [andThen, andThen, eq, ground.subst, ground.subst]
    · obtain rfl := hv.resolve_left has
      have new : ¬ (p.lhs.rename ρ).HasVar (ρ p.witness) := by
        intro h
        obtain ⟨v, hv, eq⟩ := hasVar_rename.mp h
        exact has (inj (.inr rfl) (.inl hv) eq ▸ hv)
      rw [andThen, andThen, matched.eq_var (List.forall_mem_singleton.mpr has),
        matched'.eq_var (List.forall_mem_singleton.mpr new), subst_var, subst_var]
      exact (only_self ..).trans (only_self ..).symm

/-! ### Effects -/

open Classical in
/-- What the variables known outside get. -/
noncomputable def keeping (outer : UInt32 → Prop) (σ : UInt32 → Tree) : UInt32 → Tree :=
  fun v => if outer v then σ v else .var v

theorem keeping_of_outer (h : outer v) : keeping outer σ v = σ v := if_pos h

theorem keeping_of_not_outer (h : ¬ outer v) : keeping outer σ v = .var v := if_neg h

/-- The effects of a pattern that is applied to a tree. -/
def effects (F : Facts) (outer : UInt32 → Prop) (p : Pattern) (t : Tree) : Set Effect :=
  (fun σ => ⟨keeping outer σ, p.rhs.subst σ, []⟩) '' {σ | p.Binds F t σ}

theorem Closed.rename (h : p.Closed) : (p.rename ρ).Closed := by
  intro v hv
  obtain ⟨u, hu, rfl⟩ := hasVar_rename.mp hv
  rcases h u hu with has | rfl
  · exact .inl (hasVar_rename.mpr ⟨u, has, rfl⟩)
  · exact .inr rfl

/-- What a pattern binds under other names it binds under its own. -/
theorem Binds.of_rename {σ' : UInt32 → Tree} (h : (p.rename ρ).Binds F t σ')
    (inj : Set.InjOn ρ p.vars) (closed : p.Closed) :
    ∃ σ, p.Binds F t σ ∧ ∀ v ∈ p.vars, σ' (ρ v) = σ v := by
  -- The variables are given their old numbers again.
  let back := Function.invFunOn ρ p.vars
  have inv : ∀ v ∈ p.vars, back (ρ v) = v := fun v hv => inj.leftInvOn_invFunOn hv
  have whole : ∀ t : Tree, (∀ v, t.HasVar v → v ∈ p.vars) → (t.rename ρ).rename back = t := by
    intro t ht
    rw [Tree.rename, subst_rename]
    conv => rhs; rw [← subst_id t]
    exact subst_congr fun v hv => congrArg Tree.var (inv v (ht v hv))
  have same : (p.rename ρ).rename back = p := by
    show (⟨_, _, _⟩ : Pattern) = p
    rw [Pattern.rename, whole _ fun v hv => .inl hv, whole _ closed, inv _ (.inr rfl)]
  have injBack : Set.InjOn back (p.rename ρ).vars := by
    rw [vars_rename]
    rintro _ ⟨v, hv, rfl⟩ _ ⟨u, hu, rfl⟩ eq
    rw [inv v hv, inv u hu] at eq
    rw [eq]
  obtain ⟨σ, binds, eq⟩ := Binds.rename h injBack
  refine ⟨σ, same ▸ binds, fun v hv => ?_⟩
  have := eq (ρ v) (vars_rename ▸ ⟨v, hv, rfl⟩)
  rwa [inv v hv, eq_comm] at this

open Classical in
/-- What the variables known outside get, under their new numbers. -/
noncomputable def carry (r : UInt32 → UInt32) (outer : UInt32 → Prop) (σ : UInt32 → Tree) :
    UInt32 → Tree :=
  fun u => if h : Moved r outer u then (σ h.choose).rename r else .var u

theorem carry_apply (inj : Set.InjOn r {v | outer v}) (hv : outer v) :
    carry r outer σ (r v) = (σ v).rename r := by
  have moved : Moved r outer (r v) := ⟨v, hv, rfl⟩
  have same : moved.choose = v := inj moved.choose_spec.1 hv moved.choose_spec.2
  rw [carry, dif_pos moved, same]

theorem carry_of_not_moved {u : UInt32} (h : ¬ Moved r outer u) : carry r outer σ u = .var u :=
  dif_neg h

/-- The effects of a pattern under other names. -/
theorem Renames.effects_eq (h : Renames outer r p ρ) (closed : p.Closed) (ht : t.Ground) :
    (p.rename ρ).effects F (Moved r outer) t =
      (fun e => { e with binds := carry r outer e.binds }) '' p.effects F outer t := by
  have kept : ∀ {σ σ'}, p.Binds F t σ → (p.rename ρ).Binds F t σ' → (∀ v ∈ p.vars, σ' (ρ v) = σ v) →
      (⟨keeping (Moved r outer) σ', (p.rename ρ).rhs.subst σ', []⟩ : Effect) =
        ⟨carry r outer (keeping outer σ), p.rhs.subst σ, []⟩ := by
    intro σ σ' binds binds' eq
    have result : (p.rhs.rename ρ).subst σ' = p.rhs.subst σ := by
      rw [subst_rename]
      exact subst_congr fun v hv => eq v (closed v hv)
    have bound : keeping (Moved r outer) σ' = carry r outer (keeping outer σ) := by
      funext u
      by_cases moved : Moved r outer u
      · obtain ⟨v, hv, rfl⟩ := moved
        rw [keeping_of_outer ⟨v, hv, rfl⟩, carry_apply h.injOuter hv, keeping_of_outer hv]
        by_cases has : v ∈ p.vars
        · rw [← h.follows v has hv, eq v has, (Binds.ground binds ht has).rename]
        · have new : r v ∉ (p.rename ρ).vars := by
            rw [vars_rename]
            rintro ⟨u, hu, same⟩
            by_cases ho : outer u
            · rw [h.follows u hu ho] at same
              exact has (h.injOuter ho hv same ▸ hu)
            · exact h.apart u hu ho (same ▸ ⟨v, hv, rfl⟩)
          rw [Binds.eq_var binds' (fun has => new (.inl has)) (fun eq => new (.inr eq)),
            Binds.eq_var binds (fun h => has (.inl h)) (fun eq => has (.inr eq))]
          rfl
      · rw [keeping_of_not_outer moved, carry_of_not_moved moved]
    rw [bound]
    exact congrArg (Effect.mk _ · []) result
  refine Set.Subset.antisymm ?_ ?_
  · rintro _ ⟨σ', binds', rfl⟩
    obtain ⟨σ, binds, eq⟩ := Binds.of_rename binds' h.inj closed
    exact ⟨_, ⟨σ, binds, rfl⟩, (kept binds binds' eq).symm⟩
  · rintro _ ⟨_, ⟨σ, binds, rfl⟩, rfl⟩
    obtain ⟨σ', binds', eq⟩ := Binds.rename binds h.inj
    exact ⟨σ', binds', kept binds binds' eq⟩

/-- The effects do not depend on how the other variables are numbered. -/
theorem Renames.effects_eq_self (h : Renames outer id p ρ) (closed : p.Closed) (ht : t.Ground) :
    (p.rename ρ).effects F outer t = p.effects F outer t := by
  have moved : Moved id outer = outer := funext fun u => by simp [Moved]
  have all := h.effects_eq (F := F) closed ht
  rw [moved] at all
  rw [all]
  conv => rhs; rw [← Set.image_id (p.effects F outer t)]
  refine Set.image_congr ?_
  rintro _ ⟨σ, -, rfl⟩
  refine congrArg (Effect.mk · (p.rhs.subst σ) []) (funext fun v => ?_)
  by_cases ho : outer v
  · exact (carry_apply h.injOuter ho).trans (subst_id _)
  · rw [carry_of_not_moved (by rwa [moved]), keeping_of_not_outer ho]

theorem confined_effects (closed : p.Closed) (hw : ¬ outer p.witness) (ht : t.Ground) :
    ∀ e ∈ p.effects F outer t, e.Confined outer := by
  rintro _ ⟨σ, binds, rfl⟩
  refine ⟨fun v hv => ?_, fun v => ?_⟩
  · obtain ⟨u, hu, hv⟩ := hasVar_subst.mp hv
    exact Binds.ground binds ht (closed u hu) v hv
  · by_cases outside : outer v
    · show keeping outer σ v = _ ∨ outer v ∧ (keeping outer σ v).Ground
      rw [keeping_of_outer outside]
      by_cases has : p.lhs.HasVar v
      · exact .inr ⟨outside, Binds.ground binds ht (.inl has)⟩
      · exact .inl (Binds.eq_var binds has (by rintro rfl; exact hw outside))
    · exact .inl (keeping_of_not_outer outside)

/-- Putting in a result for an output binds nothing else. -/
theorem Binds.andThen_of_ne (h : p.Binds F t σ) (ht : t.Ground) {u : Tree} {y : UInt32}
    (ne : y ≠ v) : andThen σ (only v u) y = σ y := by
  by_cases hy : y ∈ p.vars
  · exact (Binds.ground h ht hy).subst _
  · rw [andThen, Binds.eq_var h (fun has => hy (.inl has)) (fun eq => hy (.inr eq)), subst_var,
      only_of_ne ne]

theorem Binds.andThen_self (h : p.Binds F t σ) (hv : v ∉ p.vars) {u : Tree} :
    andThen σ (only v u) v = u := by
  rw [andThen, Binds.eq_var h (fun has => hv (.inl has)) (fun eq => hv (.inr eq)), subst_var,
    only_self]

/-- The effect is read off from what is bound, with the result for the output. -/
theorem effect_eq (h : p.Binds F t σ) (ht : t.Ground) (hv : v ∉ p.vars) (ho : ¬ outer v) {u : Tree} :
    (⟨keeping outer (andThen σ (only v u)), andThen σ (only v u) v, []⟩ : Effect) =
      ⟨keeping outer σ, u, []⟩ := by
  rw [Binds.andThen_self h hv]
  congr 1
  funext y
  by_cases outside : outer y
  · rw [keeping_of_outer outside, keeping_of_outer outside]
    exact Binds.andThen_of_ne h ht (by rintro rfl; exact ho outside)
  · rw [keeping_of_not_outer outside, keeping_of_not_outer outside]

theorem output_eq (closed : p.Closed) (hw : ¬ outer p.witness) (h : p.Binds F t σ) (ht : t.Ground)
    (hv : v ∉ p.vars) (ho : ¬ outer v) {y : UInt32} (hy : outer y ∨ y ∉ p.vars) :
    andThen σ (only v (p.rhs.subst σ)) y =
      (⟨keeping outer σ, p.rhs.subst σ, []⟩ : Effect).output v y := by
  have confined : Effect.Confined outer ⟨keeping outer σ, p.rhs.subst σ, []⟩ :=
    confined_effects closed hw ht _ ⟨σ, h, rfl⟩
  by_cases eq : y = v
  · subst eq
    rw [Binds.andThen_self h hv]
    exact (confined.output_self ho).symm
  · rw [Binds.andThen_of_ne h ht eq]
    refine .trans ?_ (confined.output_of_ne eq).symm
    by_cases outside : outer y
    · exact (keeping_of_outer outside).symm
    · have none := hy.resolve_left outside
      rw [Binds.eq_var h (fun has => none (.inl has)) (fun eq => none (.inr eq))]
      exact (keeping_of_not_outer outside).symm

/-! ### Trees for variables known outside -/

/-- With trees put in for variables. -/
def inst (E : UInt32 → Tree) (p : Pattern) : Pattern := ⟨p.witness, p.lhs.subst E, p.rhs.subst E⟩

/-- Some variables known outside stand for ground trees. -/
def Fixes (outer : UInt32 → Prop) (E : UInt32 → Tree) : Prop :=
  ∀ v, E v = .var v ∨ outer v ∧ (E v).Ground

variable {E : UInt32 → Tree}

theorem Fixes.hasVar (h : Fixes outer E) {u : Tree} (hv : (u.subst E).HasVar v) :
    u.HasVar v ∧ E v = .var v := by
  obtain ⟨w, hw, hv⟩ := hasVar_subst.mp hv
  rcases h w with eq | ⟨-, ground⟩
  · rw [eq, hasVar_var] at hv
    exact hv ▸ ⟨hw, eq⟩
  · exact absurd hv (ground v)

/-- The pattern for a part of a chain, with a variable for the rest. -/
def beside (p : Pattern) (op : String) (rest : UInt32) : Pattern :=
  ⟨p.witness, .app op [p.lhs, .var rest] .unspecified, .app op [p.rhs, .var rest] .unspecified⟩

theorem vars_beside (p : Pattern) (op : String) (k : UInt32) :
    (p.beside op k).vars = insert k p.vars := by
  ext v
  simp [vars, beside]
  tauto

theorem names_beside (p : Pattern) (op : String) (k : UInt32) :
    (p.beside op k).names = insert k p.names := by
  ext v
  simp [names, beside]
  tauto

theorem Closed.beside (h : p.Closed) {op : String} {k : UInt32} : (p.beside op k).Closed := by
  intro v hv
  have left := fun h => Set.ext_iff.mp (vars_beside p op k) v |>.mpr h
  obtain ⟨t, mem, has⟩ := hasVar_app.mp hv
  rcases List.mem_cons.mp mem with rfl | mem
  · exact left (.inr (h v has))
  · obtain rfl := hasVar_var.mp (List.mem_singleton.mp mem ▸ has)
    exact left (.inl rfl)

/-- The patterns that a pattern in a chain comes to: itself, and the one for a part of a chain if
    its operator has chains. -/
inductive Parts (F : Facts) (outer : UInt32 → Prop) (p : Pattern) : Set Pattern → Prop
  | whole (single : ∀ op, p.lhs.IsApp op → F.isChain op = false) : Parts F outer p {p}
  | part {op : String} {k : UInt32} (isApp : p.lhs.IsApp op) (chain : F.isChain op = true)
      (new : k ∉ p.names) (inner : ¬ outer k) : Parts F outer p {p, p.beside op k}

theorem Parts.closed {ps : Set Pattern} (h : Parts F outer p ps) (closed : p.Closed)
    (inner : ¬ outer p.witness) : ∀ q ∈ ps, q.Closed ∧ ¬ outer q.witness := by
  cases h with
  | whole => exact fun q hq => hq ▸ ⟨closed, inner⟩
  | part => exact Set.forall_mem_insert.mpr ⟨⟨closed, inner⟩, fun q hq => hq ▸ ⟨closed.beside, inner⟩⟩

theorem Fixes.vars_inst (h : Fixes outer E) : (p.inst E).vars ⊆ p.vars :=
  fun _ hv => hv.imp (fun has => (h.hasVar has).1) id

theorem Closed.inst (h : p.Closed) (fixes : Fixes outer E) : (p.inst E).Closed := by
  intro v hv
  obtain ⟨has, eq⟩ := fixes.hasVar hv
  refine (h v has).imp (fun has => Tree.hasVar_subst.mpr ⟨v, has, ?_⟩) id
  rw [eq]
  exact .var

end Pattern

end Tree

open Regraft.Tree (Pattern)

namespace Search

variable {F : Facts} {ses ses' : Session} {s s' : Subst} {a b w l r : TermId} {v x : UInt32}

/-- The witness becomes what was matched, if the pattern does not say anything else. -/
theorem witness_gives {τ : UInt32 → Tree} (spot : Spot F ses s a b v)
    (hw : ses.store.term? w = some (.var x)) (unbound : s.get? x = none) (g : ses.Grows ses')
    (matched : Matches F [(s.tree ses.store a, s.tree ses.store l)] τ)
    (solved : Subst.Solves [] ses.store s ses'.store s' τ) :
    Gives True (Solving [] ses.store s) ses' (.apply (.eq w a) s')
      {σ | ((s.tree ses.store l).HasVar x → Tree.Agree (τ x) (s.tree ses.store a)) ∧
        σ = andThen τ (only x (s.tree ses.store a))} := by
  have hs := spot.sound
  have storedW := Store.stored_of_term? hw
  have input := solved.tree_of_ground hs spot.left spot.ground
  have facing : Facing F ses' s' a w := (spot.facing storedW).after g solved
  by_cases has : (s.tree ses.store l).HasVar x
  · have ground := matched.ground (List.mem_singleton_self _) has
    have image : s'.tree ses'.store w = τ x := by
      rw [solved.tree_eq hs storedW, hs.tree_var hw, Subst.image_of_unbound unbound, Tree.subst_var]
    have swapped : Facing F ses' s' w a := facing.part facing.right facing.left (image ▸ ground)
    refine ((Gives.apply (swapped.unify_ground facing.ground)).after solved).congr ?_
    rw [image, input]
    -- The witness is bound already, and putting it in once more changes nothing.
    have same : andThen τ (only x (s.tree ses.store a)) = τ := by
      funext y
      by_cases hy : (s.tree ses.store l).HasVar y
      · exact (matched.ground (List.mem_singleton_self _) hy).subst _
      · rw [andThen, matched.eq_var (List.forall_mem_singleton.mpr hy), Tree.subst_var, Tree.only_of_ne]
        rintro rfl
        exact hy has
    rw [same]
    ext σ
    constructor
    · rintro ⟨_, ⟨agree, rfl⟩, rfl⟩
      exact ⟨fun _ => agree, Tree.andThen_var τ⟩
    · rintro ⟨agree, rfl⟩
      exact ⟨_, ⟨agree has, rfl⟩, Tree.andThen_var σ⟩
  · have open' : s'.get? x = none := solved.get?_eq_none ⟨w, hw⟩ unbound
      (matched.eq_var (List.forall_mem_singleton.mpr has))
    have var := solved.grows.keeps _ _ hw
    have deref := solved.sound.deref_of_unbound var open'
    refine ((Gives.apply (facing.unify_left (deref.symm ▸ var))).after solved).congr ?_
    rw [input, Set.image_singleton]
    exact Set.ext fun σ => (and_iff_right fun no => absurd no has).symm

/-- The pattern matches, then the witness is the input and the output the replacement. -/
theorem exactly_gives (spot : Spot F ses s a b v) (hw : ses.store.term? w = some (.var x))
    (unbound : s.get? x = none) (ne : v ≠ x) (hl : ses.store.Stored l) (hr : ses.store.Stored r)
    (out : ¬ (s.tree ses.store l).HasVar v)
    (closed : Pattern.Closed ⟨x, s.tree ses.store l, s.tree ses.store r⟩) :
    Gives True (Solving [] ses.store s) ses (.apply (Rule.exactly a b w l r) s)
      ((fun σ => andThen σ (only v ((s.tree ses.store r).subst σ))) ''
        {σ | Pattern.Binds F ⟨x, s.tree ses.store l, s.tree ses.store r⟩ (s.tree ses.store a) σ}) := by
  have hs := spot.sound
  refine .apply fun ses₁ l₁ _ => ⟨.refl ses₁, fun _ => Gives.later ?_ l₁⟩
  show Gives True _ ses (.bind (.bind (.apply (.modulo a l) s) (.eq w a)) (.eq b r)) _
  have both : Gives True (Solving [] ses.store s) ses (.bind (.apply (.modulo a l) s) (.eq w a))
      {σ | Pattern.Binds F ⟨x, s.tree ses.store l, s.tree ses.store r⟩ (s.tree ses.store a) σ} := by
    refine ((modulo_gives (spot.facing hl)).bind fun τ matched ses' s' l' solved =>
      witness_gives spot hw unbound l'.grows matched solved).congr (Set.ext fun σ => ?_)
    simp only [Set.mem_iUnion, exists_prop]
    rfl
  refine (both.bind (C := fun σ => {andThen σ (only v ((s.tree ses.store r).subst σ))})
    fun σ mem ses' s' l' solved => ?_).congr ?_
  · have result : s'.tree ses'.store r = (s.tree ses.store r).subst σ := solved.tree_eq hs hr
    have ground : (s'.tree ses'.store r).Ground := by
      intro y hy
      rw [result, Tree.hasVar_subst] at hy
      obtain ⟨z, hz, hy⟩ := hy
      exact Pattern.Binds.ground mem spot.ground (closed z hz) y hy
    have open' : s'.get? v = none :=
      solved.get?_eq_none ⟨b, spot.out⟩ spot.unbound (Pattern.Binds.eq_var mem out ne)
    have var := solved.grows.keeps _ _ spot.out
    have facing : Facing F ses' s' r b := ⟨l'.grows.facts.trans spot.facts, solved.sound, solved.free,
      solved.grows.stored hr, Store.stored_of_term? var, ground⟩
    have deref := solved.sound.deref_of_unbound var open'
    refine ((Gives.apply (facing.unify_left (deref.symm ▸ var))).after solved).congr ?_
    rw [result, Set.image_singleton]
  · ext θ
    simp only [Set.mem_iUnion, Set.mem_singleton_iff, Set.mem_image, exists_prop]
    exact exists_congr fun σ => and_congr_right fun _ => eq_comm

/-! ## Patterns that are made -/

variable {base ses₂ : Session} {outer : UInt32 → Prop} {p : Pattern} {E : UInt32 → Tree}

/-- A pattern has been made with new variables, but for those known outside. -/
structure Made (outer : UInt32 → Prop) (p : Pattern) (ses : Session) (w : TermId)
    (pair : (TermId × TermId) × Session) : Prop where
  later : ses.Later pair.2
  left : pair.2.store.Stored pair.1.1
  right : pair.2.store.Stored pair.1.2
  named : ses.store.Tidy → pair.2.store.Roomy → ∃ ρ : UInt32 → UInt32, Set.InjOn ρ p.names ∧
    (∀ v ∈ p.names, outer v → ρ v = v) ∧ (∀ v ∈ p.names, ¬ outer v → ¬ ses.store.Knows (ρ v)) ∧
    pair.2.store.term? w = some (.var (ρ p.witness)) ∧
    pair.2.store.tree pair.1.1 = p.lhs.rename ρ ∧ pair.2.store.tree pair.1.2 = p.rhs.rename ρ

/-- An action makes a pattern anew in all sessions later than `base`. -/
structure Makes (base : Session) (outer : UInt32 → Prop) (build : TermId → SessionM (TermId × TermId))
    (p : Pattern) : Prop where
  inner : ¬ outer p.witness
  makes : ∀ ses, base.Later ses → ses.store.Valid →
    Made outer p ses (Session.fresh ses).1 (build (Session.fresh ses).1 (Session.fresh ses).2)

variable {pair : (TermId × TermId) × Session}

/-- The pattern that has been made has its effects. -/
theorem Made.gives (h : Made outer p ses w pair) (tidy : ses.store.Tidy)
    (room : pair.2.store.Roomy) (closed : (p.inst E).Closed) (inner : ¬ outer p.witness) (known : ∀ v, outer v → ses.store.Knows v)
    (spot : Spot F ses s a b v) (hv : ¬ outer v) (fixes : Pattern.Fixes outer E)
    (images : ∀ w, outer w → s.image ses.store w = E w) :
    Gives True (Affecting ses.store s v) pair.2 (.apply (Rule.exactly a b w pair.1.1 pair.1.2) s)
      ((p.inst E).effects F outer (s.tree ses.store a)) := by
  obtain ⟨ρ, inj, stays, new, witness, left, right⟩ := h.named tidy room
  have g := h.later.grows
  have hs := spot.sound
  have spot' := spot.grows g
  have sub : (p.inst E).vars ⊆ p.names := fixes.vars_inst.trans p.vars_subset_names
  have unbound : ∀ y, ¬ ses.store.Knows y → s.get? y = none := by
    intro y hy
    by_contra some
    obtain ⟨u, hu⟩ := Option.ne_none_iff_exists'.mp some
    exact hy (spot.within y u hu)
  -- Under the substitution the pattern is the given one under other names.
  have tree : ∀ {u : TermId} {t : Tree}, pair.2.store.tree u = t.rename ρ →
      (∀ y, t.HasVar y → y ∈ p.names) → s.tree pair.2.store u = (t.subst E).rename ρ := by
    intro u t eq ht
    rw [spot'.sound.tree_eq_subst, eq, Tree.subst_rename, Tree.rename, Tree.subst_subst]
    refine Tree.subst_congr fun y hy => ?_
    by_cases ho : outer y
    · rw [stays y (ht y hy) ho, image_grows hs g.store, images y ho]
      rcases fixes y with eq | ⟨-, ground⟩
      · rw [eq, Tree.subst_var, stays y (ht y hy) ho]
      · exact (ground.subst _).symm
    · rw [Subst.image_of_unbound (unbound _ (new y (ht y hy) ho)),
        (fixes y).resolve_right fun h => ho h.1, Tree.subst_var]
  have left := tree left fun y hy => .inl hy
  have right := tree right fun y hy => .inr (.inl hy)
  have renames : Pattern.Renames outer id (p.inst E) ρ := by
    refine ⟨inj.mono sub, Set.injOn_id _, fun y hy => stays y (sub hy), ?_⟩
    rintro y hy ho ⟨_, h', rfl⟩
    exact new y (sub hy) ho (known _ h')
  -- A variable that was known and is in the pattern is known outside of it.
  have apart : ∀ y, ses.store.Knows y → ¬ outer y → y ∉ ((p.inst E).rename ρ).vars := by
    intro y hy ho
    rw [Pattern.vars_rename]
    rintro ⟨z, hz, rfl⟩
    by_cases h' : outer z
    · exact ho ((renames.follows z hz h').symm ▸ h')
    · exact new z (sub hz) h' hy
  have open' : s.get? (ρ p.witness) = none := unbound _ (new _ (.inr (.inr rfl)) inner)
  have out := apart v ⟨b, spot.out⟩ hv
  have gives := exactly_gives spot' witness open' (fun eq => out (.inr eq)) h.left
    h.right (left ▸ fun has => out (.inl has)) (by
      rw [left, right]
      exact closed.rename)
  rw [left, right, hs.tree_grows g.store spot.left] at gives
  rw [← renames.effects_eq_self closed spot.ground]
  refine (gives.map (fun θ => (⟨Pattern.keeping outer θ, θ v, []⟩ : Tree.Effect)) ?_ id).congr ?_
  · rintro ses₁ s₁ _ ⟨σ, binds, rfl⟩ solved
    rw [Pattern.effect_eq binds spot.ground out hv]
    refine (solved.back hs spot.free g.store).congr fun y hy _ => ?_
    refine Pattern.output_eq closed.rename
      (fun ho => renames.apart _ (.inr rfl) inner ⟨_, ho, rfl⟩) binds spot.ground out hv ?_
    by_cases ho : outer y
    · exact .inl ho
    · exact .inr (apart y hy ho)
  · rw [Set.image_image]
    exact Set.image_congr fun σ binds => Pattern.effect_eq binds spot.ground out hv

/-- A rule made of a pattern has the effects of the pattern. -/
theorem pattern_relates {build : TermId → SessionM (TermId × TermId)} (name : String)
    (h : Makes base outer build p) (known : ∀ v, outer v → base.store.Knows v)
    (fixes : Pattern.Fixes outer E) (closed : (p.inst E).Closed) :
    Relates True base outer E (Rule.pattern name build).relate
      ((p.inst E).effects base.facts outer) where
  known := known
  confined _ ht := Pattern.confined_effects closed h.inner ht
  gives {ses _ _ _ _} l spot hv images := by
    have made := h.makes ses l spot.sound.valid
    exact ⟨made.later, fun tidy room => made.gives tidy room closed h.inner
      (fun v hv => l.grows.store.knows (known v hv)) spot hv fixes images⟩

/-! ## Parts of chains -/

/-- Alternatives have their outcomes together. -/
theorem disj_gives {O : Type} {still : Prop} {I : Session → Subst → O → Prop}
    {goals : List (Goal × Set O)} (h : ∀ g ∈ goals, Gives still I ses (.apply g.1 s) g.2) :
    Gives still I ses (.apply (.disj (goals.map Prod.fst)) s) (⋃ g ∈ goals, g.2) := by
  match goals with
  | [] =>
    refine .apply fun ses' _ _ => ⟨.refl ses', fun _ => Gives.empty.congr ?_⟩
    simp
  | [g] => exact (h g (.head _)).congr (by simp)
  | g :: g' :: rest =>
    refine .apply fun ses' l _ => ⟨.refl ses', fun _ => Gives.later ?_ l⟩
    show Gives still I ses (union (((g :: g' :: rest).map Prod.fst).map fun g => .apply g s)) _
    generalize g :: g' :: rest = goals at h
    have each : ∀ b ∈ goals.map fun g => (Search.apply g.1 s, g.2), Gives still I ses b.1 b.2 :=
      List.forall_mem_map.mpr h
    have all := Gives.union each
    rw [List.map_map] at all ⊢
    refine all.congr ?_
    simp only [List.mem_map, Set.iUnion_exists, Set.biUnion_and', Set.iUnion_iUnion_eq_right]

theorem Gives.disj {O : Type} {still : Prop} {I : Session → Subst → O → Prop} {g g' : Goal}
    {A B : Set O} (h : Gives still I ses (.apply g s) A) (h' : Gives still I ses (.apply g' s) B) :
    Gives still I ses (.apply (.disj [g, g']) s) (A ∪ B) := by
  have both : ∀ p ∈ [(g, A), (g', B)], Gives still I ses (.apply p.1 s) p.2 :=
    List.forall_mem_cons.mpr ⟨h, List.forall_mem_singleton.mpr h'⟩
  exact (disj_gives both).congr (by simp)

/-- The variables of a pattern that has been made are stored. -/
theorem knows_of_names (hv : pair.2.store.Valid) {ρ : UInt32 → UInt32}
    (witness : pair.2.store.term? w = some (.var (ρ p.witness)))
    (left : pair.2.store.tree pair.1.1 = p.lhs.rename ρ)
    (right : pair.2.store.tree pair.1.2 = p.rhs.rename ρ) : ∀ y ∈ p.names, pair.2.store.Knows (ρ y) := by
  have hs := Subst.Sound.empty hv
  rw [← Subst.tree_empty hv] at left right
  rintro y (has | has | rfl)
  · exact hs.knows_of_hasVar (left ▸ Tree.hasVar_rename.mpr ⟨y, has, rfl⟩)
  · exact hs.knows_of_hasVar (right ▸ Tree.hasVar_rename.mpr ⟨y, has, rfl⟩)
  · exact ⟨w, witness⟩

/-- The pattern has been made with the rest of a chain beside it. -/
theorem Made.beside {op : String} {rest l' r' : TermId} {k x : UInt32}
    (h : Made outer p ses w pair) (hv : pair.2.store.Valid) (hk : k ∉ p.names) (inner : ¬ outer k)
    (new : ses.store.Tidy → pair.2.store.Roomy → ¬ pair.2.store.Knows x) (later : pair.2.Later ses₂)
    (var : ses₂.store.term? rest = some (.var x))
    (left : ses₂.store.term? l' = some (.app op [pair.1.1, rest] .unspecified))
    (right : ses₂.store.term? r' = some (.app op [pair.1.2, rest] .unspecified)) :
    Made outer (p.beside op k) ses w ((l', r'), ses₂) where
  later := h.later.trans later
  left := Store.stored_of_term? left
  right := Store.stored_of_term? right
  named tidy room := by
    have g := later.grows
    have room := Store.Roomy.of_grows g.store room
    obtain ⟨ρ, inj, stays, fresh, witness, treeLeft, treeRight⟩ := h.named tidy room
    replace new := new tidy room
    have hv₂ := g.store.valid hv
    -- The variables of the pattern are stored already, so the rest is none of them.
    have ne : ∀ y ∈ p.names, ρ y ≠ x := by
      rintro y hy rfl
      exact new (knows_of_names hv witness treeLeft treeRight y hy)
    have same : ∀ y ∈ p.names, Function.update ρ k x y = ρ y := by
      intro y hy
      exact Function.update_of_ne (by rintro rfl; exact hk hy) ..
    have renamed : ∀ t : Tree, (∀ y, t.HasVar y → y ∈ p.names) →
        t.rename (Function.update ρ k x) = t.rename ρ := fun t ht =>
      Tree.subst_congr fun y hy => congrArg Tree.var (same y (ht y hy))
    have all := Pattern.names_beside p op k
    refine ⟨Function.update ρ k x, ?_, ?_, ?_, ?_, ?_, ?_⟩
    · rw [all, Set.injOn_insert hk]
      refine ⟨fun y hy z hz eq => inj hy hz (by rwa [same y hy, same z hz] at eq), ?_⟩
      rintro ⟨y, hy, eq⟩
      rw [same y hy, Function.update_self] at eq
      exact ne y hy eq
    · rw [all, Set.forall_mem_insert]
      exact ⟨fun ho => absurd ho inner, fun y hy ho => (same y hy).trans (stays y hy ho)⟩
    · rw [all, Set.forall_mem_insert, Function.update_self]
      exact ⟨fun _ known => new (h.later.grows.store.knows known), fun y hy ho => same y hy ▸ fresh y hy ho⟩
    · rw [Pattern.beside, same _ (.inr (.inr rfl))]
      exact g.store.keeps _ _ witness
    · rw [hv₂.tree_app left, List.map_cons, List.map_singleton, hv₂.tree_var var,
        g.store.tree_eq hv h.left, treeLeft, Pattern.beside, Tree.rename_app, List.map_cons,
        List.map_singleton, renamed _ fun y hy => .inl hy]
      simp [Tree.rename]
    · rw [hv₂.tree_app right, List.map_cons, List.map_singleton, hv₂.tree_var var,
        g.store.tree_eq hv h.right, treeRight, Pattern.beside, Tree.rename_app, List.map_cons,
        List.map_singleton, renamed _ fun y hy => .inr (.inl hy)]
      simp [Tree.rename]

/-- A chain is recognised by the operator of the pattern. -/
theorem isApp_of_chainOperator {op : String} {u : TermId} {t : Tree} {ρ : UInt32 → UInt32}
    (hv : ses.store.Valid) (tree : ses.store.tree u = t.rename ρ)
    (some : Rule.chainOperator ses u = some op) : t.IsApp op ∧ ses.facts.isChain op = true := by
  obtain ⟨chain, args, attrs, app⟩ := Script.chainOperator_eq_some some
  refine ⟨?_, chain⟩
  rw [hv.tree_app app] at tree
  cases t with
  | app f ts attrs =>
    rw [Tree.rename_app] at tree
    exact (Tree.app.inj tree).1.symm
  | _ => cases tree

/-- The operator of a chain is that of the pattern. -/
theorem Made.chainOperator_iff {op : String} (h : Made outer p ses w pair)
    (tidy : ses.store.Tidy) (room : pair.2.store.Roomy) (hv : pair.2.store.Valid) :
    Rule.chainOperator pair.2 pair.1.1 = some op ↔
      p.lhs.IsApp op ∧ pair.2.facts.isChain op = true := by
  obtain ⟨ρ, -, -, -, -, tree, -⟩ := h.named tidy room
  refine ⟨isApp_of_chainOperator hv tree, ?_⟩
  rintro ⟨isApp, chain⟩
  generalize p.lhs = t at tree isApp
  cases t with
  | app f ts attrs =>
    obtain rfl : f = op := isApp
    obtain ⟨args, app, -⟩ := hv.term?_of_tree_app (tree.trans (Tree.rename_app ..))
    unfold Rule.chainOperator
    rw [Store.app?_eq_some_iff.mpr app]
    exact if_pos chain
  | _ => cases isApp

/-- The terms for a part of a chain, made with a new variable for the rest. -/
def withRest (op : String) (pair : (TermId × TermId) × Session) : (TermId × TermId) × Session :=
  let rest := Session.fresh pair.2
  let left := Session.onStore (Store.app op [pair.1.1, rest.1] .unspecified) rest.2
  let right := Session.onStore (Store.app op [pair.1.2, rest.1] .unspecified) left.2
  ((left.1, right.1), right.2)

theorem withRest_spec (op : String) (left : pair.2.store.Stored pair.1.1)
    (right : pair.2.store.Stored pair.1.2) : pair.2.Later (withRest op pair).2 ∧
      ∃ rest, (withRest op pair).2.store.term? rest = some (.var pair.2.store.nextVar) ∧
        (withRest op pair).2.store.term? (withRest op pair).1.1 =
          some (.app op [pair.1.1, rest] .unspecified) ∧
        (withRest op pair).2.store.term? (withRest op pair).1.2 =
          some (.app op [pair.1.2, rest] .unspecified) := by
  have l₁ := Session.fresh_later pair.2
  have var : (Session.fresh pair.2).2.store.term? (Session.fresh pair.2).1 =
    some (.var pair.2.store.nextVar) := Store.term?_fresh _
  unfold withRest
  dsimp only
  generalize (Session.fresh pair.2).1 = rest at var ⊢
  generalize (Session.fresh pair.2).2 = ses₁ at l₁ var ⊢
  have pairs : ∀ {ses₀ : Session} {t u : TermId}, ses₀.store.Stored t → ses₀.store.Stored u →
      ses₀.Keeps (Session.onStore (Store.app op [t, u] .unspecified) ses₀).2 := by
    intro ses₀ t u ht hu
    refine Session.app_keeps ?_
    simp only [List.mem_cons, List.not_mem_nil, or_false, forall_eq_or_imp, forall_eq]
    exact ⟨ht, hu⟩
  have stored := Store.stored_of_term? var
  have l₂ := pairs (l₁.grows.store.stored left) stored
  have first : (Session.onStore (Store.app op [pair.1.1, rest] .unspecified) ses₁).2.store.term?
    (Session.onStore (Store.app op [pair.1.1, rest] .unspecified) ses₁).1 = _ := Store.term?_app ..
  generalize Session.onStore (Store.app op [pair.1.1, rest] .unspecified) ses₁ = made at l₂ first ⊢
  have l₃ := pairs ((l₁.grows.trans l₂.grows).store.stored right) (l₂.grows.store.stored stored)
  refine ⟨(l₁.trans l₂.later).trans l₃.later, rest, ?_, ?_, Store.term?_app ..⟩
  · exact (l₂.grows.trans l₃.grows).store.keeps _ _ var
  · exact l₃.grows.store.keeps _ _ first

theorem Made.withRest {op : String} {k : UInt32} (h : Made outer p ses w pair)
    (hv : ses.store.Valid) (hk : k ∉ p.names) (inner : ¬ outer k) :
    Made outer (p.beside op k) ses w (Search.withRest op pair) := by
  obtain ⟨later, rest, var, left, right⟩ := withRest_spec op h.left h.right
  exact h.beside (h.later.grows.store.valid hv) hk inner
    (fun tidy room => (h.later.tidy tidy room).not_knows_fresh) later var left right

variable {build : TermId → SessionM (TermId × TermId)} {ps : Set Pattern}

/-- A pattern in a chain has the effects of the pattern, and those beside the rest of a longer
    chain. -/
theorem patternInChain_relates (name : String) (h : Makes base outer build p) (closed : p.Closed)
    (known : ∀ v, outer v → base.store.Knows v) (fixes : Pattern.Fixes outer E)
    (parts : p.Parts base.facts outer ps) :
    Relates True base outer E (Rule.patternInChain name build).relate fun t =>
      ⋃ q ∈ ps, (q.inst E).effects base.facts outer t where
  known := known
  confined t ht e he := by
    simp only [Set.mem_iUnion, exists_prop] at he
    obtain ⟨q, hq, he⟩ := he
    obtain ⟨closed, inner⟩ := parts.closed closed h.inner q hq
    exact Pattern.confined_effects (closed.inst fixes) inner ht e he
  gives {ses s a b v} l spot hv images := by
    have made := h.makes ses l spot.sound.valid
    have known : ∀ v, outer v → ses.store.Knows v := fun v hv => l.grows.store.knows (known v hv)
    rw [Script.patternInChain_relate, Script.chainGoal_apply]
    generalize (Session.fresh ses).1 = w at made ⊢
    generalize build w (Session.fresh ses).2 = pair at made ⊢
    have hv' := made.later.grows.store.valid spot.sound.valid
    have facts : pair.2.facts = base.facts := made.later.grows.facts.trans l.grows.facts
    have whole := fun tidy room => made.gives tidy room (closed.inst fixes) h.inner known spot hv fixes images
    split
    · rename_i none
      refine ⟨made.later, fun tidy room => ?_⟩
      cases parts with
      | whole => exact (whole tidy room).congr (by simp)
      | part isApp chain hk inner =>
        rw [(made.chainOperator_iff tidy room hv').mpr ⟨isApp, facts ▸ chain⟩] at none
        cases none
    · rename_i f some
      have l' := (withRest_spec f made.left made.right).1
      refine ⟨made.later.trans l', fun tidy room => ?_⟩
      have room' := Store.Roomy.of_grows l'.grows.store room
      obtain ⟨isApp', chain'⟩ := (made.chainOperator_iff tidy room' hv').mp some
      cases parts with
      | whole single =>
        rw [facts, single f isApp'] at chain'
        cases chain'
      | part isApp chain hk inner =>
        obtain rfl := isApp'.op_eq isApp
        have part := (made.withRest spot.sound.valid hk inner).gives tidy room
          (closed.beside.inst fixes) h.inner known spot hv fixes images
        show Gives True _ (withRest f pair).2 (.apply (.disj [_, Rule.exactly a b w
          (withRest f pair).1.1 (withRest f pair).1.2]) s) _
        exact (((whole tidy room').later l').disj part).congr (by simp)

/-! ## Alternatives -/

variable {still : Prop}

/-- The goals of rules one after the other, with the effects of each. -/
theorem relateAll_gives {rules : List (Rule × (Tree → Set Tree.Effect))}
    (h : ∀ r ∈ rules, Relates still base outer E r.1.relate r.2) (l : base.Later ses)
    (spot : Spot base.facts ses s a b v) (hv : ¬ outer v)
    (images : ∀ w, outer w → s.image ses.store w = E w) :
    ses.Later (Rule.relateAll a b (rules.map Prod.fst) ses).2 ∧ (ses.store.Tidy →
      (Rule.relateAll a b (rules.map Prod.fst) ses).2.store.Roomy →
        ∃ goals : List (Goal × Set Tree.Effect),
          goals.map Prod.fst = (Rule.relateAll a b (rules.map Prod.fst) ses).1 ∧
          goals.map Prod.snd = rules.map (fun r => r.2 (s.tree ses.store a)) ∧
          ∀ g ∈ goals, Gives still (Affecting ses.store s v)
            (Rule.relateAll a b (rules.map Prod.fst) ses).2 (.apply g.1 s) g.2) := by
  induction rules generalizing ses with
  | nil => exact ⟨.refl ses, fun _ _ => ⟨[], rfl, rfl, nofun⟩⟩
  | cons r rest ih =>
    rw [List.forall_mem_cons] at h
    obtain ⟨l₁, first⟩ := h.1.gives l spot hv images
    have hs := spot.sound
    obtain ⟨l₂, others⟩ := ih h.2 (l.trans l₁) (spot.grows l₁.grows)
      fun w hw => (image_grows hs l₁.grows.store w).trans (images w hw)
    show ses.Later (Rule.relateAll a b (rest.map Prod.fst) (r.1.relate a b ses).2).2 ∧ (_ →
      (Rule.relateAll a b (rest.map Prod.fst) (r.1.relate a b ses).2).2.store.Roomy → ∃ goals : List (Goal × Set Tree.Effect),
        goals.map Prod.fst = (r.1.relate a b ses).1 ::
          (Rule.relateAll a b (rest.map Prod.fst) (r.1.relate a b ses).2).1 ∧ _ ∧ ∀ g ∈ goals,
            Gives still _ (Rule.relateAll a b (rest.map Prod.fst) (r.1.relate a b ses).2).2 _ _)
    refine ⟨l₁.trans l₂, fun tidy room => ?_⟩
    have room₁ := Store.Roomy.of_grows l₂.grows.store room
    obtain ⟨goals, goal, sets, gives⟩ := others (l₁.tidy tidy room₁) room
    refine ⟨((r.1.relate a b ses).1, r.2 (s.tree ses.store a)) :: goals, ?_, ?_, ?_⟩
    · rw [List.map_cons, goal]
    · rw [List.map_cons, sets, hs.tree_grows l₁.grows.store spot.left]
      rfl
    · rw [List.forall_mem_cons]
      exact ⟨(first tidy room₁).later l₂, fun g hg => (gives g hg).affect hs spot.free l₁.grows.store⟩

/-- Any of some rules has the effects of all. -/
theorem any_relates (name : String) {rules : List (Rule × (Tree → Set Tree.Effect))}
    (known : ∀ v, outer v → base.store.Knows v)
    (h : ∀ r ∈ rules, Relates still base outer E r.1.relate r.2) :
    Relates still base outer E (Rule.any name (rules.map Prod.fst)).relate
      fun t => ⋃ r ∈ rules, r.2 t where
  known := known
  confined t ht e he := by
    simp only [Set.mem_iUnion, exists_prop] at he
    obtain ⟨r, hr, he⟩ := he
    exact (h r hr).confined t ht e he
  gives {ses s a b v} l spot hv images := by
    obtain ⟨later, all⟩ := relateAll_gives h l spot hv images
    refine ⟨later, fun tidy room => ?_⟩
    obtain ⟨goals, goal, sets, gives⟩ := all tidy room
    show Gives still _ (Rule.relateAll a b (rules.map Prod.fst) ses).2
      (.apply (.disj (Rule.relateAll a b (rules.map Prod.fst) ses).1) s) _
    rw [← goal]
    refine (disj_gives gives).congr (Set.ext fun e => ?_)
    have left : (∃ g ∈ goals, e ∈ g.2) ↔ ∃ A ∈ goals.map Prod.snd, e ∈ A := by
      simp only [List.mem_map, exists_exists_and_eq_and]
    simp only [Set.mem_iUnion, exists_prop]
    rw [left, sets]
    simp only [List.mem_map, exists_exists_and_eq_and]

end Search

open Search (Makes Relates)

/-- Rules made of patterns, in chains or not, and of alternatives of such rules, with all their
    patterns. The replacements have no variables but those of their patterns and the witness. -/
inductive Rule.OfPatterns (base : Session) (outer : UInt32 → Prop) : Rule → Set Pattern → Prop
  | pattern {build : TermId → SessionM (TermId × TermId)} {p : Pattern} (name : String)
      (makes : Makes base outer build p) (closed : p.Closed) :
      OfPatterns base outer (Rule.pattern name build) {p}
  | patternInChain {build : TermId → SessionM (TermId × TermId)} {p : Pattern} {ps : Set Pattern}
      (name : String) (makes : Makes base outer build p) (closed : p.Closed)
      (parts : p.Parts base.facts outer ps) :
      OfPatterns base outer (Rule.patternInChain name build) ps
  | any (name : String) {rules : List (Rule × Set Pattern)}
      (all : ∀ r ∈ rules, OfPatterns base outer r.1 r.2) :
      OfPatterns base outer (Rule.any name (rules.map Prod.fst)) (⋃ r ∈ rules, r.2)

/-- A rule made of patterns has the effects of the patterns. -/
theorem Rule.OfPatterns.relates {base : Session} {outer : UInt32 → Prop} {E : UInt32 → Tree}
    {rule : Rule} {ps : Set Pattern} (h : rule.OfPatterns base outer ps)
    (known : ∀ v, outer v → base.store.Knows v) (fixes : Pattern.Fixes outer E) :
    Relates True base outer E rule.relate fun t => ⋃ q ∈ ps, (q.inst E).effects base.facts outer t := by
  induction h with
  | pattern name makes closed =>
    exact (Search.pattern_relates name makes known fixes (closed.inst fixes)).congr fun t => by
      rw [Set.biUnion_singleton]
  | patternInChain name makes closed parts =>
    exact Search.patternInChain_relates name makes closed known fixes parts
  | @any name rules all ih =>
    have alternatives := Search.any_relates name known (List.forall_mem_map.mpr ih :
      ∀ r ∈ rules.map fun r => (r.1, fun t => ⋃ q ∈ r.2, (q.inst E).effects base.facts outer t),
        Relates True base outer E r.1.relate r.2)
    rw [List.map_map] at alternatives
    refine alternatives.congr fun t => Set.ext fun e => ?_
    simp only [Set.mem_iUnion, exists_prop, List.mem_map, exists_exists_and_eq_and]
    exact ⟨fun ⟨r, hr, q, hq, he⟩ => ⟨q, ⟨r, hr, hq⟩, he⟩,
      fun ⟨q, ⟨r, hr, hq⟩, he⟩ => ⟨r, hr, q, hq, he⟩⟩

end Regraft
