import Regraft.Proofs.Rewriting.Exactly

/-
  Patterns that are rewritten in turn, on trees. Each is rewritten at one place of what the one before
  gave, and the variables that the patterns share keep what they have got (`Pattern.InTurn`). The
  invariant is that a shared variable stands for itself or for a ground tree (`Settled`). So in the end
  all patterns have been rewritten under a single assignment (`InTurn.together`), and nothing depends on how
  the variables are numbered (`inTurn_eq_image`).
-/

namespace Regraft.Tree

variable {F : Facts} {t x y mid : Tree} {v : UInt32}

namespace Effect

/-- Nothing is done. -/
def idle (t : Tree) : Effect := ⟨.var, t, []⟩

/-- An effect, and another one on its result. -/
def followedBy (e e' : Effect) : Effect := ⟨andThen e.binds e'.binds, e'.result, e.sites ++ e'.sites⟩

/-- The same done to variables with other numbers. -/
noncomputable def carry (r : UInt32 → UInt32) (shared : UInt32 → Prop) (e : Effect) : Effect :=
  { e with binds := Pattern.carry r shared e.binds }

variable {shared : UInt32 → Prop} {e e' e'' : Effect}

theorem followedBy_idle (e : Effect) : e.followedBy (idle e.result) = e := by
  rw [followedBy, idle, andThen_var, List.append_nil]

theorem followedBy_assoc : (e.followedBy e').followedBy e'' = e.followedBy (e'.followedBy e'') := by
  simp only [followedBy, andThen_assoc, List.append_assoc]

theorem confined_idle (ht : t.Ground) : (idle t).Confined shared := ⟨ht, fun _ => .inl rfl⟩

theorem Confined.followedBy (h : e.Confined shared) (h' : e'.Confined shared) :
    (e.followedBy e').Confined shared where
  ground := h'.ground
  binds v := by
    show (e.binds v).subst e'.binds = .var v ∨ shared v ∧ ((e.binds v).subst e'.binds).Ground
    rcases h.binds v with eq | ⟨hv, ground⟩
    · rw [eq, subst_var]
      exact h'.binds v
    · rw [ground.subst]
      exact .inr ⟨hv, ground⟩

end Effect

/-- Effects that differ in what they bind also do so somewhere in a tree. -/
theorem anywhere_image {R R' : Tree → Set Effect} {f : (UInt32 → Tree) → UInt32 → Tree}
    (h : ∀ x : Tree, x.Ground → R' x = (fun e => { e with binds := f e.binds }) '' R x) (ht : t.Ground) :
    anywhere R' t = (fun e => { e with binds := f e.binds }) '' anywhere R t := by
  ext ⟨binds, result, sites⟩
  constructor
  · rintro ⟨path, x, e', mem, replaces, rfl, rfl⟩
    rw [h x (replaces.ground_left ht)] at mem
    obtain ⟨e, mem, rfl⟩ := mem
    exact ⟨⟨e.binds, result, _⟩, ⟨path, x, e, mem, replaces, rfl, rfl⟩, rfl⟩
  · rintro ⟨⟨binds, result, sites⟩, ⟨path, x, e, mem, replaces, rfl, rfl⟩, eq⟩
    cases eq
    refine ⟨path, x, { e with binds := f e.binds }, ?_, replaces, rfl, rfl⟩
    rw [h x (replaces.ground_left ht)]
    exact ⟨e, mem, rfl⟩

namespace Pattern

variable {shared : UInt32 → Prop} {E σ : UInt32 → Tree} {p q : Pattern} {ps qs : List Pattern} {e e' : Effect}

/-- Patterns are rewritten in turn: each matches at one place of what the one before gave, with the trees
    that the shared variables have got so far, and is replaced there. -/
inductive InTurn (F : Facts) (shared : UInt32 → Prop) :
    List Pattern → (UInt32 → Tree) → Tree → Effect → Prop
  | nil {E : UInt32 → Tree} {t : Tree} : InTurn F shared [] E t (.idle t)
  | cons {p : Pattern} {ps : List Pattern} {E σ : UInt32 → Tree} {path : List Nat} {t x mid : Tree}
      {e : Effect} (binds : (p.inst E).Binds F x σ)
      (replaces : Replaces x ((p.inst E).rhs.subst σ) path t mid)
      (rest : InTurn F shared ps (andThen E (keeping shared σ)) mid e) :
      InTurn F shared (p :: ps) E t
        (Effect.followedBy ⟨keeping shared σ, mid, [(x, (p.inst E).rhs.subst σ)]⟩ e)

/-- The first pattern has an effect somewhere, and the others do on what it gave. -/
theorem inTurn_cons : {e | InTurn F shared (p :: ps) E t e} =
    ⋃ e ∈ anywhere ((p.inst E).effects F shared) t,
      e.followedBy '' {e' | InTurn F shared ps (andThen E e.binds) e.result e'} := by
  ext e
  simp only [Set.mem_iUnion, exists_prop]
  constructor
  · intro h
    cases h with
    | @cons _ _ _ σ path _ x mid e binds replaces rest =>
      exact ⟨⟨keeping shared σ, mid, _⟩, ⟨path, x, _, ⟨σ, binds, rfl⟩, replaces, rfl, rfl⟩, e, rest, rfl⟩
  · rintro ⟨⟨_, mid, _⟩, ⟨path, x, _, ⟨σ, binds, rfl⟩, replaces, rfl, rfl⟩, e, rest, rfl⟩
    exact .cons binds replaces rest

/-- What the first pattern does to a tree, and the others to what it gave. -/
theorem InTurn.exists_cons {path : List Nat} {u : Tree} {sites : List (Tree × Tree)} (put : p.inst E = q)
    (binds : q.Binds F x σ) (made : q.rhs.subst σ = y) (replaces : Replaces x y path t mid)
    (rest : ∃ e, InTurn F shared ps (andThen E (keeping shared σ)) mid e ∧ e.result = u ∧ e.sites = sites) :
    ∃ e, InTurn F shared (p :: ps) E t e ∧ e.result = u ∧ e.sites = (x, y) :: sites := by
  subst put made
  obtain ⟨e, turn, rfl, rfl⟩ := rest
  exact ⟨_, .cons binds replaces turn, rfl, rfl⟩

/-- The replacements have only variables of their patterns, the witness, and shared variables of the
    patterns before or of a set. -/
def ClosedInTurn (shared bound : UInt32 → Prop) : List Pattern → Prop
  | [] => True
  | p :: ps => (¬ shared p.witness ∧ ∀ v, p.rhs.HasVar v → p.lhs.HasVar v ∨ v = p.witness ∨ bound v) ∧
    ClosedInTurn shared (fun v => bound v ∨ shared v ∧ p.lhs.HasVar v) ps

/-- Shared variables stand for themselves or for ground trees, and those of a set for ground trees. -/
structure Settled (shared bound : UInt32 → Prop) (E : UInt32 → Tree) : Prop where
  fixes : Fixes shared E
  grounds : ∀ v, bound v → (E v).Ground

namespace Settled

variable {bound : UInt32 → Prop}

theorem closed (h : Settled shared bound E)
    (closed : ∀ v, p.rhs.HasVar v → p.lhs.HasVar v ∨ v = p.witness ∨ bound v) : (p.inst E).Closed := by
  intro v hv
  obtain ⟨has, eq⟩ := h.fixes.hasVar hv
  rcases closed v has with has | rfl | hb
  · exact .inl (Tree.hasVar_subst.mpr ⟨v, has, eq ▸ .var⟩)
  · exact .inr rfl
  · exact absurd Tree.HasVar.var (eq ▸ h.grounds v hb v)

/-- What a tree has been put in for is not changed any more. -/
theorem andThen (h : Settled shared bound E) (confined : ∀ v, σ v = .var v ∨ shared v ∧ (σ v).Ground) :
    Settled shared bound (andThen E σ) where
  fixes v := by
    show (E v).subst σ = .var v ∨ shared v ∧ ((E v).subst σ).Ground
    rcases h.fixes v with eq | ⟨hv, ground⟩
    · rw [eq, subst_var]
      exact confined v
    · rw [ground.subst]
      exact .inr ⟨hv, ground⟩
  grounds v hv := by
    show ((E v).subst σ).Ground
    rw [(h.grounds v hv).subst]
    exact h.grounds v hv

/-- Where a pattern has matched, its shared variables stand for ground trees too. -/
theorem binds (h : Settled shared bound E) (inner : ¬ shared p.witness)
    (closed : ∀ v, p.rhs.HasVar v → p.lhs.HasVar v ∨ v = p.witness ∨ bound v)
    (binds : (p.inst E).Binds F x σ) (hx : x.Ground) :
    Effect.Confined shared ⟨keeping shared σ, (p.inst E).rhs.subst σ, []⟩ ∧
      Settled shared (fun v => bound v ∨ shared v ∧ p.lhs.HasVar v) (Tree.andThen E (keeping shared σ)) := by
  have confined := confined_effects (h.closed closed) inner hx _ ⟨σ, binds, rfl⟩
  refine ⟨confined, (h.andThen confined.binds).fixes, ?_⟩
  rintro v (hb | ⟨hs, has⟩)
  · exact (h.andThen confined.binds).grounds v hb
  · show ((E v).subst _).Ground
    rcases h.fixes v with eq | ⟨-, ground⟩
    · rw [eq, subst_var, keeping_of_outer hs]
      exact Binds.ground binds hx (.inl (Tree.hasVar_subst.mpr ⟨v, has, eq ▸ .var⟩))
    · rwa [ground.subst]

end Settled

namespace InTurn

variable {bound : UInt32 → Prop}

/-- In the end the shared variables of all patterns stand for ground trees. -/
theorem settled (h : InTurn F shared ps E t e) (ht : t.Ground) (settled : Settled shared bound E)
    (closed : ClosedInTurn shared bound ps) : e.Confined shared ∧
      Settled shared (fun v => bound v ∨ ∃ p ∈ ps, shared v ∧ p.lhs.HasVar v) (andThen E e.binds) := by
  induction h generalizing bound with
  | nil =>
    refine ⟨Effect.confined_idle ht, ?_⟩
    simpa [Effect.idle] using settled
  | @cons p ps E σ path t x mid e binds replaces rest ih =>
    obtain ⟨⟨inner, here⟩, closed⟩ := closed
    obtain ⟨confined, next⟩ := settled.binds inner here binds (replaces.ground_left ht)
    have ground := replaces.ground ht fun _ => confined.ground
    obtain ⟨confined', settled'⟩ := ih ground next closed
    refine ⟨Effect.Confined.followedBy ⟨ground, confined.binds⟩ confined', ?_⟩
    rw [andThen_assoc] at settled'
    refine ⟨settled'.fixes, fun v hv => settled'.grounds v ?_⟩
    simpa [or_and_right, exists_or, or_assoc, and_or_left] using hv

end InTurn

/-! ### One assignment -/

/-- A pattern matches a tree under an assignment of the shared variables, which is replaced: some of the
    variables had their trees before, and the others get them from the match. -/
def Fires (F : Facts) (shared : UInt32 → Prop) (σ : UInt32 → Tree) (p : Pattern) (x y : Tree) : Prop :=
  ∃ E τ, (∀ v, E v = .var v ∨ shared v ∧ E v = σ v) ∧ (p.inst E).Binds F x τ ∧
    (∀ v, shared v → p.lhs.HasVar v ∨ p.rhs.HasVar v → Tree.andThen E τ v = σ v) ∧
    y = p.rhs.subst (Tree.andThen E τ)

/-- All patterns are rewritten one after the other under one assignment of the shared variables. -/
inductive Together (F : Facts) (shared : UInt32 → Prop) (σ : UInt32 → Tree) :
    List Pattern → Tree → Tree → List (Tree × Tree) → Prop
  | nil {t : Tree} : Together F shared σ [] t t []
  | cons {p : Pattern} {ps : List Pattern} {path : List Nat} {t u x y mid : Tree} {sites : List (Tree × Tree)}
      (fires : p.Fires F shared σ x y) (replaces : Replaces x y path t mid)
      (rest : Together F shared σ ps mid u sites) : Together F shared σ (p :: ps) t u ((x, y) :: sites)

/-- What is rewritten in turn is rewritten under the assignment that there is in the end. -/
theorem InTurn.together {bound : UInt32 → Prop} (h : InTurn F shared ps E t e) (ht : t.Ground)
    (settled : Settled shared bound E) (closed : ClosedInTurn shared bound ps) :
    Together F shared (andThen E e.binds) ps t e.result e.sites := by
  induction h generalizing bound with
  | nil => exact .nil
  | @cons p ps E σ path t x mid e binds replaces rest ih =>
    obtain ⟨⟨inner, here⟩, closed⟩ := closed
    have hx := replaces.ground_left ht
    obtain ⟨confined, next⟩ := settled.binds inner here binds hx
    have ground := replaces.ground ht fun _ => confined.ground
    have rest := ih ground next closed
    rw [andThen_assoc] at rest
    have result : (p.inst E).rhs.subst σ = p.rhs.subst (andThen E σ) := (subst_andThen ..).symm
    refine .cons ⟨E, σ, fun v => ?_, binds, fun v hs hv => ?_, result⟩ replaces rest
    · exact (settled.fixes v).imp id fun ⟨hs, ground⟩ => ⟨hs, (ground.subst _).symm⟩
    · show (E v).subst σ = (E v).subst (andThen (keeping shared σ) e.binds)
      rcases settled.fixes v with eq | ⟨-, ground⟩
      · -- The variable is open, and so it is in the pattern.
        have has : (p.inst E).lhs.HasVar v := by
          refine Tree.hasVar_subst.mpr ⟨v, ?_, eq ▸ .var⟩
          refine hv.elim id fun hv => (here v hv).elim id fun hv => hv.elim ?_ fun hb => ?_
          · rintro rfl
            exact absurd hs inner
          · exact absurd Tree.HasVar.var (eq ▸ settled.grounds v hb v)
        rw [eq, subst_var, subst_var, andThen, keeping_of_outer hs,
          (Binds.ground binds hx (.inl has)).subst]
      · rw [ground.subst, ground.subst]

/-! ### Other numbers -/

/-- A pattern with other numbers for its variables. Those that are shared get their own new numbers, and
    the others are not mixed up with them. -/
def Renumbers (shared : UInt32 → Prop) (r : UInt32 → UInt32) (p q : Pattern) : Prop :=
  ∃ ρ : UInt32 → UInt32, q = p.rename ρ ∧ Set.InjOn ρ p.names ∧
    (∀ v ∈ p.names, shared v → ρ v = r v) ∧ ∀ v ∈ p.names, ¬ shared v → ¬ Moved r shared (ρ v)

variable {r : UInt32 → UInt32}

/-- What is put in for shared variables is put in under their new numbers. -/
theorem Fixes.rename_subst (h : Fixes shared E) (inj : Set.InjOn r {v | shared v}) {ρ : UInt32 → UInt32}
    {t : Tree} (follows : ∀ v, t.HasVar v → shared v → ρ v = r v)
    (apart : ∀ v, t.HasVar v → ¬ shared v → ¬ Moved r shared (ρ v)) :
    (t.rename ρ).subst (carry r shared E) = (t.subst E).rename ρ := by
  rw [subst_rename, Tree.rename, subst_subst]
  refine subst_congr fun v hv => ?_
  by_cases hs : shared v
  · rw [follows v hv hs, carry_apply inj hs]
    rcases h v with eq | ⟨-, ground⟩
    · rw [eq, subst_var, follows v hv hs]
      rfl
    · rw [ground.rename, ground.subst]
  · rw [carry_of_not_moved (apart v hv hs), (h v).resolve_right fun h => hs h.1, subst_var]

/-- A pattern under other numbers has its effects under them. -/
theorem Renumbers.effects_eq {bound : UInt32 → Prop} (h : Renumbers shared r p q)
    (inj : Set.InjOn r {v | shared v}) (settled : Settled shared bound E)
    (closed : ∀ v, p.rhs.HasVar v → p.lhs.HasVar v ∨ v = p.witness ∨ bound v) (ht : t.Ground) :
    (q.inst (carry r shared E)).effects F (Moved r shared) t =
      Effect.carry r shared '' (p.inst E).effects F shared t := by
  obtain ⟨ρ, rfl, injAll, follows, apart⟩ := h
  have sub : (p.inst E).vars ⊆ p.names := settled.fixes.vars_inst.trans p.vars_subset_names
  have renames : Renames shared r (p.inst E) ρ := ⟨injAll.mono sub, inj, fun v hv => follows v (sub hv),
    fun v hv => apart v (sub hv)⟩
  have put : (p.rename ρ).inst (carry r shared E) = (p.inst E).rename ρ := by
    show (⟨_, _, _⟩ : Pattern) = ⟨_, _, _⟩
    refine congrArg₂ (Pattern.mk _) ?_ ?_
    · exact settled.fixes.rename_subst inj (fun v hv => follows v (.inl hv)) fun v hv => apart v (.inl hv)
    · exact settled.fixes.rename_subst inj (fun v hv => follows v (.inr (.inl hv)))
        fun v hv => apart v (.inr (.inl hv))
  rw [put]
  exact renames.effects_eq (settled.closed closed) ht

theorem carry_andThen (h : Fixes shared E) (inj : Set.InjOn r {v | shared v}) :
    carry r shared (andThen E σ) = andThen (carry r shared E) (carry r shared σ) := by
  funext u
  by_cases moved : Moved r shared u
  · obtain ⟨v, hv, rfl⟩ := moved
    rw [carry_apply inj hv, andThen, andThen, carry_apply inj hv]
    rcases h v with eq | ⟨-, ground⟩
    · rw [eq, subst_var]
      exact (carry_apply inj hv).symm
    · rw [ground.subst, ground.rename, ground.subst]
  · rw [andThen, carry_of_not_moved moved, carry_of_not_moved moved, subst_var, carry_of_not_moved moved]

theorem ClosedInTurn.mono {bound bound' : UInt32 → Prop} (h : ClosedInTurn shared bound ps)
    (sub : ∀ v, bound v → bound' v) : ClosedInTurn shared bound' ps := by
  induction ps generalizing bound bound' with
  | nil => trivial
  | cons p ps ih =>
    obtain ⟨⟨inner, here⟩, rest⟩ := h
    exact ⟨⟨inner, fun v hv => (here v hv).imp id fun h => h.imp id (sub v)⟩,
      ih rest fun v => Or.imp_left (sub v)⟩

theorem ClosedInTurn.renumber {bound : UInt32 → Prop} (h : ClosedInTurn shared bound ps)
    (renumbers : List.Forall₂ (Renumbers shared r) ps qs) (sub : ∀ v, bound v → shared v) :
    ClosedInTurn (Moved r shared) (Moved r bound) qs := by
  induction renumbers generalizing bound with
  | nil => trivial
  | @cons p q ps qs first _ ih =>
    obtain ⟨⟨inner, here⟩, rest⟩ := h
    obtain ⟨ρ, rfl, -, follows, apart⟩ := first
    refine ⟨⟨apart _ (.inr (.inr rfl)) inner, fun u hu => ?_⟩, ?_⟩
    · obtain ⟨v, hv, rfl⟩ := hasVar_rename.mp hu
      rcases here v hv with has | rfl | hb
      · exact .inl (hasVar_rename.mpr ⟨v, has, rfl⟩)
      · exact .inr (.inl rfl)
      · exact .inr (.inr ⟨v, hb, (follows v (.inr (.inl hv)) (sub v hb)).symm⟩)
    · refine (ih rest fun v hv => hv.elim (sub v) And.left).mono ?_
      rintro _ ⟨v, hb | ⟨hs, has⟩, rfl⟩
      · exact .inl ⟨v, hb, rfl⟩
      · exact .inr ⟨⟨v, hs, rfl⟩, hasVar_rename.mpr ⟨v, has, (follows v (.inl has) hs).symm⟩⟩

theorem carry_var (inj : Set.InjOn r {v | shared v}) : carry r shared .var = .var := by
  funext u
  by_cases moved : Moved r shared u
  · obtain ⟨v, hv, rfl⟩ := moved
    exact carry_apply inj hv
  · exact carry_of_not_moved moved

theorem inTurn_nil : {e | InTurn F shared [] E t e} = {.idle t} := by
  ext e
  constructor
  · rintro ⟨⟩
    rfl
  · rintro rfl
    exact .nil

/-- Where a pattern has had an effect somewhere, the next ones go on. -/
theorem Settled.anywhere {bound : UInt32 → Prop} (h : Settled shared bound E) (inner : ¬ shared p.witness)
    (closed : ∀ v, p.rhs.HasVar v → p.lhs.HasVar v ∨ v = p.witness ∨ bound v) (ht : t.Ground)
    (mem : e ∈ Tree.anywhere ((p.inst E).effects F shared) t) : e.Confined shared ∧
      Settled shared (fun v => bound v ∨ shared v ∧ p.lhs.HasVar v) (Tree.andThen E e.binds) := by
  obtain ⟨_, result, _⟩ := e
  obtain ⟨path, x, _, ⟨σ, binds, rfl⟩, replaces, rfl, rfl⟩ := mem
  obtain ⟨confined, next⟩ := h.binds inner closed binds (replaces.ground_left ht)
  exact ⟨⟨replaces.ground ht fun _ => confined.ground, confined.binds⟩, next⟩

/-- Nothing depends on how the variables are numbered. -/
theorem inTurn_eq_image {bound : UInt32 → Prop} (h : List.Forall₂ (Renumbers shared r) ps qs)
    (inj : Set.InjOn r {v | shared v}) (settled : Settled shared bound E)
    (closed : ClosedInTurn shared bound ps) (ht : t.Ground) :
    {e | InTurn F (Moved r shared) qs (carry r shared E) t e} =
      Effect.carry r shared '' {e | InTurn F shared ps E t e} := by
  induction h generalizing E t bound with
  | nil =>
    rw [inTurn_nil, inTurn_nil, Set.image_singleton]
    exact congrArg (fun b => {(⟨b, t, []⟩ : Effect)}) (carry_var inj).symm
  | @cons p q ps qs first _ ih =>
    obtain ⟨⟨inner, here⟩, closed⟩ := closed
    have somewhere : anywhere ((q.inst (carry r shared E)).effects F (Moved r shared)) t =
        Effect.carry r shared '' anywhere ((p.inst E).effects F shared) t :=
      anywhere_image (fun x hx => first.effects_eq inj settled here hx) ht
    rw [inTurn_cons, inTurn_cons, somewhere, Set.biUnion_image, Set.image_iUnion₂]
    refine Set.iUnion₂_congr fun e mem => ?_
    obtain ⟨confined, next⟩ := settled.anywhere inner here ht mem
    have rest := ih next closed confined.ground
    rw [carry_andThen settled.fixes inj] at rest
    show (Effect.carry r shared e).followedBy '' {e' | InTurn F (Moved r shared) qs
      (andThen (carry r shared E) (carry r shared e.binds)) e.result e'} = _
    rw [rest, Set.image_image, Set.image_image]
    refine Set.image_congr fun e' _ => ?_
    exact congrArg (Effect.mk · e'.result (e.sites ++ e'.sites)) (carry_andThen confined.binds inj).symm

end Pattern

end Regraft.Tree
