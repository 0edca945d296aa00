import Regraft.Proofs.Rewriting.Sites

/-
  Rules for several sites that are rewritten together. Their sites share variables, which are made
  anew each time (`Search.MakesSites`), and a condition tells what has been put in for them apart. Such a
  rule has the effects of its patterns in turn for which the condition holds (`correlated_relates`).
-/

namespace Regraft

open Regraft.Tree (Pattern Effect andThen only)
open Regraft.Tree.Pattern (InTurn Settled ClosedInTurn Renumbers Moved keeping)

namespace Tree

/-- Patterns that are rewritten in turn, the variables that they share, and pairs of trees that must
    not become equal. -/
structure Correlation where
  shared : UInt32 → Prop
  sites : List Pattern
  apart : List (Tree × Tree)

namespace Correlation

/-- The pairs have not become equal. -/
def Apart (c : Correlation) (σ : UInt32 → Tree) : Prop :=
  ∀ g ∈ c.apart, ¬ Agree (g.1.subst σ) (g.2.subst σ)

/-- Replacements have only variables of the patterns up to their own and the witness, and the condition
    only shared variables of the patterns. -/
structure Closed (c : Correlation) : Prop where
  sites : ClosedInTurn c.shared (fun _ => False) c.sites
  apart : ∀ g ∈ c.apart, ∀ v, g.1.HasVar v ∨ g.2.HasVar v → ∃ p ∈ c.sites, c.shared v ∧ p.lhs.HasVar v

/-- The patterns have been rewritten in turn, and the condition holds. -/
def Does (F : Facts) (c : Correlation) (t : Tree) (e : Effect) : Prop :=
  InTurn F c.shared c.sites .var t e ∧ c.Apart e.binds

/-- What that does, seen from outside. -/
def effects (F : Facts) (outer : UInt32 → Prop) (c : Correlation) (t : Tree) : Set Effect :=
  (fun e => { e with binds := keeping outer e.binds }) '' {e | c.Does F t e}

variable {F : Facts} {c : Correlation} {t : Tree} {e : Effect} {outer : UInt32 → Prop}

theorem apart_congr {σ τ : UInt32 → Tree}
    (h : ∀ g ∈ c.apart, ∀ v, g.1.HasVar v ∨ g.2.HasVar v → σ v = τ v) : c.Apart σ ↔ c.Apart τ :=
  forall₂_congr fun g hg => by
    rw [subst_congr fun v hv => h g hg v (.inl hv), subst_congr fun v hv => h g hg v (.inr hv)]

theorem settled_start (shared : UInt32 → Prop) : Settled shared (fun _ => False) .var :=
  ⟨fun _ => .inl rfl, nofun⟩

theorem Does.settled (h : c.Does F t e) (closed : c.Closed) (ht : t.Ground) : e.Confined c.shared ∧
    ∀ v, (∃ p ∈ c.sites, c.shared v ∧ p.lhs.HasVar v) → (e.binds v).Ground := by
  obtain ⟨confined, settled⟩ := h.1.settled ht (settled_start _) closed.sites
  exact ⟨confined, fun v hv => settled.grounds v (.inr hv)⟩

theorem confined_effects (closed : c.Closed) (ht : t.Ground) : ∀ e ∈ c.effects F outer t, e.Confined outer := by
  rintro _ ⟨e, does, rfl⟩
  obtain ⟨confined, -⟩ := does.settled closed ht
  refine ⟨confined.ground, fun v => ?_⟩
  by_cases ho : outer v
  · show keeping outer e.binds v = _ ∨ outer v ∧ (keeping outer e.binds v).Ground
    rw [Pattern.keeping_of_outer ho]
    exact (confined.binds v).imp id fun h => ⟨ho, h.2⟩
  · exact .inl (Pattern.keeping_of_not_outer ho)

end Correlation

end Tree

open Regraft.Tree (Correlation)

namespace Search

variable {base ses : Session} {outer : UInt32 → Prop} {c : Correlation} {made : (List Rule × Goal) × Session}
  {build : SessionM (List Rule × Goal)} {r : UInt32 → UInt32}

/-- The variables that are shared are new, but for those known outside. -/
structure Shares (outer shared : UInt32 → Prop) (st st' : Store) (r : UInt32 → UInt32) : Prop where
  inj : Set.InjOn r {v | shared v}
  outside : ∀ v, outer v → shared v
  stays : ∀ v, outer v → r v = v
  fresh : ∀ v, shared v → ¬ outer v → ¬ st.Knows (r v)
  known : ∀ v, shared v → st'.Knows (r v)

/-- A site is a rule made of a pattern, under new numbers. -/
def MadeSite (ses : Session) (shared : UInt32 → Prop) (r : UInt32 → UInt32) (rule : Rule) (p : Pattern) : Prop :=
  ∃ name build q, rule = Rule.pattern name build ∧ Renumbers shared r p q ∧
    Makes ses (Moved r shared) build q

/-- A pair of terms stands for a pair of trees, under new numbers. -/
def MadePair (st : Store) (r : UInt32 → UInt32) (p : TermId × TermId) (g : Tree × Tree) : Prop :=
  (st.Stored p.1 ∧ st.Stored p.2) ∧ st.tree p.1 = g.1.rename r ∧ st.tree p.2 = g.2.rename r

/-- The rules of the sites and the condition have been made, with new variables to share. -/
structure MadeSites (outer : UInt32 → Prop) (c : Correlation) (ses : Session)
    (made : (List Rule × Goal) × Session) : Prop where
  later : ses.Later made.2
  named : ses.store.Tidy → made.2.store.Roomy → ∃ r, Shares outer c.shared ses.store made.2.store r ∧
    List.Forall₂ (MadeSite made.2 c.shared r) made.1.1 c.sites ∧
    ∃ pairs, made.1.2.TellsApart pairs ∧ List.Forall₂ (MadePair made.2.store r) pairs c.apart

/-- An action makes at least one site anew in all sessions later than `base`. -/
structure MakesSites (base : Session) (outer : UInt32 → Prop) (build : SessionM (List Rule × Goal))
    (c : Correlation) : Prop where
  nonempty : c.sites ≠ []
  makes : ∀ ses, base.Later ses → ses.store.Valid → MadeSites outer c ses (build ses)

variable {E : UInt32 → Tree} {s s' : Subst} {ses' : Session} {a b : TermId} {v v₀ : UInt32} {e : Effect}
  {rules : List Rule} {ps : List Pattern}

namespace Shares

variable {shared : UInt32 → Prop} {st st' : Store}

theorem moved_known (h : Shares outer shared st st' r) (hv : Moved r shared v) : st'.Knows v := by
  obtain ⟨u, hu, rfl⟩ := hv
  exact h.known u hu

/-- What has been there before is no shared variable, but for those known outside. -/
theorem outer_of_moved (h : Shares outer shared st st' r) (hv : Moved r shared v) (known : st.Knows v) :
    outer v := by
  obtain ⟨u, hu, rfl⟩ := hv
  by_cases ho : outer u
  · rwa [h.stays u ho]
  · exact absurd known (h.fresh u hu ho)

/-- The variables known outside keep their numbers. -/
theorem carry_outer (h : Shares outer shared st st' r) (confined : e.Confined shared) (hv : outer v) :
    (e.carry r shared).binds v = e.binds v := by
  have apply := Pattern.carry_apply (σ := e.binds) h.inj (h.outside v hv)
  rw [h.stays v hv] at apply
  show Pattern.carry r shared e.binds v = _
  rw [apply]
  rcases confined.binds v with eq | ⟨-, ground⟩
  · rw [eq]
    exact congrArg Tree.var (h.stays v hv)
  · exact ground.rename r

end Shares

/-- The sites have the effects of their patterns under new numbers. -/
theorem MadeSite.exists_relates {shared : UInt32 → Prop} (h : List.Forall₂ (MadeSite ses shared r) rules ps)
    (known : ∀ v, Moved r shared v → ses.store.Knows v) :
    ∃ qs, List.Forall₂ (SiteRelates ses (Moved r shared)) rules qs ∧ List.Forall₂ (Renumbers shared r) ps qs := by
  induction h with
  | nil => exact ⟨[], .nil, .nil⟩
  | cons h _ ih =>
    obtain ⟨qs, relates, renumbers⟩ := ih
    obtain ⟨name, build, q, rfl, renumber, makes⟩ := h
    exact ⟨q :: qs, .cons (fun E fixes closed => pattern_relates name makes known fixes closed) relates,
      .cons renumber renumbers⟩

/-- The trees of a pair, once something has been put in for the variables. -/
theorem MadePair.trees {st st' : Store} {d : List (Tree × Tree)} {θ : UInt32 → Tree} {p : TermId × TermId}
    {g : Tree × Tree} (h : MadePair st r p g) (hs : s.Sound st)
    (open' : ∀ v, g.1.HasVar v ∨ g.2.HasVar v → s.image st (r v) = .var (r v))
    (solved : Subst.Solves d st s st' s' θ) : (st'.Stored p.1 ∧ st'.Stored p.2) ∧
      s'.tree st' p.1 = g.1.subst (fun v => θ (r v)) ∧ s'.tree st' p.2 = g.2.subst fun v => θ (r v) := by
  obtain ⟨⟨left, right⟩, eq, eq'⟩ := h
  have read : ∀ {t : TermId} {u : Tree}, st.Stored t → st.tree t = u.rename r →
      (∀ v, u.HasVar v → s.image st (r v) = .var (r v)) → s'.tree st' t = u.subst fun v => θ (r v) := by
    intro t u ht eq open'
    rw [solved.tree_eq hs ht, hs.tree_eq_subst, eq, Tree.subst_rename, Tree.subst_subst]
    exact Tree.subst_congr fun v hv => by rw [open' v hv, Tree.subst_var]
  exact ⟨⟨solved.grows.stored left, solved.grows.stored right⟩,
    read left eq fun v hv => open' v (.inl hv), read right eq' fun v hv => open' v (.inr hv)⟩

/-- What the variables have got under their new numbers is what the condition is about. -/
theorem apart_iff {σ : UInt32 → Tree} {st : Store} {pairs : List (TermId × TermId)}
    (h : List.Forall₂ (fun p g => s.tree st p.1 = g.1.subst σ ∧ s.tree st p.2 = g.2.subst σ) pairs c.apart) :
    Apart st s pairs ↔ c.Apart σ := by
  unfold Correlation.Apart
  generalize c.apart = gs at h
  induction h with
  | nil => exact ⟨fun _ => nofun, fun _ => nofun⟩
  | cons h _ ih =>
    rw [List.forall_mem_cons, ← ih, ← h.1, ← h.2]
    exact List.forall_mem_cons

/-- Once the variables have got ground trees, the trees of all pairs are ground. -/
theorem MadePair.all_trees {st st' : Store} {d : List (Tree × Tree)} {θ : UInt32 → Tree}
    {pairs : List (TermId × TermId)} {gs : List (Tree × Tree)} (h : List.Forall₂ (MadePair st r) pairs gs)
    (hs : s.Sound st) (solved : Subst.Solves d st s st' s' θ)
    (settled : ∀ g ∈ gs, ∀ v, g.1.HasVar v ∨ g.2.HasVar v →
      s.image st (r v) = .var (r v) ∧ (θ (r v)).Ground) :
    List.Forall₂ (fun p g => s'.tree st' p.1 = g.1.subst (fun v => θ (r v)) ∧
        s'.tree st' p.2 = g.2.subst fun v => θ (r v)) pairs gs ∧
      ∀ p ∈ pairs, (st'.Stored p.1 ∧ st'.Stored p.2) ∧ (s'.tree st' p.1).Ground ∧ (s'.tree st' p.2).Ground := by
  induction h with
  | nil => exact ⟨.nil, nofun⟩
  | @cons p g pairs gs first _ ih =>
    rw [List.forall_mem_cons] at settled
    obtain ⟨here, others⟩ := settled
    obtain ⟨trees, ground⟩ := ih others
    obtain ⟨stored, left, right⟩ := first.trees hs (fun v hv => (here v hv).1) solved
    have grounded : ∀ {t : Tree}, (∀ v, t.HasVar v → (θ (r v)).Ground) →
        (t.subst fun v => θ (r v)).Ground := fun h u hu => by
      obtain ⟨v, hv, hu⟩ := Tree.hasVar_subst.mp hu
      exact h v hv u hu
    refine ⟨.cons ⟨left, right⟩ trees, List.forall_mem_cons.mpr ⟨⟨stored, ?_, ?_⟩, ground⟩⟩
    · exact left ▸ grounded fun v hv => (here v (.inl hv)).2
    · exact right ▸ grounded fun v hv => (here v (.inr hv)).2

/-- Where the sites have been rewritten the condition is decided. -/
theorem condition_gives {guard : Goal} {pairs : List (TermId × TermId)} (tells : guard.TellsApart pairs)
    (matched : List.Forall₂ (MadePair ses.store r) pairs c.apart) (hs : s.Sound ses.store)
    (solved : Affecting ses.store s v ses' s' e)
    (settled : ∀ g ∈ c.apart, ∀ u, g.1.HasVar u ∨ g.2.HasVar u →
      s.image ses.store (r u) = .var (r u) ∧ (e.output v (r u)).Ground) :
    Gives True (Solving [] ses'.store s') ses' (.apply guard s')
      (given (c.Apart fun u => e.output v (r u))) := by
  obtain ⟨trees, ground⟩ := MadePair.all_trees matched hs solved settled
  have told := Search.tells tells ses' s' ⟨solved.sound, solved.free, ground⟩
  exact told.congr (by simp only [given, apart_iff trees])

/-- What is seen from outside is done to the variables known there. -/
theorem keeping_output {u : UInt32} (h : ¬ outer u → e.binds u = .var u) :
    ({ e with binds := keeping outer e.binds } : Effect).output v u = e.output v u := by
  show (keeping outer e.binds u).subst _ = (e.binds u).subst _
  by_cases ho : outer u
  · rw [Pattern.keeping_of_outer ho]
  · rw [Pattern.keeping_of_not_outer ho, h ho]

namespace Shares

variable {shared : UInt32 → Prop} {st st' : Store}

/-- Seen from outside, it does not matter how the shared variables are numbered. -/
theorem keeping_carry (h : Shares outer shared st st' r) (confined : e.Confined shared) :
    ({ e.carry r shared with binds := keeping outer (e.carry r shared).binds } : Effect) =
      { e with binds := keeping outer e.binds } := by
  refine congrArg (Effect.mk · e.result e.sites) (funext fun u => ?_)
  by_cases ho : outer u
  · rw [Pattern.keeping_of_outer ho, Pattern.keeping_of_outer ho, h.carry_outer confined ho]
  · rw [Pattern.keeping_of_not_outer ho, Pattern.keeping_of_not_outer ho]

/-- What a shared variable has got, under its new number. -/
theorem carry_output {u : UInt32} (h : Shares outer shared st st' r) (hu : shared u)
    (ground : (e.binds u).Ground) : (e.carry r shared).output v (r u) = e.binds u := by
  show (Pattern.carry r shared e.binds (r u)).subst _ = _
  rw [Pattern.carry_apply h.inj hu, ground.rename, ground.subst]

end Shares

/-- Sites that are rewritten together have the effects of their patterns in turn, as far as the condition
    holds. -/
theorem correlated_relates (name : String) (h : MakesSites base outer build c) (closed : c.Closed)
    (known : ∀ v, outer v → base.store.Knows v) :
    Relates False base outer .var (Rule.correlated name build).relate (c.effects base.facts outer) where
  known := known
  confined _ ht := Correlation.confined_effects closed ht
  gives {ses s a b v} l spot hv images := by
    have hs := spot.sound
    have made := h.makes ses l hs.valid
    show ses.Later (build ses).2 ∧ (ses.store.Tidy → (build ses).2.store.Roomy →
      Gives False (Affecting ses.store s v) (build ses).2
        (.apply (.conj [.sites (build ses).1.1 a b, (build ses).1.2]) s) _)
    generalize build ses = pair at made ⊢
    have g := made.later.grows
    refine ⟨made.later, fun tidy room => ?_⟩
    obtain ⟨r, shares, sites, pairs, tells, matched⟩ := made.named tidy room
    have facts : pair.2.facts = base.facts := g.facts.trans l.grows.facts
    obtain ⟨qs, relates, renumbers⟩ := MadeSite.exists_relates sites fun v => shares.moved_known
    obtain ⟨rule, rest, eq⟩ : ∃ rule rest, pair.1.1 = rule :: rest := by
      refine List.exists_cons_of_ne_nil fun none => h.nonempty ?_
      rw [none] at sites
      exact List.forall₂_nil_left_iff.mp sites
    rw [eq] at relates ⊢
    have unbound : ∀ u, Moved r c.shared u → s.image pair.2.store u = .var u := by
      rintro u moved
      by_cases ho : outer u
      · rw [image_grows hs g.store, images u ho]
      · refine Subst.image_of_unbound ?_
        by_contra some
        obtain ⟨t, ht⟩ := Option.ne_none_iff_exists'.mp some
        exact ho (shares.outer_of_moved moved (spot.within u t ht))
    have inner : ¬ Moved r c.shared v := fun moved => hv (shares.outer_of_moved moved ⟨b, spot.out⟩)
    have spot' : Spot pair.2.facts pair.2 s a b v := by
      have spot' := spot.grows g
      exact ⟨rfl, spot'.sound, spot'.free, spot'.within, spot'.left, spot'.ground, spot'.out, spot'.unbound⟩
    have begins : Begins pair.2 pair.2 s (Moved r c.shared) .var a b v :=
      ⟨.refl _, fun _ => shares.moved_known, fun _ => .inl rfl, unbound, spot', inner⟩
    have all := sites_gives relates begins (Correlation.settled_start _)
      ((closed.sites.renumber renumbers fun _ => False.elim).mono fun _ ⟨_, h, _⟩ => h)
    rw [facts, ← Pattern.carry_var shares.inj, Pattern.inTurn_eq_image renumbers shares.inj
      (Correlation.settled_start _) closed.sites spot'.ground, hs.tree_grows g.store spot.left] at all
    -- What the condition is about has been put in for by the patterns.
    have settled : ∀ {e}, InTurn base.facts c.shared c.sites .var (s.tree ses.store a) e →
        e.Confined c.shared ∧ ∀ g ∈ c.apart, ∀ u, g.1.HasVar u ∨ g.2.HasVar u →
          s.image pair.2.store (r u) = .var (r u) ∧ (e.carry r c.shared).output v (r u) = e.binds u ∧
            (e.binds u).Ground := by
      intro e turn
      obtain ⟨confined, settled⟩ := turn.settled spot.ground (Correlation.settled_start _) closed.sites
      refine ⟨confined, fun g hg u hu => ?_⟩
      obtain ⟨p, hp, hs, has⟩ := closed.apart g hg u hu
      have ground : (e.binds u).Ground := settled.grounds u (.inr ⟨p, hp, hs, has⟩)
      exact ⟨unbound _ ⟨u, hs, rfl⟩, shares.carry_output hs ground, ground⟩
    refine conj_gives ((all.bind (C := fun e => {e' | e' = { e with binds := keeping outer e.binds } ∧
      c.Apart fun u => e.output v (r u)}) ?_).congr ?_)
    · rintro _ ⟨e, turn, rfl⟩ ses' s' l' solved
      have decided := condition_gives tells matched spot'.sound solved fun g hg u hu =>
        have ⟨open', eq, ground⟩ := (settled turn).2 g hg u hu
        ⟨open', eq ▸ ground⟩
      refine (decided.map (fun _ => { e.carry r c.shared with
        binds := keeping outer (e.carry r c.shared).binds }) (fun ses'' s'' θ hθ more => ?_) False.elim).congr ?_
      · obtain ⟨rfl, -⟩ := hθ
        have both := (solved.trans more).back hs spot.free g.store
        rw [Tree.andThen_var, List.append_nil] at both
        refine both.congr fun y hy _ => (keeping_output fun ho => ?_).symm
        exact Pattern.carry_of_not_moved fun moved => ho (shares.outer_of_moved moved hy)
      · ext e'
        constructor
        · rintro ⟨_, ⟨rfl, apart⟩, rfl⟩
          exact ⟨rfl, apart⟩
        · rintro ⟨rfl, apart⟩
          exact ⟨_, ⟨rfl, apart⟩, rfl⟩
    · have same : ∀ {e}, InTurn base.facts c.shared c.sites .var (s.tree ses.store a) e →
          (c.Apart (fun u => (e.carry r c.shared).output v (r u)) ↔ c.Apart e.binds) := fun turn =>
        Correlation.apart_congr fun g hg u hu => ((settled turn).2 g hg u hu).2.1
      ext e'
      simp only [Set.mem_iUnion, exists_prop, Set.mem_image]
      constructor
      · rintro ⟨_, ⟨e, turn, rfl⟩, rfl, apart⟩
        exact ⟨e, ⟨turn, (same turn).mp apart⟩, (shares.keeping_carry (settled turn).1).symm⟩
      · rintro ⟨e, ⟨turn, apart⟩, rfl⟩
        exact ⟨_, ⟨e, turn, rfl⟩, (shares.keeping_carry (settled turn).1).symm, (same turn).mpr apart⟩

end Search

end Regraft
