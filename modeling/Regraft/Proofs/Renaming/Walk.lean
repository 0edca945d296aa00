import Regraft.Proofs.Renaming.Script
import Regraft.Proofs.Rewriting.Growing
import Regraft.Proofs.Rewriting.Run

/-
  Walks by rules that are made alike yield twins, turn by turn (`Renaming.walk_turn`): the same answers are
  reported as inconsistent, and the same ones are passed over. So a single step comes to the same on
  both sides (`applyOnce_acts`).
-/

namespace Regraft

namespace Renaming

variable {σ τ α β : Type} {ρ : Renaming} {p q : Sides} {s s' : Subst} {t t' : TermId} {w w' : Walk}
  {seen seen' : List (TermId × TermId)} {rule rule' : Rule}

/-- The same errors, of twins. -/
inductive SameError (ρ : Renaming) (p : Sides) : RewriteError → RewriteError → Prop
  | patternNotFound : SameError ρ p .patternNotFound .patternNotFound
  | stepLimitExceeded (limit : Nat) : SameError ρ p (.stepLimitExceeded limit) (.stepLimitExceeded limit)
  | inconsistent {node node' first first' second second' : TermId} (matched : ρ.Same p node node')
      (one : ρ.Same p first first') (other : ρ.Same p second second') :
      SameError ρ p (.inconsistent node first second) (.inconsistent node' first' second')

/-- Related results, or the same error. -/
inductive SameResult (ρ : Renaming) (R : Sides → α → β → Prop) (p : Sides) :
    Except RewriteError α → Except RewriteError β → Prop
  | ok {a : α} {b : β} (h : R p a b) : SameResult ρ R p (.ok a) (.ok b)
  | error {e e' : RewriteError} (h : ρ.SameError p e e') : SameResult ρ R p (.error e) (.error e')

/-- Turns that come to the same. -/
inductive Turns (K : Sides → σ → τ → Prop) (R : Sides → α → β → Prop) (p : Sides) :
    Turn σ α → Turn τ β → Prop
  | working {next : σ} {next' : τ} (h : K p next next') : Turns K R p (.working next) (.working next')
  | yielded {a : α} {b : β} {next : σ} {next' : τ} (result : R p a b) (h : K p next next') :
      Turns K R p (.yielded a next) (.yielded b next')
  | finished : Turns K R p .finished .finished

theorem SameError.grow {e e' : RewriteError} (h : ρ.SameError p e e') (g : p.Grow q) :
    ρ.SameError q e e' := by
  cases h with
  | patternNotFound => exact .patternNotFound
  | stepLimitExceeded limit => exact .stepLimitExceeded limit
  | inconsistent matched one other =>
    exact .inconsistent (matched.grow g) (one.grow g) (other.grow g)

/-! ## Sites -/

theorem reify_steady (hs : ρ.SameSubst p s s') (ht : ρ.Same p t t') :
    ρ.Steady p ρ.Same (Session.reify s t) (Session.reify s' t') :=
  onStore_steady (R := ρ.Twins) fun agrees => reify_made agrees hs ht

theorem lookup_rel (h : List.Forall₂ (ρ.SamePair p) seen seen') (ht : ρ.Same p t t') :
    Option.Rel (ρ.Same p) (seen.lookup t) (seen'.lookup t') := by
  induction h with
  | nil => exact .none
  | @cons e e' _ _ first _ ih =>
    have same : (t' == e'.1) = (t == e.1) := by
      rw [Bool.eq_iff_iff, beq_iff_eq, beq_iff_eq]
      exact ht.eq_iff first.1
    rw [List.lookup_cons, List.lookup_cons, same]
    cases t == e.1 with
    | true => exact .some first.2
    | false => exact ih

theorem checkSitesFrom_steady {sites sites' : List Site} (hs : ρ.SameSubst p s s')
    (known : List.Forall₂ (ρ.SamePair p) seen seen')
    (h : List.Forall₂ (ρ.Sites p.left.store p.right.store) sites sites') :
    ρ.Steady p (ρ.SameResult fun _ _ _ => True) (s.checkSitesFrom seen sites)
      (s'.checkSitesFrom seen' sites') := by
  induction sites generalizing p seen seen' sites' with
  | nil =>
    cases h
    exact .pure (.ok trivial)
  | cons site rest ih =>
    cases h with | @cons _ site' _ rest' first others => ?_
    intro agree
    rw [Subst.checkSitesFrom_cons, Subst.checkSitesFrom_cons]
    dsimp only
    obtain ⟨agree₁, g₁, matched⟩ := reify_steady hs first.1 agree
    generalize Session.reify s site.matched p.left = m at agree₁ g₁ matched ⊢
    generalize Session.reify s' site'.matched p.right = m' at agree₁ g₁ matched ⊢
    obtain ⟨agree₂, g₂, replaced⟩ := reify_steady (hs.grow g₁) (Same.grow first.2 g₁) agree₁
    dsimp only at agree₂ g₂ replaced ⊢
    generalize Session.reify s site.replacement m.2 = r at agree₂ g₂ replaced ⊢
    generalize Session.reify s' site'.replacement m'.2 = r' at agree₂ g₂ replaced ⊢
    have g := g₁.trans g₂
    have matched : ρ.Same ⟨r.2, r'.2⟩ m.1 m'.1 := matched.grow g₂
    have known : List.Forall₂ (ρ.SamePair ⟨r.2, r'.2⟩) seen seen' :=
      known.imp fun _ _ h => ⟨Same.grow h.1 g, Same.grow h.2 g⟩
    have rest := others.imp fun _ _ h => (⟨Same.grow h.1 g, Same.grow h.2 g⟩ : ρ.Sites _ _ _ _)
    have found := lookup_rel known matched
    generalize seen.lookup m.1 = x at found ⊢
    generalize seen'.lookup m'.1 = x' at found ⊢
    cases found with
    | none => exact (ih (hs.grow g) (.cons ⟨matched, replaced⟩ known) rest agree₂).after g
    | @some one one' found =>
      dsimp only
      by_cases eq : one = r.1
      · rw [if_pos eq, if_pos ((found.eq_iff replaced).mpr eq)]
        exact (ih (hs.grow g) known rest agree₂).after g
      · rw [if_neg eq, if_neg fun eq' => eq ((found.eq_iff replaced).mp eq')]
        exact ⟨agree₂, g, .error (.inconsistent matched found replaced)⟩

/-! ## Turns -/

/-- Searches that go in step, however far. -/
abbrev Locksteps (ρ : Renaming) (p : Sides) (x x' : Search) : Prop := ∀ n, ρ.Lockstep n p x x'

/-- Walks with twins for outputs and results, whose searches go in step. -/
structure Walks (ρ : Renaming) (p : Sides) (w w' : Walk) : Prop where
  output : ρ.Same p w.output w'.output
  search : ρ.Locksteps p w.search w'.search
  seen : ρ.Sames p w.seen w'.seen

theorem Walks.grow (h : ρ.Walks p w w') (g : p.Grow q) : ρ.Walks q w w' :=
  ⟨h.output.grow g, fun n => (h.search n).grow g, h.seen.grow g⟩

theorem search_turn {x x' : Search} (h : ρ.Locksteps p x x') :
    ρ.Acts p (Turns ρ.Locksteps ρ.SameSubst) x.turn x'.turn := by
  intro agree room
  obtain ⟨agree₁, g₁, -⟩ := count_steady (p := p) Counters.countStep agree
  have steps := fun n => (h (n + 1)).2 _ g₁ agree₁
  rw [Search.turn_eq] at room
  rw [Search.turn_eq, Search.turn_eq]
  dsimp only at steps
  generalize x.step _ = y at steps ⊢
  generalize x'.step _ = y' at steps room ⊢
  obtain ⟨y, c⟩ := y
  obtain ⟨y', d⟩ := y'
  have room : d.store.Roomy := by cases y' <;> exact room
  obtain ⟨agree₂, g₂, first⟩ := steps 0 room
  have all := fun n => (steps n room).result
  have g := g₁.trans g₂
  cases first with
  | emit answer rest =>
    refine ⟨agree₂, g, .yielded answer fun n => ?_⟩
    cases all n with
    | emit _ rest => exact rest
  | «continue» rest =>
    refine ⟨agree₂, g, .working fun n => ?_⟩
    cases all n with
    | «continue» rest => exact rest
  | exhausted => exact ⟨agree₂, g, .finished⟩

/-- Answers are accepted alike. -/
theorem accept_steady {rest rest' : Search} (h : ρ.Walks p w w') (hs : ρ.SameSubst p s s')
    (more : ρ.Locksteps p rest rest') :
    ρ.Steady p (Turns ρ.Walks (ρ.SameResult ρ.Same)) (w.accept s rest) (w'.accept s' rest') := by
  intro agree
  rw [Walk.accept_eq, Walk.accept_eq]
  have checked : ρ.Ran p (ρ.SameResult fun _ _ _ => True) (s.checkSites p.left)
      (s'.checkSites p.right) := checkSitesFrom_steady hs .nil hs.sites agree
  generalize s.checkSites p.left = c at checked ⊢
  generalize s'.checkSites p.right = d at checked ⊢
  obtain ⟨c, a⟩ := c
  obtain ⟨d, b⟩ := d
  obtain ⟨agree₁, g₁, checked⟩ := checked
  dsimp only at agree₁ g₁ checked
  have next : ∀ {q seen seen'}, p.Grow q → ρ.Sames q seen seen' →
      ρ.Walks q ⟨w.output, rest, seen⟩ ⟨w'.output, rest', seen'⟩ := fun g same =>
    ⟨h.output.grow g, fun n => (more n).grow g, same⟩
  cases checked with
  | error e => exact ⟨agree₁, g₁, .yielded (.error e) (next g₁ (h.seen.grow g₁))⟩
  | ok _ =>
    dsimp only
    obtain ⟨agree₂, g₂, result⟩ := reify_steady (hs.grow g₁) (h.output.grow g₁) agree₁
    dsimp only at agree₂ g₂ result
    generalize Session.reify s w.output a = r at agree₂ g₂ result ⊢
    generalize Session.reify s' w'.output b = r' at agree₂ g₂ result ⊢
    have g := g₁.trans g₂
    have seen := h.seen.grow g
    have known : w'.seen.contains r'.1 = w.seen.contains r.1 := by
      have any := any_eq (R := ρ.Same ⟨r.2, r'.2⟩) (f := (r.1 == ·)) (g := (r'.1 == ·))
        (fun t t' same => by
          rw [Bool.eq_iff_iff, beq_iff_eq, beq_iff_eq]
          exact result.eq_iff same) seen
      rwa [List.any_beq, List.any_beq] at any
    rw [known]
    split
    · exact ⟨agree₂, g, .working (next g seen)⟩
    · obtain ⟨agree₃, g₃, -⟩ :=
        count_steady (p := ⟨r.2, r'.2⟩) Counters.countWalkResult agree₂
      have g' := g.trans g₃
      exact ⟨agree₃, g', .yielded (.ok (result.grow g₃))
        (next g' (.cons (result.grow g₃) (seen.grow g₃)))⟩

/-- Walks go on alike. -/
theorem walk_turn (h : ρ.Walks p w w') :
    ρ.Acts p (Turns ρ.Walks (ρ.SameResult ρ.Same)) w.turn w'.turn := by
  intro agree room
  have turned := search_turn h.search agree
  rw [Walk.turn_eq] at room
  rw [Walk.turn_eq, Walk.turn_eq]
  generalize w.search.turn p.left = x at turned ⊢
  generalize w'.search.turn p.right = x' at turned room ⊢
  obtain ⟨x, c⟩ := x
  obtain ⟨x', d⟩ := x'
  have before : d.store.Roomy := by
    cases x' with
    | working => exact room
    | finished => exact room
    | yielded s rest =>
      exact fun known => room (((Walk.accept_sameVars w' s rest d).knows _).mpr known)
  obtain ⟨agree₁, g, result⟩ := turned before
  cases result with
  | working rest => exact ⟨agree₁, g, .working ⟨h.output.grow g, rest, h.seen.grow g⟩⟩
  | finished => exact ⟨agree₁, g, .finished⟩
  | yielded answer rest => exact (accept_steady (h.grow g) answer rest agree₁).after g

/-! ## Runs -/

theorem start_acts (h : ρ.Rules p rule rule') (ht : ρ.Same p t t') :
    ρ.Acts p ρ.Walks (Walk.start rule t) (Walk.start rule' t') := by
  refine fresh_acts.bind (.refl _) fun q output output' g same => Steady.acts fun agree => ?_
  have goals := anywhere_goals (h.relates.grow g) (ht.grow g) same
  exact ⟨agree, .refl q, same, fun n => goals n q _ _ (.refl q)
    (empty_substs agree.stores.left agree.stores.right), .nil⟩

/-- The first change is the same. -/
theorem firstChange_acts (ht : ρ.Same p t t') (h : ρ.Walks p w w')
    (growing : w'.Growing p.right) (turns : Nat) :
    ρ.Acts p (fun q => Option.Rel (ρ.SameResult ρ.Same q)) (w.firstChange t turns)
      (w'.firstChange t' turns) := by
  induction turns generalizing p w w' with
  | zero => exact Steady.acts (.pure .none)
  | succ turns ih =>
    intro agree room
    rw [Walk.firstChange_succ] at room
    rw [Walk.firstChange_succ, Walk.firstChange_succ]
    have turned := walk_turn h agree
    obtain ⟨g', left⟩ := growing.turn
    generalize w.turn p.left = x at turned ⊢
    generalize w'.turn p.right = x' at turned room g' left ⊢
    obtain ⟨x, c⟩ := x
    obtain ⟨x', d⟩ := x'
    have before : d.store.Roomy := by
      cases x' with
      | working next => exact room.of_grows (Walk.firstChange_grows left).1.store
      | finished => exact room
      | yielded result next => cases result with
        | error e => exact room
        | ok u =>
          dsimp only at room
          split at room
          · exact room.of_grows (Walk.firstChange_grows left.2).1.store
          · exact room
    obtain ⟨agree₁, g, result⟩ := turned before
    cases result with
    | working next => exact (ih (ht.grow g) next left agree₁ room).after g
    | finished => exact ⟨agree₁, g, .some (.error .patternNotFound)⟩
    | @yielded r r' next next' same walks => cases same with
      | error e => exact ⟨agree₁, g, .some (.error e)⟩
      | @ok u u' same =>
        dsimp only at room ⊢
        by_cases eq : u = t
        · have eq' := (same.eq_iff (ht.grow g)).mpr eq
          rw [if_pos eq'] at room
          rw [if_pos eq, if_pos eq']
          exact (ih (ht.grow g) walks left.2 agree₁ room).after g
        · have ne' := fun eq' => eq ((same.eq_iff (ht.grow g)).mp eq')
          rw [if_neg eq, if_neg ne']
          exact ⟨agree₁, g, .some (.ok same)⟩

/-- A single step comes to the same. -/
theorem applyOnce_acts (h : ρ.Rules p rule rule') (ht : ρ.Same p t t') (turns : Nat) :
    ρ.Acts p (fun q => Option.Rel (ρ.SameResult ρ.Same q)) (rule.applyOnce t turns)
      (rule'.applyOnce t' turns) := by
  intro agree room
  have growing := Walk.start_growing h.builds agree.stores.right ht.stored_right
  obtain ⟨agree₁, g, walks⟩ :=
    start_acts h ht agree (room.of_grows (Walk.firstChange_grows growing).1.store)
  exact (firstChange_acts (ht.grow g) walks growing turns agree₁ room).after g

end Renaming

end Regraft
