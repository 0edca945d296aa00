import Regraft.Proofs.Match.Ways
import Regraft.Proofs.Search.Gives
import Regraft.Proofs.Search.Goal

/-
  What answers do for an assignment. An answer solves it from a store and a substitution on, if the
  variables that were known and open there now stand for what they are assigned (`Subst.Solves`). The
  trees of the terms that were stored then have the assignment put in (`Solves.tree_eq`), so that one
  answer after another solves one assignment after another (`Solves.trans`). Variables made meanwhile do not
  count.
-/

namespace Regraft

open Regraft.Tree (andThen only)

variable {st st' st'' : Store} {s s' s'' : Subst} {t : TermId} {v : UInt32} {d e : List (Tree × Tree)}
  {θ σ τ : UInt32 → Tree}

namespace Subst

/-- The variables of a tree are stored. -/
theorem Sound.knows_of_hasVar (hs : s.Sound st) (h : (s.tree st t).HasVar v) : st.Knows v := by
  obtain ⟨u, hu⟩ := hs.exists_deref_of_hasVar h
  exact ⟨_, hu⟩

/-- A variable that is not bound is not followed. -/
theorem Sound.deref_of_unbound (hs : s.Sound st) (ht : st.term? t = some (.var v))
    (hv : s.get? v = none) : s.deref st t = t :=
  hs.deref_of_hop_none (hop_eq_none_iff.mpr fun w hw => by
    obtain rfl : v = w := by simpa using ht.symm.trans hw
    exact hv)

/-- Only stored variables are bound. -/
def Within (s : Subst) (st : Store) : Prop := ∀ v t, s.get? v = some t → st.Knows v

theorem Within.grows (h : s.Within st) (g : st.Grows st') : s.Within st' :=
  fun v t hv => g.knows (h v t hv)

theorem within_empty (st : Store) : Subst.empty.Within st := by
  intro v t h
  rw [get?_empty] at h
  cases h

/-- A site at which a ground tree has been replaced by another. -/
structure Shows (st : Store) (s : Subst) (site : Site) (p : Tree × Tree) : Prop where
  stored : st.Stored site.matched ∧ st.Stored site.replacement
  matched : s.tree st site.matched = p.1
  replacement : s.tree st site.replacement = p.2
  ground : p.1.Ground ∧ p.2.Ground

/-- No disequality waits, the variables known before that were open stand for what they are assigned,
    and some sites more are recorded. -/
structure Solves (d : List (Tree × Tree)) (st : Store) (s : Subst) (st' : Store) (s' : Subst)
    (θ : UInt32 → Tree) : Prop where
  grows : st.Grows st'
  sound : s'.Sound st'
  kept : s.Extends s'
  within : s.Within st → s'.Within st'
  image : ∀ v, st.Knows v → s.get? v = none → s'.image st' v = θ v
  free : s'.constraints = []
  sites : ∃ new, s'.sites = s.sites ++ new ∧ List.Forall₂ (Shows st' s') new d

namespace Solves

theorem of_grows (hs : s.Sound st) (free : s.constraints = []) (g : st.Grows st') :
    Solves [] st s st' s .var where
  grows := g
  sound := hs.grows g
  kept := .refl s
  within h := h.grows g
  image _ _ hv := image_of_unbound hv
  free := free
  sites := ⟨[], (List.append_nil _).symm, .nil⟩

/-- A stored term is the earlier one with the assignment put in. -/
theorem tree_eq (h : Solves d st s st' s' θ) (hs : s.Sound st) (ht : st.Stored t) :
    s'.tree st' t = (s.tree st t).subst θ := by
  rw [h.kept.tree_eq (hs.grows h.grows) h.sound, hs.tree_grows h.grows ht]
  exact Tree.subst_congr fun v hv => h.image v (hs.knows_of_hasVar hv) (hs.get?_of_hasVar hv)

/-- A ground term stays as it is. -/
theorem tree_of_ground (h : Solves d st s st' s' θ) (hs : s.Sound st) (ht : st.Stored t)
    (ground : (s.tree st t).Ground) : s'.tree st' t = s.tree st t := by
  rw [h.tree_eq hs ht, ground.subst]

theorem congr (h : Solves d st s st' s' σ)
    (eq : ∀ v, st.Knows v → s.get? v = none → σ v = τ v) : Solves d st s st' s' τ where
  grows := h.grows
  sound := h.sound
  kept := h.kept
  within := h.within
  image v known hv := (h.image v known hv).trans (eq v known hv)
  free := h.free
  sites := h.sites

theorem trans (h : Solves d st s st' s' σ) (h' : Solves e st' s' st'' s'' τ) :
    Solves (d ++ e) st s st'' s'' (andThen σ τ) where
  grows := h.grows.trans h'.grows
  sound := h'.sound
  kept := h.kept.trans h'.kept
  within w := h'.within (h.within w)
  image v known hv := by
    have first := h.image v known hv
    rw [andThen, ← first]
    cases hb : s'.get? v with
    | none =>
      rw [image_of_unbound hb, Tree.subst_var]
      exact h'.image v (h.grows.knows known) hb
    | some u =>
      rw [image_of_bound hb, image_of_bound (h'.kept v u hb)]
      exact h'.tree_eq h.sound (h.sound.stored v u hb)
  free := h'.free
  sites := by
    obtain ⟨new, eq, shown⟩ := h.sites
    obtain ⟨more, eq', shown'⟩ := h'.sites
    refine ⟨new ++ more, by rw [eq', eq, List.append_assoc], List.rel_append ?_ shown'⟩
    refine shown.imp fun site p shows => ⟨?_, ?_, ?_, shows.ground⟩
    · exact ⟨h'.grows.stored shows.stored.1, h'.grows.stored shows.stored.2⟩
    · rw [h'.tree_of_ground h.sound shows.stored.1 (shows.matched ▸ shows.ground.1), shows.matched]
    · rw [h'.tree_of_ground h.sound shows.stored.2 (shows.replacement ▸ shows.ground.2),
        shows.replacement]

theorem later (h : Solves d st s st' s' θ) (g : st'.Grows st'') : Solves d st s st'' s' θ := by
  have on := h.trans (of_grows h.sound h.free g)
  rwa [Tree.andThen_var, List.append_nil] at on

/-- A variable is bound to a ground term. -/
theorem bind (hs : s.Sound st) (free : s.constraints = []) (ht : st.Stored t) (known : st.Knows v)
    (hv : s.get? v = none) (ground : (s.tree st t).Ground) :
    Solves [] st s st (s.bind v t) (only v (s.tree st t)) where
  grows := .refl st
  sound := hs.bind ht hv (ground v)
  kept := extends_bind hv
  within h w u hw := by
    rw [get?_bind] at hw
    split at hw
    · rename_i eq
      exact eq ▸ known
    · exact h w u hw
  image _ _ hw := hs.image_bind ht hv (ground v) hw
  free := free
  sites := ⟨[], (List.append_nil _).symm, .nil⟩

/-- A site is recorded. -/
theorem site {a b : TermId} (hs : s.Sound st) (free : s.constraints = []) (ha : st.Stored a)
    (hb : st.Stored b) (ground : (s.tree st a).Ground) (ground' : (s.tree st b).Ground) :
    Solves [(s.tree st a, s.tree st b)] st s st (s.addSite ⟨a, b⟩) .var := by
  have same : s.bindings = (s.addSite ⟨a, b⟩).bindings := rfl
  refine ⟨.refl st, hs.congr same, extends_congr same, id, fun v _ hv => image_of_unbound hv, free,
    [⟨a, b⟩], rfl, .cons ⟨⟨ha, hb⟩, ?_, ?_, ground, ground'⟩ .nil⟩
  · exact hs.tree_congr same a
  · exact hs.tree_congr same b

/-- What solves an assignment from a later store on solves it from the earlier one. -/
theorem back (h : Solves d st' s st'' s' θ) (hs : s.Sound st) (free : s.constraints = [])
    (g : st.Grows st') : Solves d st s st'' s' θ := by
  have on := (of_grows hs free g).trans h
  rwa [Tree.var_andThen, List.nil_append] at on

/-- A variable that is not assigned anything is still open. -/
theorem get?_eq_none (h : Solves d st s st' s' θ) (known : st.Knows v) (hv : s.get? v = none)
    (eq : θ v = .var v) : s'.get? v = none := by
  have image := h.image v known hv
  cases hb : s'.get? v with
  | none => rfl
  | some u =>
    rw [image_of_bound hb, eq] at image
    have has : (s'.tree st' u).HasVar v := image ▸ .var
    rw [h.sound.get?_of_hasVar has] at hb
    cases hb

end Solves

end Subst

namespace Search

/-- Answers from a store and a substitution on, with the sites that are recorded meanwhile. -/
abbrev Solving (d : List (Tree × Tree)) (st : Store) (s : Subst) (ses : Session) (s' : Subst)
    (θ : UInt32 → Tree) : Prop := Subst.Solves d st s ses.store s' θ

namespace Gives

variable {still : Prop} {ses ses' : Session} {inner search : Search} {goal : Goal}
  {A : Set (UInt32 → Tree)}

theorem back (h : Gives still (Solving d st' s) ses search A) (hs : s.Sound st)
    (free : s.constraints = []) (g : st.Grows st') : Gives still (Solving d st s) ses search A :=
  h.imp fun _ _ _ _ solved => solved.back hs free g

/-- Further answers, behind one for `σ`. -/
theorem after (h : Gives still (Solving e ses'.store s') ses search A)
    (solved : Subst.Solves d st s ses'.store s' σ) :
    Gives still (Solving (d ++ e) st s) ses search (andThen σ '' A) :=
  h.map (andThen σ) (fun _ _ _ _ more => solved.trans more) id

/-- Each answer of the inner search goes on into the goal. -/
theorem bind_after {C : (UInt32 → Tree) → Set (UInt32 → Tree)}
    (h : Gives still (Solving d st s) ses inner A)
    (hg : ∀ σ ∈ A, ∀ ses' s', ses.Later ses' → Subst.Solves d st s ses'.store s' σ →
      Gives still (Solving e ses'.store s') ses' (.apply goal s') (C σ)) :
    Gives still (Solving (d ++ e) st s) ses (.bind inner goal) (⋃ σ ∈ A, andThen σ '' C σ) :=
  h.bind fun σ mem ses' s' l solved => (hg σ mem ses' s' l solved).after solved

end Gives

variable {F : Facts} {ses ses' : Session} {a b x y : TermId}

/-- A site of ground terms is recorded. -/
theorem site_gives {still : Prop} (hs : s.Sound ses.store) (free : s.constraints = [])
    (ha : ses.store.Stored a) (hb : ses.store.Stored b) (ground : (s.tree ses.store a).Ground)
    (ground' : (s.tree ses.store b).Ground) :
    Gives still (Solving [(s.tree ses.store a, s.tree ses.store b)] ses.store s) ses
      (.apply (.site a b) s) {Tree.var} := by
  refine .apply fun ses' l _ => ?_
  have count := Session.count_keeps Counters.countRuleMatch ses'
  refine ⟨count.goes, fun _ => .unit fun ses'' l' => ?_⟩
  exact (Subst.Solves.site hs free ha hb ground ground').later (l.trans (count.later.trans l')).grows.store

/-- A ground term and a pattern in a search in which no disequality waits. -/
structure Facing (F : Facts) (ses : Session) (s : Subst) (a b : TermId) : Prop where
  facts : ses.facts = F
  sound : s.Sound ses.store
  free : s.constraints = []
  left : ses.store.Stored a
  right : ses.store.Stored b
  ground : (s.tree ses.store a).Ground

namespace Facing

theorem after (h : Facing F ses s a b) (g : ses.Grows ses')
    (solved : Subst.Solves d ses.store s ses'.store s' θ) : Facing F ses' s' a b where
  facts := g.facts.trans h.facts
  sound := solved.sound
  free := solved.free
  left := g.store.stored h.left
  right := g.store.stored h.right
  ground := by
    rw [solved.tree_of_ground h.sound h.left h.ground]
    exact h.ground

theorem grows (h : Facing F ses s a b) (g : ses.Grows ses') : Facing F ses' s a b :=
  h.after g (.of_grows h.sound h.free g.store)

theorem deref (h : Facing F ses s a b) :
    Facing F ses s (s.deref ses.store a) (s.deref ses.store b) where
  facts := h.facts
  sound := h.sound
  free := h.free
  left := h.sound.stored_deref h.left
  right := h.sound.stored_deref h.right
  ground := by
    rw [h.sound.tree_deref]
    exact h.ground

/-- Other terms in the same place. -/
theorem part (h : Facing F ses s a b) (left : ses.store.Stored x) (right : ses.store.Stored y)
    (ground : (s.tree ses.store x).Ground) : Facing F ses s x y :=
  ⟨h.facts, h.sound, h.free, left, right, ground⟩

end Facing

/-! ## Unification -/

variable {still : Prop}

/-- A unification that succeeds with a known substitution. -/
theorem unify_provides {t : Subst}
    (h : ∀ ses', ses.Grows ses' → s.unify ses'.store a b = some t)
    (solved : ∀ ses', ses.Grows ses' → Subst.Solves [] ses.store s ses'.store t θ) :
    Provides still (Solving [] ses.store s) ses (Search.unify a b s) {θ} := by
  intro ses' l _
  have count := Session.count_keeps Counters.countUnification ses'
  rw [unify_apply, h ses' l.grows]
  exact ⟨count.goes, fun _ => .unit fun ses'' l' => solved ses'' (l.trans (count.later.trans l')).grows⟩

theorem unify_fails {A : Set (UInt32 → Tree)} (no : A = ∅)
    (h : ∀ ses', ses.Grows ses' → s.unify ses'.store a b = none) :
    Provides still (Solving [] ses.store s) ses (Search.unify a b s) A := by
  intro ses' l _
  rw [unify_apply, h ses' l.grows, no]
  exact ⟨(Session.count_keeps _ ses').goes, fun _ => .empty⟩

/-- A unification that binds a variable to a ground term, whichever of the two stands first. -/
theorem Facing.unify_binds {x y : TermId} (h : Facing F ses s a b)
    (hb : ses.store.term? (s.deref ses.store b) = some (.var v))
    (unified : ∀ ses', Facing F ses' s a b → ses'.store.term? (s.deref ses'.store b) = some (.var v) →
      s.unify ses'.store x y = some (s.bind v (s.deref ses'.store a))) :
    Provides still (Solving [] ses.store s) ses (Search.unify x y s)
      {only v (s.tree ses.store a)} := by
  have tree := h.sound.tree_deref a
  have bound := Subst.Solves.bind (v := v) h.sound h.free (h.sound.stored_deref h.left)
    ⟨_, hb⟩ (h.sound.get?_of_deref hb) (tree ▸ h.ground)
  rw [tree] at bound
  refine unify_provides (t := s.bind v (s.deref ses.store a)) (fun ses' g => ?_)
    fun ses' g => bound.later g.store
  rw [← h.sound.deref_grows g.store h.left]
  refine unified ses' (h.grows g) ?_
  rw [h.sound.deref_grows g.store h.right]
  exact g.store.keeps _ _ hb

/-- A variable on the right is bound to a ground term. -/
theorem Facing.unify_right (h : Facing F ses s a b)
    (hb : ses.store.term? (s.deref ses.store b) = some (.var v)) :
    Provides still (Solving [] ses.store s) ses (Search.unify a b s)
      {only v (s.tree ses.store a)} :=
  h.unify_binds hb fun _ h' hb' => h'.sound.unify_var_right h'.free h'.left hb' h'.ground

/-- A variable on the left is bound to a ground term. -/
theorem Facing.unify_left (h : Facing F ses s a b)
    (hb : ses.store.term? (s.deref ses.store b) = some (.var v)) :
    Provides still (Solving [] ses.store s) ses (Search.unify b a s)
      {only v (s.tree ses.store a)} :=
  h.unify_binds hb fun _ h' hb' => h'.sound.unify_var_left h'.free h'.left hb' h'.ground

/-- Two ground terms unify if their trees agree, and nothing is bound. -/
theorem Facing.unify_ground (h : Facing F ses s a b) (ground : (s.tree ses.store b).Ground) :
    Provides still (Solving [] ses.store s) ses (Search.unify a b s)
      {θ | Tree.Agree (s.tree ses.store a) (s.tree ses.store b) ∧ θ = .var} := by
  have unified : ∀ ses', ses.Grows ses' → ∀ t, s.unify ses'.store a b = some t ↔
      Tree.Agree (s.tree ses.store a) (s.tree ses.store b) ∧ t = s := by
    intro ses' g t
    have h' := h.grows g
    rw [← h.sound.tree_grows g.store h.left, ← h.sound.tree_grows g.store h.right]
    refine h'.sound.unify_ground h'.free h'.left h'.right h'.ground ?_ t
    rw [h.sound.tree_grows g.store h.right]
    exact ground
  by_cases agree : Tree.Agree (s.tree ses.store a) (s.tree ses.store b)
  · have one : {θ | Tree.Agree (s.tree ses.store a) (s.tree ses.store b) ∧ θ = .var} = {Tree.var} :=
      Set.ext fun θ => and_iff_right agree
    rw [one]
    exact unify_provides (fun ses' g => (unified ses' g s).mpr ⟨agree, rfl⟩)
      fun ses' g => .of_grows h.sound h.free g.store
  · refine unify_fails (Set.eq_empty_of_forall_notMem fun θ mem => agree mem.1) fun ses' g => ?_
    by_contra some
    obtain ⟨t, ht⟩ := Option.ne_none_iff_exists'.mp some
    exact agree ((unified ses' g t).mp ht).1

end Search

end Regraft
