import Regraft.Proofs.Search.Meets
import Regraft.Proofs.Unify.Sound

/-
  What the elementary goals establish: the answers of an equation make its sides alike, and the other
  goals keep the bindings.
-/

namespace Regraft

variable {F : Facts} {V : Vocabulary F} {Q : Session → Subst → Prop} {n : Nat} {ses ses' : Session}
  {s s' : Subst} {a b : TermId}

/-- A place in a search: a sound substitution, and two stored terms over the vocabulary. -/
structure Ready (V : Vocabulary F) (ses : Session) (s : Subst) (a b : TermId) : Prop where
  facts : ses.facts = F
  sound : s.Sound ses.store
  left : ses.store.Stored a
  right : ses.store.Stored b
  overLeft : (s.tree ses.store a).Over V.has
  overRight : (s.tree ses.store b).Over V.has

theorem Ready.advance (h : Ready V ses s a b) (g : ses.Grows ses')
    (adv : Subst.Advance V.has ses.store s ses'.store s') : Ready V ses' s' a b where
  facts := g.facts.trans h.facts
  sound := adv.sound
  left := g.store.stored h.left
  right := g.store.stored h.right
  overLeft := adv.labels a h.left h.overLeft
  overRight := adv.labels b h.right h.overRight

theorem Ready.grows (h : Ready V ses s a b) (g : ses.Grows ses') : Ready V ses' s a b :=
  h.advance g (.of_grows h.sound g.store)

theorem Ready.symm (h : Ready V ses s a b) : Ready V ses s b a :=
  ⟨h.facts, h.sound, h.right, h.left, h.overRight, h.overLeft⟩

/-- The operands of two applications, each with each. -/
theorem Ready.operands (h : Ready V ses s a b) {xs ys : List TermId} {attrs attrs' : Attrs}
    {op : String} (ha : ses.store.term? a = some (.app op xs attrs))
    (hb : ses.store.term? b = some (.app op ys attrs')) : ∀ x ∈ xs, ∀ y ∈ ys, Ready V ses s x y := by
  intro x hx y hy
  have overA := h.overLeft
  have overB := h.overRight
  rw [h.sound.tree_app ha, Tree.over_app] at overA
  rw [h.sound.tree_app hb, Tree.over_app] at overB
  exact ⟨h.facts, h.sound, h.sound.valid.stored ha hx, h.sound.valid.stored hb hy,
    overA.2 _ (List.mem_map_of_mem hx), overB.2 _ (List.mem_map_of_mem hy)⟩

theorem Ready.deref (h : Ready V ses s a b) :
    Ready V ses s (s.deref ses.store a) (s.deref ses.store b) where
  facts := h.facts
  sound := h.sound
  left := h.sound.stored_deref h.left
  right := h.sound.stored_deref h.right
  overLeft := by
    rw [h.sound.tree_deref]
    exact h.overLeft
  overRight := by
    rw [h.sound.tree_deref]
    exact h.overRight

/-- What the answers of an equation satisfy: its sides are alike whatever the facts. -/
structure Equated (V : Vocabulary F) (st : Store) (s : Subst) (a b : TermId) (ses' : Session)
    (s' : Subst) : Prop where
  advance : Subst.Advance V.has st s ses'.store s'
  sites : s'.sites = s.sites
  alike : ∀ G, Tree.Alike G (s'.tree ses'.store a) (s'.tree ses'.store b)

namespace Search

theorem unify_apply (a b : TermId) (s : Subst) (ses : Session) :
    Search.unify a b s ses = match s.unify ses.store a b with
      | none => (.empty, (Session.count Counters.countUnificationFailure ses).2)
      | some t => (unit t, (Session.count Counters.countUnification ses).2) := by
  show (match s.unify ses.store a b with
    | none => mismatch
    | some t => do
      Session.count Counters.countUnification
      return unit t : SessionM Search) ses = _
  cases s.unify ses.store a b <;> rfl

theorem mismatch_setsUp : SetsUp Q n ses mismatch := by
  intro ses' _
  exact ⟨Session.count_grows _ ses', .empty⟩

/-- The answers of a unification make the two terms alike. -/
theorem unify_setsUp (h : Ready V ses s a b) :
    SetsUp (Equated V ses.store s a b) n ses (Search.unify a b s) := by
  intro ses' g
  have h' := h.grows g
  rw [unify_apply]
  split
  · exact ⟨Session.count_grows _ ses', .empty⟩
  · rename_i t ht
    have unified := Subst.unify_sound h'.sound h'.left h'.right h'.overLeft h'.overRight ht
    refine ⟨Session.count_grows _ ses', .unit fun ses'' g'' => ?_⟩
    have adv : Subst.Advance V.has ses'.store t ses''.store t :=
      .of_grows unified.advance.sound g''.store
    refine ⟨?_, unified.sites, fun G => ?_⟩
    · exact (Subst.Advance.of_grows h.sound g.store).trans (unified.advance.trans adv)
    · exact adv.alike unified.advance.sound h'.left h'.right (unified.alike G)

/-- A search for ever has no answers to be wrong. -/
theorem MeetsFor.never : MeetsFor Q n ses (.apply .never s) := by
  have series : ∀ n k ses, MeetsFor Q n ses (.apply (.series (fun _ => Goal.fail) k) s) := by
    intro n
    induction n with
    | zero => exact fun _ _ => trivial
    | succ n ih =>
      intro k ses
      refine .apply fun ses' g => ?_
      exact ⟨.refl ses', ih (k + 1) ses'⟩
  exact series n 0 ses

end Search

namespace Goal

/-- A disequality that is not violated already gives one answer. -/
theorem neq_apply (a b : TermId) (s : Subst) (ses : Session) :
    (Goal.neq a b).apply s ses = match s.requireDistinct ses.store a b with
      | some t => (Search.unit t, ses)
      | none => (.empty, (Session.count Counters.countDisequalityFailure ses).2) := by
  show (match s.requireDistinct ses.store a b with
    | some t => pure (Search.unit t)
    | none => do
      Session.count Counters.countDisequalityFailure
      return Search.empty : SessionM Search) ses = _
  cases s.requireDistinct ses.store a b <;> rfl

theorem eq_meets (h : Ready V ses s a b) :
    Search.MeetsFor (Equated V ses.store s a b) n ses (.apply (.eq a b) s) := by
  cases n with
  | zero => trivial
  | succ n => exact .apply (Search.unify_setsUp h)

end Goal

end Regraft
