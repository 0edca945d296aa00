import Regraft.Proofs.Rewriting.Anywhere
import Regraft.Proofs.Search.Meets
import Regraft.Rewriting.Walk

/-
  What the results of a walk satisfy. A result is read under an answer of the search for positions,
  so that the rule relates it to the input at one position (`start_yields`); checking the sites and
  reading the result only let the store grow (`turn_turned`).
-/

namespace Regraft

variable {F : Facts} {V : Vocabulary F} {P : Tree → Prop} {ses ses' : Session} {s : Subst} {t : TermId}

/-- A stored term whose tree has a property. -/
structure Holds (P : Tree → Prop) (ses : Session) (t : TermId) : Prop where
  valid : ses.store.Valid
  stored : ses.store.Stored t
  tree : P (ses.store.tree t)

theorem Holds.grows (h : Holds P ses t) (g : ses.Grows ses') : Holds P ses' t where
  valid := g.store.valid h.valid
  stored := g.store.stored h.stored
  tree := by
    rw [g.store.tree_eq h.valid h.stored]
    exact h.tree

/-! ## Sites -/

theorem Session.reify_grows (hs : s.Sound ses.store) (ht : ses.store.Stored t) :
    ses.Grows (Session.reify s t ses).2 := Session.onStore_grows (hs.reify_reads ht).grows

namespace Subst

theorem checkSitesFrom_cons (s : Subst) (seen : List (TermId × TermId)) (site : Site)
    (rest : List Site) (ses : Session) : s.checkSitesFrom seen (site :: rest) ses =
      let matched := Session.reify s site.matched ses
      let replacement := Session.reify s site.replacement matched.2
      match seen.lookup matched.1 with
      | none => s.checkSitesFrom ((matched.1, replacement.1) :: seen) rest replacement.2
      | some first =>
        if first = replacement.1 then s.checkSitesFrom seen rest replacement.2
        else (.error (.inconsistent matched.1 first replacement.1), replacement.2) := by
  rw [checkSitesFrom]
  simp only [SessionM.bind_apply]
  cases seen.lookup (Session.reify s site.matched ses).1 with
  | none => rfl
  | some first =>
    dsimp only
    split <;> rfl

theorem checkSitesFrom_grows {sites : List Site} {seen : List (TermId × TermId)}
    (hs : s.Sound ses.store)
    (h : ∀ site ∈ sites, ses.store.Stored site.matched ∧ ses.store.Stored site.replacement) :
    ses.Grows (s.checkSitesFrom seen sites ses).2 := by
  induction sites generalizing seen ses with
  | nil => exact .refl ses
  | cons site rest ih =>
    rw [List.forall_mem_cons] at h
    have g₁ := Session.reify_grows hs h.1.1
    have g₂ := Session.reify_grows (hs.grows g₁.store) (g₁.store.stored h.1.2)
    have g := g₁.trans g₂
    have later : ∀ {seen}, ses.Grows (s.checkSitesFrom seen rest (Session.reify s site.replacement
        (Session.reify s site.matched ses).2).2).2 := by
      intro seen
      refine g.trans (ih (hs.grows g.store) fun site hsite => ?_)
      exact ⟨g.store.stored (h.2 site hsite).1, g.store.stored (h.2 site hsite).2⟩
    rw [checkSitesFrom_cons]
    dsimp only
    split
    · exact later
    · split
      · exact later
      · exact g

/-- Sites that matched different terms are consistent, also with the sites looked at before. -/
theorem checkSitesFrom_ok {sites : List Site} {seen : List (TermId × TermId)} (hs : s.Sound ses.store)
    (h : ∀ site ∈ sites, ses.store.Stored site.matched ∧ ses.store.Stored site.replacement)
    (distinct : (sites.map fun site => s.tree ses.store site.matched).Nodup) (g : ses.Grows ses')
    (new : ∀ p ∈ seen, ses'.store.Stored p.1 ∧
      ses'.store.tree p.1 ∉ sites.map fun site => s.tree ses.store site.matched) :
    (s.checkSitesFrom seen sites ses').1 = .ok () := by
  induction sites generalizing seen ses' with
  | nil => rfl
  | cons site rest ih =>
    rw [List.forall_mem_cons] at h
    rw [List.map_cons, List.nodup_cons] at distinct
    have hs' := hs.grows g.store
    have reads := hs'.reify_reads (g.store.stored h.1.1)
    have g₁ := Session.reify_grows hs' (g.store.stored h.1.1)
    have g₂ := Session.reify_grows (hs'.grows g₁.store) ((g.trans g₁).store.stored h.1.2)
    rw [hs.tree_grows g.store h.1.1] at reads
    rw [checkSitesFrom_cons]
    dsimp only
    have absent : seen.lookup (Session.reify s site.matched ses').1 = none := by
      rw [List.lookup_eq_none_iff]
      intro p mem
      obtain ⟨known, ne⟩ := new p mem
      rw [bne_iff_ne]
      intro eq
      rw [← g₁.store.tree_eq hs'.valid known, ← eq] at ne
      exact ne (reads.tree_eq ▸ .head _)
    rw [absent]
    refine ih h.2 distinct.2 (g.trans (g₁.trans g₂)) fun p mem => ?_
    rcases List.mem_cons.mp mem with rfl | mem
    · have tree : (Session.reify s site.matched ses').2.store.tree
        (Session.reify s site.matched ses').1 = s.tree ses.store site.matched := reads.tree_eq
      have stored : (Session.reify s site.matched ses').2.store.Stored
        (Session.reify s site.matched ses').1 := reads.stored
      refine ⟨g₂.store.stored stored, ?_⟩
      dsimp only
      rw [g₂.store.tree_eq (g₁.store.valid hs'.valid) stored, tree]
      exact distinct.1
    · obtain ⟨known, ne⟩ := new p mem
      refine ⟨(g₁.trans g₂).store.stored known, fun found => ne (.tail _ ?_)⟩
      rwa [(g₁.trans g₂).store.tree_eq hs'.valid known] at found

end Subst

/-! ## Walks -/

/-- What an answer of a walk's search gives: the tree that the output stands for has a property. -/
structure Resolved (P : Tree → Prop) (output : TermId) (ses : Session) (s : Subst) : Prop where
  sound : s.Sound ses.store
  stored : ses.store.Stored output
  sites : s.SitesStored ses.store
  tree : P (s.tree ses.store output)

/-- The output of an answer is read as a term with the property. -/
theorem Resolved.reify {output : TermId} (h : Resolved P output ses s) :
    Holds P (Session.reify s output ses).2 (Session.reify s output ses).1 := by
  have reads := h.sound.reify_reads h.stored
  refine ⟨reads.grows.valid h.sound.valid, reads.stored, ?_⟩
  show P ((s.reify output ses.store).2.tree (s.reify output ses.store).1)
  rw [reads.tree_eq]
  exact h.tree

theorem Resolved.grows {output : TermId} (h : Resolved P output ses s) (g : ses.Grows ses') :
    Resolved P output ses' s where
  sound := h.sound.grows g.store
  stored := g.store.stored h.stored
  sites site hsite :=
    ⟨g.store.stored (h.sites site hsite).1, g.store.stored (h.sites site hsite).2⟩
  tree := by
    rw [h.sound.tree_grows g.store h.stored]
    exact h.tree

namespace Walk

/-- All results of a walk have a property. -/
def Yields (P : Tree → Prop) (ses : Session) (w : Walk) : Prop :=
  ∀ n, Search.MeetsFor (Resolved P w.output) n ses w.search

theorem Yields.grows {w : Walk} (h : w.Yields P ses) (g : ses.Grows ses') : w.Yields P ses' :=
  fun n => (h n).grows g

/-- What a turn of a walk comes to. -/
def Turned (P : Tree → Prop) : Turn Walk (Except RewriteError TermId) × Session → Prop
  | (.working w, ses) => w.Yields P ses
  | (.yielded (.ok t) w, ses) => Holds P ses t ∧ w.Yields P ses
  | (.yielded (.error _) w, ses) => w.Yields P ses
  | (.finished, _) => True

theorem turn_eq (w : Walk) (ses : Session) : w.turn ses = match w.search.turn ses with
    | (.working rest, ses') => (.working { w with search := rest }, ses')
    | (.yielded s rest, ses') => w.accept s rest ses'
    | (.finished, ses') => (.finished, ses') := by
  rw [turn, SessionM.bind_apply]
  generalize w.search.turn ses = r
  obtain ⟨next, ses'⟩ := r
  cases next <;> rfl

theorem accept_eq (w : Walk) (s : Subst) (rest : Search) (ses : Session) :
    w.accept s rest ses = match s.checkSites ses with
      | (.error e, ses') => (.yielded (.error e) { w with search := rest }, ses')
      | (.ok (), ses') =>
        let result := Session.reify s w.output ses'
        if w.seen.contains result.1 then (.working { w with search := rest }, result.2)
        else (.yielded (.ok result.1) { w with search := rest, seen := result.1 :: w.seen },
          (Session.count Counters.countWalkResult result.2).2) := by
  rw [accept, SessionM.bind_apply]
  generalize s.checkSites ses = r
  obtain ⟨checked, ses'⟩ := r
  cases checked with
  | error e => rfl
  | ok _ =>
    dsimp only
    rw [SessionM.bind_apply]
    split <;> rfl

theorem accept_turned {w : Walk} {rest : Search} (answer : Resolved P w.output ses s)
    (more : ∀ n, Search.MeetsFor (Resolved P w.output) n ses rest) :
    ses.Grows (w.accept s rest ses).2 ∧ Turned P (w.accept s rest ses) := by
  have checked : ses.Grows (s.checkSites ses).2 :=
    Subst.checkSitesFrom_grows answer.sound answer.sites
  rw [accept_eq]
  match h : s.checkSites ses with
  | (.error e, ses') =>
    rw [h] at checked
    exact ⟨checked, fun n => (more n).grows checked⟩
  | (.ok (), ses') =>
    rw [h] at checked
    have result := (answer.grows checked).reify
    have read := checked.trans (Session.reify_grows (t := w.output) (answer.sound.grows checked.store)
      (checked.store.stored answer.stored))
    dsimp only
    split
    · exact ⟨read, fun n => (more n).grows read⟩
    · have count := Session.count_grows Counters.countWalkResult (Session.reify s w.output ses').2
      exact ⟨read.trans count, result.grows count, fun n => (more n).grows (read.trans count)⟩

/-- A turn keeps what is known of a walk, and its result has the property. -/
theorem turn_turned {w : Walk} (h : w.Yields P ses) :
    ses.Grows (w.turn ses).2 ∧ Turned P (w.turn ses) := by
  have count := Session.count_grows Counters.countStep ses
  have step := fun n => h (n + 1) _ count
  rw [turn_eq, Search.turn_eq]
  match hstep : w.search.step (Session.count Counters.countStep ses).2 with
  | (.emit s rest, ses') =>
    rw [hstep] at step
    obtain ⟨g, turned⟩ := accept_turned (step 0).2.1 fun n => (step n).2.2
    exact ⟨(count.trans (step 0).1).trans g, turned⟩
  | (.continue rest, ses') =>
    rw [hstep] at step
    exact ⟨count.trans (step 0).1, fun n => (step n).2⟩
  | (.exhausted, ses') =>
    rw [hstep] at step
    exact ⟨count.trans (step 0).1, trivial⟩

/-- A walk begins with a search for positions. Its results are over the vocabulary, and the rule
    relates the input to them at one position. -/
theorem start_yields {rule : Rule} {R : List Tree → Tree → Tree → Prop} (stable : Search.Stable R)
    (hr : Search.RelationSound V [] R rule.relate) (facts : ses.facts = F)
    (h : Holds (Tree.Over V.has) ses t)
    (step : ∀ σ u, Tree.Rewrites (R []) ((ses.store.tree t).subst σ) u → u.Over V.has → P u) :
    ses.Grows (start rule t ses).2 ∧ (start rule t ses).1.Yields P (start rule t ses).2 := by
  have g := Session.fresh_grows ses
  refine ⟨g, fun n => ?_⟩
  have var : (Session.fresh ses).2.store.term? (Session.fresh ses).1 = _ := Store.term?_fresh _
  show Search.MeetsFor (Resolved P (Session.fresh ses).1) n (Session.fresh ses).2
    (.apply (.anywhere rule.relate t (Session.fresh ses).1) .empty)
  generalize Session.fresh ses = fresh at g var ⊢
  obtain ⟨output, ses'⟩ := fresh
  have same := g.store.tree_eq h.valid h.stored
  replace h := h.grows g
  have sound := Subst.Sound.empty h.valid
  have open' : ∀ v, Subst.empty.image ses'.store v = .var v := fun v =>
    Subst.image_of_unbound (Subst.get?_empty v)
  have place : Search.Place V [] ses' .empty t output := by
    refine ⟨⟨g.facts.trans facts, sound, h.stored, Store.stored_of_term? var, ?_, ?_⟩, ?_, nofun, nofun⟩
    · rw [Subst.tree_empty h.valid]
      exact h.tree
    · rw [sound.tree_var var, open']
      exact .var _
    · intro v
      rw [open']
      exact .var v
  refine (Search.anywhere_meets stable hr n place).imp fun ses'' s related => ?_
  have adv := related.advance
  refine ⟨adv.sound, adv.grows.stored place.ready.right, related.sites nofun, ?_⟩
  have rewrites := related.rel
  rw [adv.tree_eq sound h.stored, Subst.tree_empty h.valid, same] at rewrites
  exact step _ _ rewrites (adv.labels output place.ready.right place.ready.overRight)

/-! ## Results -/

/-- A result that is pulled out of a walk, past as many turns, errors and other results as it takes. -/
inductive Result : Session → Walk → TermId → Session → Prop
  | here {ses ses' : Session} {w rest : Walk} {t : TermId} {turns : Nat}
      (pulled : pull Walk.turn turns w ses = (.result (.ok t) rest, ses')) : Result ses w t ses'
  | later {ses ses' ses'' : Session} {w rest : Walk} {r : Except RewriteError TermId} {t : TermId}
      {turns : Nat} (pulled : pull Walk.turn turns w ses = (.result r rest, ses'))
      (result : Result ses' rest t ses'') : Result ses w t ses''

theorem pull_yields {turns : Nat} {w rest : Walk} {r : Except RewriteError TermId}
    (h : w.Yields P ses) (pulled : pull Walk.turn turns w ses = (.result r rest, ses')) :
    ses.Grows ses' ∧ rest.Yields P ses' ∧ ∀ t, r = .ok t → Holds P ses' t := by
  induction turns generalizing ses w with
  | zero => cases pulled
  | succ turns ih =>
    obtain ⟨g, turned⟩ := turn_turned h
    rw [pull_succ] at pulled
    match hturn : w.turn ses with
    | (.working next, ses₁) =>
      rw [hturn] at g turned pulled
      obtain ⟨g', rest, result⟩ := ih turned pulled
      exact ⟨g.trans g', rest, result⟩
    | (.finished, ses₁) =>
      rw [hturn] at pulled
      cases pulled
    | (.yielded (.error e) next, ses₁) =>
      rw [hturn] at g turned pulled
      cases pulled
      exact ⟨g, turned, nofun⟩
    | (.yielded (.ok u) next, ses₁) =>
      rw [hturn] at g turned pulled
      cases pulled
      refine ⟨g, turned.2, fun t ht => ?_⟩
      cases ht
      exact turned.1

/-- What all results of a walk have, a pulled one has. -/
theorem Result.holds {w : Walk} (h : w.Yields P ses) (result : Result ses w t ses') :
    ses.Grows ses' ∧ Holds P ses' t := by
  induction result with
  | here pulled =>
    obtain ⟨g, -, holds⟩ := pull_yields h pulled
    exact ⟨g, holds _ rfl⟩
  | later pulled _ ih =>
    obtain ⟨g, rest, -⟩ := pull_yields h pulled
    obtain ⟨g', holds⟩ := ih rest
    exact ⟨g.trans g', holds⟩

/-- While a walk has no results its turns are those of its search, up to the first answer. -/
theorem pull_of_search {turns : Nat} {w : Walk} {rest : Search} (seen : w.seen = [])
    (pulled : pull Search.turn turns w.search ses = (.result s rest, ses'))
    (consistent : (s.checkSites ses').1 = .ok ()) : ∃ next ses'',
      pull Walk.turn turns w ses =
        (.result (.ok (Session.reify s w.output (s.checkSites ses').2).1) next, ses'') ∧
      ses'' = (Session.count Counters.countWalkResult
        (Session.reify s w.output (s.checkSites ses').2).2).2 := by
  induction turns generalizing ses w with
  | zero => cases pulled
  | succ turns ih =>
    rw [pull_succ] at pulled
    rw [pull_succ, turn_eq]
    match hturn : w.search.turn ses with
    | (.working search, ses₁) =>
      rw [hturn] at pulled
      exact ih seen pulled
    | (.finished, ses₁) =>
      rw [hturn] at pulled
      cases pulled
    | (.yielded s search, ses₁) =>
      rw [hturn] at pulled
      cases pulled
      dsimp only
      rw [accept_eq]
      match checked : s.checkSites ses' with
      | (.error e, ses₂) =>
        rw [checked] at consistent
        cases consistent
      | (.ok (), ses₂) =>
        dsimp only
        rw [seen]
        exact ⟨_, _, rfl, rfl⟩

/-- The first answer of a walk's search is its first result, if all sites matched different terms. -/
theorem exists_result {turns : Nat} {w : Walk} {rest : Search} (h : w.Yields P ses)
    (seen : w.seen = []) (pulled : pull Search.turn turns w.search ses = (.result s rest, ses'))
    (distinct : (s.sites.map fun site => s.tree ses'.store site.matched).Nodup) :
    ∃ t ses'', Result ses w t ses'' ∧ ses''.store.tree t = s.tree ses'.store w.output := by
  obtain ⟨g, answer, -⟩ := Search.pull_meets h pulled
  have checked : ses'.Grows (s.checkSites ses').2 :=
    Subst.checkSitesFrom_grows answer.sound answer.sites
  have consistent : (s.checkSites ses').1 = .ok () :=
    Subst.checkSitesFrom_ok answer.sound answer.sites distinct (.refl ses') nofun
  obtain ⟨next, ses'', result, rfl⟩ := pull_of_search seen pulled consistent
  have reads := (answer.sound.grows checked.store).reify_reads (checked.store.stored answer.stored)
  refine ⟨_, _, .here result, reads.tree_eq.trans ?_⟩
  exact answer.sound.tree_grows checked.store answer.stored

theorem firstChange_succ (input : TermId) (turns : Nat) (w : Walk) (ses : Session) :
    firstChange input (turns + 1) w ses = match w.turn ses with
      | (.working next, ses') => firstChange input turns next ses'
      | (.finished, ses') => (some (.error .patternNotFound), ses')
      | (.yielded (.error e) _, ses') => (some (.error e), ses')
      | (.yielded (.ok t) next, ses') =>
        if t = input then firstChange input turns next ses' else (some (.ok t), ses') := by
  rw [firstChange, SessionM.bind_apply]
  generalize w.turn ses = r
  obtain ⟨next, ses'⟩ := r
  cases next with
  | working w => rfl
  | finished => rfl
  | yielded result w => cases result with
    | error e => rfl
    | ok t =>
      dsimp only
      split <;> rfl

/-- The first change has the property of all results. -/
theorem firstChange_holds {turns : Nat} {input : TermId} {w : Walk} (h : w.Yields P ses) :
    ses.Grows (firstChange input turns w ses).2 ∧ ∀ t,
      (firstChange input turns w ses).1 = some (.ok t) →
        Holds P (firstChange input turns w ses).2 t := by
  induction turns generalizing ses w with
  | zero => exact ⟨.refl ses, nofun⟩
  | succ turns ih =>
    obtain ⟨g, turned⟩ := turn_turned h
    have later : ∀ {next ses'}, ses.Grows ses' → next.Yields P ses' →
        ses.Grows (firstChange input turns next ses').2 ∧ ∀ t,
          (firstChange input turns next ses').1 = some (.ok t) →
            Holds P (firstChange input turns next ses').2 t :=
      fun g h => ⟨g.trans (ih h).1, (ih h).2⟩
    rw [firstChange_succ]
    match hturn : w.turn ses with
    | (.working next, ses') =>
      rw [hturn] at g turned
      exact later g turned
    | (.finished, ses') =>
      rw [hturn] at g
      exact ⟨g, nofun⟩
    | (.yielded (.error e) next, ses') =>
      rw [hturn] at g
      exact ⟨g, nofun⟩
    | (.yielded (.ok u) next, ses') =>
      rw [hturn] at g turned
      dsimp only
      split
      · exact later g turned.2
      · refine ⟨g, fun t ht => ?_⟩
        cases ht
        exact turned.1

end Walk

end Regraft
