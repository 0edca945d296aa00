import Regraft.Proofs.Rewriting.Effects
import Regraft.Proofs.Rewriting.Walk

/-
  Walks from their start to their end. What a walk yields within some turns is `Walk.run`. If its search
  comes to an end and answers some effects, then the walk ends too, and yields for each effect the result
  if its sites are consistent, and else a report of two sites that are not; it yields no result twice
  (`Walk.run_spec`).
-/

namespace Regraft

/-! ## Terms and their trees -/

namespace Store

variable {st : Store} {t u : TermId}

/-- The tree of a term, one layer of it. -/
theorem Valid.tree_of_term? (hv : st.Valid) {x : Term} (h : st.term? t = some x) :
    st.tree t = match x with
      | .var v => .var v
      | .leaf l => .leaf l
      | .app op args attrs => .app op (args.map st.tree) attrs := by
  cases x with
  | var v => exact hv.tree_var h
  | leaf l => exact hv.tree_leaf h
  | app op args attrs => exact hv.tree_app h

/-- A stored term is told by its tree. -/
theorem Valid.eq_of_tree_eq (hv : st.Valid) (ht : st.Stored t) (hu : st.Stored u)
    (eq : st.tree t = st.tree u) : t = u := by
  generalize same : st.tree t = x at eq
  induction x generalizing t u with
  | app op ts attrs ih =>
    obtain ⟨args, ht', rfl⟩ := hv.term?_of_tree_app same
    obtain ⟨args', hu', eq'⟩ := hv.term?_of_tree_app eq.symm
    have operands : args = args' := by
      refine List.ext_getElem (by simpa using congrArg List.length eq') fun i h h' => ?_
      have mem := List.getElem_mem h
      have bound : i < (args.map st.tree).length := by rwa [List.length_map]
      have here := List.getElem_of_eq eq' bound
      rw [List.getElem_map, List.getElem_map] at here
      exact ih _ (List.mem_map_of_mem mem) (hv.stored ht' mem) (hv.stored hu' (List.getElem_mem h'))
        rfl here
    exact term?_inj ht' (operands ▸ hu')
  | _ =>
    obtain ⟨x, hx⟩ := term?_of_stored ht
    obtain ⟨y, hy⟩ := term?_of_stored hu
    rw [hv.tree_of_term? hx] at same
    rw [hv.tree_of_term? hy] at eq
    cases x <;> cases same <;> cases y <;> cases eq <;> exact term?_inj hx hy

end Store

theorem Holds.term_eq {x : Tree} {ses : Session} {t u : TermId} (h : Holds (· = x) ses t)
    (h' : Holds (· = x) ses u) : t = u :=
  h.valid.eq_of_tree_eq h.stored h'.stored (h.tree.trans h'.tree.symm)

/-! ## Consistency -/

/-- No tree has two different replacements. -/
def Tree.Consistent (sites : List (Tree × Tree)) : Prop :=
  ∀ p ∈ sites, ∀ q ∈ sites, p.1 = q.1 → p.2 = q.2

theorem Tree.Consistent.cons {sites : List (Tree × Tree)} {x y : Tree} (h : Tree.Consistent sites)
    (new : ∀ q ∈ sites, q.1 ≠ x) : Tree.Consistent ((x, y) :: sites) := by
  intro q hq r hr eq
  rcases List.mem_cons.mp hq with rfl | hq <;> rcases List.mem_cons.mp hr with rfl | hr
  · rfl
  · exact absurd eq.symm (new r hr)
  · exact absurd eq (new q hq)
  · exact h q hq r hr eq

/-- A term has two different replacements among some sites. -/
structure Store.Conflict (st : Store) (sites : List (Tree × Tree)) (t u w : TermId) : Prop where
  stored : st.Stored t ∧ st.Stored u ∧ st.Stored w
  first : (st.tree t, st.tree u) ∈ sites
  second : (st.tree t, st.tree w) ∈ sites
  ne : u ≠ w

/-- What a check of sites comes to: nothing if they are consistent, or else two that are not. -/
def Session.Checks (sites : List (Tree × Tree)) : Except RewriteError Unit × Session → Prop
  | (.ok _, _) => Tree.Consistent sites
  | (.error e, ses) => ∃ t u w, e = .inconsistent t u w ∧ ses.store.Conflict sites t u w

theorem Session.Checks.congr {A B : List (Tree × Tree)} {r : Except RewriteError Unit × Session}
    (h : Session.Checks A r) (eq : ∀ p, p ∈ A ↔ p ∈ B) : Session.Checks B r := by
  obtain ⟨checked, ses⟩ := r
  cases checked with
  | ok => exact fun p hp q hq => h p ((eq p).mpr hp) q ((eq q).mpr hq)
  | error e =>
    obtain ⟨t, u, w, rfl, stored, first, second, ne⟩ := h
    exact ⟨t, u, w, rfl, stored, (eq _).mp first, (eq _).mp second, ne⟩

namespace Subst

variable {s : Subst} {ses : Session} {st : Store} {t : TermId}

/-- A term is read without new variables, as a term with its tree. -/
theorem Sound.reify_spec (hs : s.Sound st) (ht : st.Stored t) (g : st.Grows ses.store) :
    ses.Keeps (Session.reify s t ses).2 ∧
      (Session.reify s t ses).2.store.Stored (Session.reify s t ses).1 ∧
      (Session.reify s t ses).2.store.tree (Session.reify s t ses).1 = s.tree st t := by
  have reads := (hs.grows g).reify_reads (g.stored ht)
  rw [hs.tree_grows g ht] at reads
  exact ⟨Session.onStore_keeps reads.grows (s.reify_sameVars t ses.store), reads.stored, reads.tree_eq⟩

/-- Some pairs of terms, as trees. -/
abbrev pairTrees (st : Store) (pairs : List (TermId × TermId)) : List (Tree × Tree) :=
  pairs.map fun p => (st.tree p.1, st.tree p.2)

theorem mem_of_lookup {seen : List (TermId × TermId)} {u : TermId} (h : seen.lookup t = some u) :
    (t, u) ∈ seen := by
  obtain ⟨before, behind, rfl, -⟩ := List.lookup_eq_some_iff.mp h
  simp

/-- The sites are checked against each other and those looked at before. -/
theorem checkSitesFrom_spec {sites : List Site} {d : List (Tree × Tree)} {seen : List (TermId × TermId)}
    (hs : s.Sound st) (shown : List.Forall₂ (Shows st s) sites d) (g : st.Grows ses.store)
    (stored : ∀ p ∈ seen, ses.store.Stored p.1 ∧ ses.store.Stored p.2)
    (consistent : Tree.Consistent (pairTrees ses.store seen)) :
    ses.Keeps (s.checkSitesFrom seen sites ses).2 ∧
      Session.Checks (pairTrees ses.store seen ++ d) (s.checkSitesFrom seen sites ses) := by
  induction shown generalizing seen ses with
  | nil => exact ⟨.refl ses, by rwa [List.append_nil]⟩
  | @cons site p sites d shows _ ih =>
    rw [checkSitesFrom_cons]
    dsimp only
    obtain ⟨keeps₁, stored₁, tree₁⟩ := hs.reify_spec shows.stored.1 g
    obtain ⟨keeps₂, stored₂, tree₂⟩ :=
      hs.reify_spec shows.stored.2 (g.trans keeps₁.grows.store)
    generalize (Session.reify s site.matched ses).1 = t at *
    generalize (Session.reify s site.matched ses).2 = ses₁ at *
    generalize (Session.reify s site.replacement ses₁).1 = u at *
    generalize (Session.reify s site.replacement ses₁).2 = ses₂ at *
    have hv := hs.valid
    have hv₁ := (g.trans keeps₁.grows.store).valid hv
    have keeps := keeps₁.trans keeps₂
    have pair : (ses₂.store.tree t, ses₂.store.tree u) = p := by
      rw [keeps₂.grows.store.tree_eq hv₁ stored₁, tree₁, tree₂, shows.matched, shows.replacement]
    have g₂ := g.trans keeps.grows.store
    have hv₂ := g₂.valid hv
    have stored₁ := keeps₂.grows.store.stored stored₁
    have storedSeen : ∀ p ∈ seen, ses₂.store.Stored p.1 ∧ ses₂.store.Stored p.2 := fun p hp =>
      ⟨keeps.grows.store.stored (stored p hp).1, keeps.grows.store.stored (stored p hp).2⟩
    have same : pairTrees ses₂.store seen = pairTrees ses.store seen :=
      List.map_congr_left fun p hp => by
        rw [keeps.grows.store.tree_eq (g.valid hv) (stored p hp).1,
          keeps.grows.store.tree_eq (g.valid hv) (stored p hp).2]
    rw [← same] at consistent ⊢
    split
    · rename_i none
      -- The tree that was matched is none of those seen before, so that the pair may join them.
      have new : ∀ q ∈ pairTrees ses₂.store seen, q.1 ≠ ses₂.store.tree t := by
        rintro _ mem eq
        obtain ⟨q, hq, rfl⟩ := List.mem_map.mp mem
        have eq := hv₂.eq_of_tree_eq (storedSeen q hq).1 stored₁ eq
        exact (bne_iff_ne.mp (List.lookup_eq_none_iff.mp none q hq)) eq.symm
      have joined : Tree.Consistent (pairTrees ses₂.store ((t, u) :: seen)) := consistent.cons new
      obtain ⟨keeps', checks⟩ :=
        ih g₂ (List.forall_mem_cons.mpr ⟨⟨stored₁, stored₂⟩, storedSeen⟩) joined
      refine ⟨keeps.trans keeps', checks.congr fun q => ?_⟩
      rw [pairTrees, List.map_cons, pair]
      simp only [List.mem_append, List.mem_cons]
      tauto
    · rename_i first some
      have mem := mem_of_lookup some
      have before : (ses₂.store.tree t, ses₂.store.tree first) ∈ pairTrees ses₂.store seen :=
        List.mem_map_of_mem (f := fun p => (ses₂.store.tree p.1, ses₂.store.tree p.2)) mem
      split
      · rename_i eq
        obtain ⟨keeps', checks⟩ := ih g₂ storedSeen consistent
        refine ⟨keeps.trans keeps', checks.congr fun q => ?_⟩
        rw [eq, pair] at before
        simp only [List.mem_append, List.mem_cons]
        constructor
        · tauto
        · rintro (h | rfl | h)
          exacts [.inl h, .inl before, .inr h]
      · rename_i ne
        refine ⟨keeps, t, first, u, rfl, ⟨stored₁, (storedSeen _ mem).2, stored₂⟩, ?_, ?_, ne⟩
        · exact List.mem_append_left _ before
        · rw [pair]
          exact List.mem_append_right _ (.head _)

end Subst

/-! ## One answer -/

open Regraft.Tree (Effect)

/-- An answer tells the result of an effect and its sites. -/
structure Subst.Tells (output : TermId) (ses : Session) (s : Subst) (e : Effect) : Prop where
  sound : s.Sound ses.store
  stored : ses.store.Stored output
  result : s.tree ses.store output = e.result
  sites : List.Forall₂ (Subst.Shows ses.store s) s.sites e.sites

/-- What a walk yields for an effect: its result, or a report of sites that are not consistent. -/
def Session.Reports (ses : Session) (e : Effect) : Except RewriteError TermId → Prop
  | .ok t => Tree.Consistent e.sites ∧ ses.store.Stored t ∧ ses.store.tree t = e.result
  | .error r => ∃ t u w, r = .inconsistent t u w ∧ ses.store.Conflict e.sites t u w

variable {ses ses' : Session} {s : Subst} {e : Effect} {A B : Set Effect}

theorem Store.Conflict.grows {st st' : Store} {d : List (Tree × Tree)} {t u w : TermId}
    (h : st.Conflict d t u w) (hv : st.Valid) (g : st.Grows st') : st'.Conflict d t u w where
  stored := ⟨g.stored h.stored.1, g.stored h.stored.2.1, g.stored h.stored.2.2⟩
  first := by
    rw [g.tree_eq hv h.stored.1, g.tree_eq hv h.stored.2.1]
    exact h.first
  second := by
    rw [g.tree_eq hv h.stored.1, g.tree_eq hv h.stored.2.2]
    exact h.second
  ne := h.ne

theorem Session.Reports.grows {r : Except RewriteError TermId} (h : ses.Reports e r)
    (hv : ses.store.Valid) (g : ses.Grows ses') : ses'.Reports e r := by
  cases r with
  | ok t =>
    obtain ⟨consistent, stored, tree⟩ := h
    exact ⟨consistent, g.store.stored stored, (g.store.tree_eq hv stored).trans tree⟩
  | error r =>
    obtain ⟨t, u, w, rfl, conflict⟩ := h
    exact ⟨t, u, w, rfl, conflict.grows hv g.store⟩

namespace Walk

/-- What accepting an answer for an effect comes to: a new result, one seen before, or a report. -/
def Accepted (w : Walk) (e : Effect) (rest : Search) :
    Turn Walk (Except RewriteError TermId) × Session → Prop
  | (.working next, ses) => next = { w with search := rest } ∧ ∃ t ∈ w.seen, ses.Reports e (.ok t)
  | (.yielded (.ok t) next, ses) =>
    next = { w with search := rest, seen := t :: w.seen } ∧ t ∉ w.seen ∧ ses.Reports e (.ok t)
  | (.yielded (.error r) next, ses) => next = { w with search := rest } ∧ ses.Reports e (.error r)
  | (.finished, _) => False

theorem accept_spec {w : Walk} (h : s.Tells w.output ses e) (rest : Search) :
    ses.Keeps (w.accept s rest ses).2 ∧ w.Accepted e rest (w.accept s rest ses) := by
  obtain ⟨keeps, checks⟩ : ses.Keeps (s.checkSites ses).2 ∧
      Session.Checks e.sites (s.checkSites ses) :=
    Subst.checkSitesFrom_spec h.sound h.sites (.refl ses.store) nofun nofun
  rw [accept_eq]
  match hc : s.checkSites ses with
  | (.error r, ses₁) =>
    rw [hc] at keeps checks
    obtain ⟨t, u, w, rfl, conflict⟩ := checks
    exact ⟨keeps, rfl, t, u, w, rfl, conflict⟩
  | (.ok (), ses₁) =>
    rw [hc] at keeps checks
    obtain ⟨keeps', stored, tree⟩ := h.sound.reify_spec h.stored keeps.grows.store
    rw [h.result] at tree
    dsimp only
    split
    · rename_i mem
      exact ⟨keeps.trans keeps', rfl, _, by simpa using mem, checks, stored, tree⟩
    · rename_i new
      have count := Session.count_keeps Counters.countWalkResult (Session.reify s w.output ses₁).2
      exact ⟨(keeps.trans keeps').trans count, rfl, by simpa using new, checks, stored, tree⟩

/-- Accepting an answer makes no new variables, whatever it is. -/
theorem accept_sameVars (w : Walk) (s : Subst) (rest : Search) (ses : Session) :
    ses.store.SameVars (w.accept s rest ses).2.store := by
  have read : ∀ (t : TermId) (ses : Session), ses.store.SameVars (Session.reify s t ses).2.store :=
    fun t ses => s.reify_sameVars t ses.store
  have checked : ∀ (sites : List Site) (seen : List (TermId × TermId)) (ses : Session),
      ses.store.SameVars (s.checkSitesFrom seen sites ses).2.store := by
    intro sites
    induction sites with
    | nil => exact fun seen ses => .refl _
    | cons site rest ih =>
      intro seen ses
      have both := (read site.matched ses).trans (read site.replacement _)
      rw [Subst.checkSitesFrom_cons]
      dsimp only
      split
      · exact both.trans (ih _ _)
      · split
        · exact both.trans (ih _ _)
        · exact both
  have same := checked s.sites [] ses
  change ses.store.SameVars (s.checkSites ses).2.store at same
  rw [accept_eq]
  match hc : s.checkSites ses with
  | (.error r, ses₁) =>
    rw [hc] at same
    exact same
  | (.ok (), ses₁) =>
    rw [hc] at same
    dsimp only
    split
    · exact same.trans (read _ _)
    · exact same.trans (read _ _)

/-! ## From the start to the end -/

/-- Everything that a walk yields within some turns, and whether it has come to its end. -/
def run : Nat → Walk → SessionM (List (Except RewriteError TermId) × Bool)
  | 0, _ => return ([], false)
  | turns + 1, w => do
    match ← w.turn with
    | .working next => run turns next
    | .finished => return ([], true)
    | .yielded r next => do
      let (rs, done) ← run turns next
      return (r :: rs, done)

theorem run_succ (turns : Nat) (w : Walk) (ses : Session) :
    w.run (turns + 1) ses = match w.turn ses with
      | (.working next, ses') => next.run turns ses'
      | (.finished, ses') => (([], true), ses')
      | (.yielded r next, ses') =>
        ((r :: (next.run turns ses').1.1, (next.run turns ses').1.2), (next.run turns ses').2) := by
  rw [run, SessionM.bind_apply]
  generalize w.turn ses = r
  obtain ⟨next, ses'⟩ := r
  cases next <;> rfl

/-- Turns behind the end change nothing. -/
theorem run_of_finished {turns : Nat} {w : Walk} {ses : Session}
    (finished : (w.run turns ses).1.2 = true) (more : Nat) :
    w.run (turns + more) ses = w.run turns ses := by
  induction turns generalizing w ses with
  | zero => cases finished
  | succ turns ih =>
    rw [Nat.add_right_comm]
    rw [run_succ] at finished
    rw [run_succ, run_succ]
    generalize w.turn ses = r at finished ⊢
    obtain ⟨next, ses'⟩ := r
    cases next with
    | working next => exact ih finished
    | finished => rfl
    | yielded r next =>
      dsimp only
      rw [ih finished]

theorem run_one (w : Walk) (ses : Session) : (w.run 1 ses).2 = (w.turn ses).2 := by
  rw [run_succ]
  generalize w.turn ses = r
  obtain ⟨next, ses'⟩ := r
  cases next <;> rfl

/-- Whether a walk ends within some turns, and the last variable is never in use. -/
def endsRoomy : Nat → Walk → Session → Bool
  | 0, _, _ => false
  | turns + 1, w, ses => decide ses.store.Roomy && match w.turn ses with
    | (.working next, ses') => endsRoomy turns next ses'
    | (.finished, ses') => decide ses'.store.Roomy
    | (.yielded _ next, ses') => endsRoomy turns next ses'

theorem roomy_of_endsRoomy {turns : Nat} {w : Walk} {ses : Session} (h : w.endsRoomy turns ses = true)
    (n : Nat) : (w.run n ses).2.store.Roomy := by
  induction turns generalizing w ses n with
  | zero => cases h
  | succ turns ih =>
    rw [endsRoomy, Bool.and_eq_true] at h
    obtain ⟨here, next⟩ := h
    cases n with
    | zero => exact of_decide_eq_true here
    | succ n =>
      rw [run_succ]
      generalize w.turn ses = r at next ⊢
      obtain ⟨turned, ses'⟩ := r
      cases turned with
      | working => exact ih next n
      | finished => exact of_decide_eq_true next
      | yielded => exact ih next n

/-- All effects have been reported, in results that were not seen before and no two of which are the
    same, or in reports of inconsistent sites. -/
structure Reported (A : Set Effect) (seen : List TermId) (ses : Session)
    (rs : List (Except RewriteError TermId)) : Prop where
  each : ∀ r ∈ rs, ∃ e ∈ A, ses.Reports e r
  all : ∀ e ∈ A, (∃ r ∈ rs, ses.Reports e r) ∨ ∃ t ∈ seen, ses.Reports e (.ok t)
  fresh : ∀ t ∈ rs.filterMap Except.toOption, t ∉ seen
  once : (rs.filterMap Except.toOption).Nodup

namespace Reported

variable {seen : List TermId} {rs : List (Except RewriteError TermId)} {t : TermId}

/-- The effect comes to a result that was seen before. -/
theorem insert (h : Reported B seen ses rs) (mem : t ∈ seen) (reports : ses.Reports e (.ok t)) :
    Reported (insert e B) seen ses rs where
  each r hr := (h.each r hr).imp fun _ h => ⟨.inr h.1, h.2⟩
  all := Set.forall_mem_insert.mpr ⟨.inr ⟨t, mem, reports⟩, h.all⟩
  fresh := h.fresh
  once := h.once

/-- The effect comes to a new result. -/
theorem ok (h : Reported B (t :: seen) ses rs) (new : t ∉ seen) (reports : ses.Reports e (.ok t)) :
    Reported (Insert.insert e B) seen ses (.ok t :: rs) where
  each := List.forall_mem_cons.mpr
    ⟨⟨e, .inl rfl, reports⟩, fun r hr => (h.each r hr).imp fun _ h => ⟨.inr h.1, h.2⟩⟩
  all := Set.forall_mem_insert.mpr ⟨.inl ⟨_, .head _, reports⟩, fun e' he => by
    rcases h.all e' he with ⟨r, hr, told⟩ | ⟨u, hu, told⟩
    · exact .inl ⟨r, .tail _ hr, told⟩
    · rcases List.mem_cons.mp hu with rfl | hu
      · exact .inl ⟨_, .head _, told⟩
      · exact .inr ⟨u, hu, told⟩⟩
  fresh u hu := by
    rcases List.mem_cons.mp hu with rfl | hu
    · exact new
    · exact fun mem => h.fresh u hu (.tail _ mem)
  once := List.nodup_cons.mpr ⟨fun mem => h.fresh t mem (.head _), h.once⟩

/-- The effect has inconsistent sites. -/
theorem error {r : RewriteError} (h : Reported B seen ses rs) (reports : ses.Reports e (.error r)) :
    Reported (Insert.insert e B) seen ses (.error r :: rs) where
  each := List.forall_mem_cons.mpr
    ⟨⟨e, .inl rfl, reports⟩, fun r hr => (h.each r hr).imp fun _ h => ⟨.inr h.1, h.2⟩⟩
  all := Set.forall_mem_insert.mpr ⟨.inl ⟨_, .head _, reports⟩, fun e' he =>
    (h.all e' he).imp_left fun ⟨r, hr, reports⟩ => ⟨r, .tail _ hr, reports⟩⟩
  fresh := h.fresh
  once := h.once

end Reported

/-- As long as it has room, a walk comes to its end, with all effects reported. -/
def EndsReporting (A : Set Effect) (w : Walk) (ses : Session) : Prop :=
  (∀ n, (w.run n ses).2.store.Roomy) → ∃ n, ses.Grows (w.run n ses).2 ∧ (w.run n ses).1.2 = true ∧
    Reported A w.seen (w.run n ses).2 (w.run n ses).1.1

namespace EndsReporting

variable {w next : Walk}

/-- The first turn is the last one, and there are no effects. -/
theorem finished (turn : w.turn ses = (.finished, ses')) (g : ses.Grows ses') :
    w.EndsReporting ∅ ses := by
  intro _
  have run : w.run 1 ses = (([], true), ses') := by rw [run_succ, turn]
  refine ⟨1, ?_⟩
  rw [run]
  exact ⟨g, rfl, nofun, nofun, nofun, .nil⟩

/-- The first turn yields nothing. -/
theorem working (turn : w.turn ses = (.working next, ses')) (g : ses.Grows ses')
    (h : next.EndsReporting B ses')
    (more : ∀ ses₁ rs, ses'.Grows ses₁ → Reported B next.seen ses₁ rs → Reported A w.seen ses₁ rs) :
    w.EndsReporting A ses := by
  intro room
  have run : ∀ n, w.run (n + 1) ses = next.run n ses' := fun n => by rw [run_succ, turn]
  obtain ⟨n, grows, finished, reported⟩ := h fun n => run n ▸ room (n + 1)
  refine ⟨n + 1, ?_⟩
  rw [run]
  exact ⟨g.trans grows, finished, more _ _ grows reported⟩

/-- The first turn yields a result or a report. -/
theorem yielded {r : Except RewriteError TermId} (turn : w.turn ses = (.yielded r next, ses'))
    (g : ses.Grows ses') (h : next.EndsReporting B ses')
    (more : ∀ ses₁ rs, ses'.Grows ses₁ → Reported B next.seen ses₁ rs →
      Reported A w.seen ses₁ (r :: rs)) : w.EndsReporting A ses := by
  intro room
  have run : ∀ n, w.run (n + 1) ses =
      ((r :: (next.run n ses').1.1, (next.run n ses').1.2), (next.run n ses').2) := fun n => by
    rw [run_succ, turn]
  obtain ⟨n, grows, finished, reported⟩ := h fun n => by
    have := room (n + 1)
    rwa [run] at this
  refine ⟨n + 1, ?_⟩
  rw [run]
  exact ⟨g.trans grows, finished, more _ _ grows reported⟩

end EndsReporting

/-- A walk whose search answers some effects and ends comes to its end, with all effects reported. -/
theorem exists_reported {w : Walk} {search : Search}
    (h : Search.Gives False (fun ses s e => s.Tells w.output ses e) ses search A)
    (l : ses.Later ses') (tidy : ses'.store.Tidy) (hv : ses'.store.Valid) (hw : w.search = search)
    (room : ∀ n, (w.run n ses').2.store.Roomy) :
    ∃ n, ses'.Grows (w.run n ses').2 ∧ (w.run n ses').1.2 = true ∧
      Reported A w.seen (w.run n ses').2 (w.run n ses').1.1 := by
  generalize output : w.output = out at h
  induction h generalizing w ses' with
  | @intro ses search A B goes emit behind goOn done ihBehind ihGoOn =>
    have count := Session.count_keeps Counters.countStep ses'
    have l₀ := l.trans count.later
    have tidy₀ : Store.TidyUnless False _ := (count.tidy tidy).unless
    have goes := goes _ l₀ tidy₀
    have turn := turn_eq w ses'
    rw [Search.turn_eq, hw] at turn
    have room' := room 1
    rw [run_one, turn] at room'
    match hs : search.step (Session.count Counters.countStep ses').2 with
    | (.exhausted, ses₁) =>
      rw [hs] at turn goes room'
      rw [done _ ses₁ l₀ tidy₀ room'.unless hs]
      exact EndsReporting.finished turn (count.later.trans goes.later).grows room
    | (.continue rest, ses₁) =>
      rw [hs] at turn goes room'
      have step := count.later.trans goes.later
      have later : EndsReporting A { w with search := rest } ses₁ := fun room =>
        ihGoOn _ ses₁ rest l₀ tidy₀ room'.unless hs (.refl ses₁) (step.tidy tidy room')
          (step.grows.store.valid hv) rfl room output
      exact EndsReporting.working turn step.grows later (fun _ _ _ => id) room
    | (.emit s rest, ses₁) =>
      rw [hs] at turn goes room'
      dsimp only at turn room'
      have same := accept_sameVars w s rest ses₁
      have room₁ : ses₁.store.Roomy := fun known => room' ((same.knows _).mpr known)
      obtain ⟨e, eq, tells⟩ := emit _ ses₁ s rest l₀ tidy₀ room₁.unless hs
      rw [← output] at tells
      obtain ⟨keeps, accepted⟩ := accept_spec tells rest
      have step := (count.later.trans goes.later).trans keeps.later
      have hv' := step.grows.store.valid hv
      have later : ∀ next : Walk, next.search = rest → next.output = w.output →
          EndsReporting (B _) next (w.accept s rest ses₁).2 := fun next hn same room =>
        ihBehind _ ses₁ s rest l₀ tidy₀ room₁.unless hs keeps.later (step.tidy tidy room') hv' hn room
          (same.trans output)
      rw [eq]
      match hacc : w.accept s rest ses₁ with
      | (.finished, ses₂) =>
        rw [hacc] at accepted
        exact accepted.elim
      | (.working next, ses₂) =>
        rw [hacc] at turn accepted step hv' later
        obtain ⟨rfl, t, mem, reports⟩ := accepted
        exact EndsReporting.working turn step.grows (later _ rfl rfl)
          (fun _ _ g reported => reported.insert mem (reports.grows hv' g)) room
      | (.yielded (.ok t) next, ses₂) =>
        rw [hacc] at turn accepted step hv' later
        obtain ⟨rfl, new, reports⟩ := accepted
        exact EndsReporting.yielded turn step.grows (later _ rfl rfl)
          (fun _ _ g reported => reported.ok new (reports.grows hv' g)) room
      | (.yielded (.error r) next, ses₂) =>
        rw [hacc] at turn accepted step hv' later
        obtain ⟨rfl, reports⟩ := accepted
        exact EndsReporting.yielded turn step.grows (later _ rfl rfl)
          (fun _ _ g reported => reported.error (reports.grows hv' g)) room

end Walk

/-- Everything that the walk of a rule over a term yields within some turns, and whether it has come to
    its end. -/
def Rule.walk (rule : Rule) (t : TermId) (turns : Nat) :
    SessionM (List (Except RewriteError TermId) × Bool) := do
  let w ← Walk.start rule t
  w.run turns

theorem Rule.walk_eq (rule : Rule) (t : TermId) (turns : Nat) (ses : Session) :
    rule.walk t turns ses = (Walk.start rule t ses).1.run turns (Walk.start rule t ses).2 := rfl

variable {still : Prop} {rule : Rule} {R : Tree → Set Effect} {outer : UInt32 → Prop} {t : TermId}

/-- It is enough to look at the turns up to the end. -/
theorem Rule.walk_roomy {turns : Nat} (finished : (rule.walk t turns ses).1.2 = true)
    (room : ∀ n ≤ turns, (rule.walk t n ses).2.store.Roomy) (n : Nat) :
    (rule.walk t n ses).2.store.Roomy := by
  rcases Nat.le_total n turns with le | le
  · exact room n le
  · obtain ⟨more, rfl⟩ := Nat.exists_eq_add_of_le le
    rw [Rule.walk_eq] at finished ⊢
    rw [Walk.run_of_finished finished]
    exact room turns (Nat.le_refl _)

/-- The search of a walk with a rule answers all effects of the rule at all places. -/
theorem Rule.start_gives {base : Session} (h : Search.Relates still base outer Tree.var rule.relate R)
    (l : base.Later ses) (hv : ses.store.Valid) (tidy : ses.store.Tidy) (ht : ses.store.Stored t)
    (ground : (ses.store.tree t).Ground) :
    Search.Gives False (fun ses' s e => s.Tells (Walk.start rule t ses).1.output ses' e)
      (Walk.start rule t ses).2 (Walk.start rule t ses).1.search (Tree.anywhere R (ses.store.tree t)) := by
  have l₁ := Session.fresh_later ses
  have var : (Session.fresh ses).2.store.term? (Session.fresh ses).1 =
    some (.var ses.store.nextVar) := Store.term?_fresh _
  have start : Walk.start rule t ses = (⟨(Session.fresh ses).1,
    .apply (.anywhere rule.relate t (Session.fresh ses).1) .empty, []⟩, (Session.fresh ses).2) := rfl
  rw [start]
  dsimp only
  generalize (Session.fresh ses).1 = output at var ⊢
  generalize (Session.fresh ses).2 = ses₁ at l₁ var ⊢
  have hv₁ := l₁.grows.store.valid hv
  have same := l₁.grows.store.tree_eq hv ht
  have outside : ¬ outer ses.store.nextVar := fun mem =>
    tidy.not_knows_fresh (l.grows.store.knows (h.known _ mem))
  have spot : Search.Spot base.facts ses₁ .empty t output ses.store.nextVar :=
    ⟨(l.trans l₁).grows.facts, .empty hv₁, rfl, Subst.within_empty _, l₁.grows.store.stored ht,
      by rw [Subst.tree_empty hv₁, same]; exact ground, var, Subst.get?_empty _⟩
  have gives := h.anywhere_gives (l.trans l₁) spot outside fun w _ =>
    Subst.image_of_unbound (Subst.get?_empty w)
  rw [Subst.tree_empty hv₁, same] at gives
  refine gives.imp fun ses₂ s e mem solved => ?_
  have confined := Tree.confined_anywhere h.confined ground e mem
  obtain ⟨new, sites, shown⟩ := solved.sites
  refine ⟨solved.sound, solved.grows.stored (Store.stored_of_term? var), ?_, ?_⟩
  · rw [solved.tree_eq spot.sound (Store.stored_of_term? var), spot.sound.tree_var var,
      Subst.image_of_unbound spot.unbound, Tree.subst_var, confined.output_self outside]
  · rw [sites]
    exact shown

/-- A walk with a rule comes to its end, with all effects of the rule reported at all places. -/
theorem Rule.exists_reported (h : Search.Relates still ses outer Tree.var rule.relate R)
    (hv : ses.store.Valid) (tidy : ses.store.Tidy) (ht : ses.store.Stored t)
    (ground : (ses.store.tree t).Ground) (room : ∀ n, (rule.walk t n ses).2.store.Roomy) :
    ∃ n, ses.Grows (rule.walk t n ses).2 ∧ (rule.walk t n ses).1.2 = true ∧
      Walk.Reported (Tree.anywhere R (ses.store.tree t)) [] (rule.walk t n ses).2
        (rule.walk t n ses).1.1 := by
  have l := Session.fresh_later ses
  have gives := Rule.start_gives h (.refl ses) hv tidy ht ground
  obtain ⟨n, grows, finished, reported⟩ := Walk.exists_reported gives (.refl _)
    (l.tidy tidy (room 0)) (l.grows.store.valid hv) rfl room
  exact ⟨n, l.grows.trans grows, finished, reported⟩

end Regraft
