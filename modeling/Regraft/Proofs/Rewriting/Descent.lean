import Regraft.Proofs.Rewriting.Ending
import Regraft.Proofs.Rewriting.Explored

/-
  Runs that come to their end because every step makes trees lighter. The walks of a rule whose searches end
  do so too, without errors (`Rule.start_halts`). If their results are lighter than what they
  started from, then a run over fixpoints without a step limit comes to its end (`exists_finishes`): the
  term that is visited gets lighter with each step down, and at one term there are as many steps as the walk
  has results. Something is yielded, because a visit that yields nothing has a visit below it or comes
  to a term that has been visited before; the latter is no term above it, as these are heavier.
-/

namespace Regraft

variable {F : Facts} {R : Tree → Tree → Prop} {P P' : Tree → Prop} {ses ses' : Session} {s : Subst}
  {output t : TermId}

/-! ## Walks -/

/-- A walk ends without errors, with results that have a property, whatever variables are made between
    its turns. -/
inductive Walk.Halts (P : Tree → Prop) : Session → Walk → Prop
  | intro {ses : Session} {w : Walk}
      (goes : ∀ ses', ses.Later ses' → ses'.Later (w.turn ses').2)
      (working : ∀ ses' next ses'', ses.Later ses' → w.turn ses' = (.working next, ses'') →
        Halts P ses'' next)
      (holds : ∀ ses' t next ses'', ses.Later ses' → w.turn ses' = (.yielded (.ok t) next, ses'') →
        Holds P ses'' t)
      (behind : ∀ ses' t next ses'', ses.Later ses' → w.turn ses' = (.yielded (.ok t) next, ses'') →
        Halts P ses'' next)
      (noError : ∀ ses' e next ses'', ses.Later ses' →
        w.turn ses' ≠ (.yielded (.error e) next, ses'')) : Halts P ses w

namespace Walk

variable {w : Walk} {rest search : Search}

/-- What a turn comes to in a walk that ends. -/
def Halts.Turned (P : Tree → Prop) : Turn Walk (Except RewriteError TermId) × Session → Prop
  | (.working next, ses) => next.Halts P ses
  | (.yielded (.ok t) next, ses) => Holds P ses t ∧ next.Halts P ses
  | (.yielded (.error _) _, _) => False
  | (.finished, _) => True

theorem Halts.of_turn (h : ∀ ses', ses.Later ses' →
    ses'.Later (w.turn ses').2 ∧ Halts.Turned P (w.turn ses')) : w.Halts P ses := by
  have turned : ∀ ses' out, ses.Later ses' → w.turn ses' = out → Halts.Turned P out :=
    fun ses' _ l eq => eq ▸ (h ses' l).2
  exact .intro (fun ses' l => (h ses' l).1) (fun ses' _ _ l eq => turned ses' _ l eq)
    (fun ses' _ _ _ l eq => (turned ses' _ l eq).1) (fun ses' _ _ _ l eq => (turned ses' _ l eq).2)
    fun ses' _ _ _ l eq => turned ses' _ l eq

theorem Halts.turn (h : w.Halts P ses) (l : ses.Later ses') :
    ses'.Later (w.turn ses').2 ∧ Halts.Turned P (w.turn ses') := by
  obtain ⟨goes, working, holds, behind, noError⟩ := h
  refine ⟨goes ses' l, ?_⟩
  match eq : w.turn ses' with
  | (.working next, ses'') => exact working ses' next ses'' l eq
  | (.yielded (.ok t) next, ses'') => exact ⟨holds ses' t next ses'' l eq, behind ses' t next ses'' l eq⟩
  | (.yielded (.error e) next, ses'') => exact noError ses' e next ses'' l eq
  | (.finished, ses'') => trivial

theorem Halts.later (h : w.Halts P ses) (l : ses.Later ses') : w.Halts P ses' :=
  .of_turn fun _ l' => h.turn (l.trans l')

/-- What is pulled out of a walk that ends is a result with the property. -/
theorem Halts.pull {turns : Nat} {next : Walk} {r : Except RewriteError TermId} (h : w.Halts P ses)
    (pulled : Regraft.pull Walk.turn turns w ses = (.result r next, ses')) :
    next.Halts P ses' ∧ ∃ t, r = .ok t ∧ Holds P ses' t := by
  induction turns generalizing w ses with
  | zero => cases pulled
  | succ turns ih =>
    obtain ⟨-, turned⟩ := h.turn (.refl ses)
    rw [pull_succ] at pulled
    match eq : w.turn ses with
    | (.working next, ses₁) =>
      rw [eq] at pulled turned
      exact ih turned pulled
    | (.yielded (.ok t) next, ses₁) =>
      rw [eq] at pulled turned
      cases pulled
      exact ⟨turned.2, t, rfl, turned.1⟩
    | (.yielded (.error e) next, ses₁) =>
      rw [eq] at turned
      exact turned.elim
    | (.finished, ses₁) =>
      rw [eq] at pulled
      cases pulled

theorem Halts.result (h : w.Halts P ses) (result : Result ses w t ses') : Holds P ses' t := by
  induction result with
  | here pulled =>
    obtain ⟨-, t, eq, holds⟩ := h.pull pulled
    cases eq
    exact holds
  | later pulled _ ih => exact ih (h.pull pulled).1

/-- An answer with a single site is a result, or has been one before. -/
theorem accept_single (answer : Resolved P w.output ses s) (single : s.sites.length = 1)
    (behind : ∀ seen, Halts P ses { w with search := rest, seen }) :
    ses.Later (w.accept s rest ses).2 ∧ Halts.Turned P (w.accept s rest ses) := by
  have checked : ses.Grows (s.checkSites ses).2 :=
    Subst.checkSitesFrom_grows answer.sound answer.sites
  have ok : (s.checkSites ses).1 = .ok () := by
    refine Subst.checkSitesFrom_ok answer.sound answer.sites ?_ (.refl ses) nofun
    obtain ⟨site, eq⟩ := List.length_eq_one_iff.mp single
    rw [eq]
    exact List.nodup_singleton _
  have same := accept_sameVars w s rest ses
  rw [accept_eq] at same ⊢
  match eq : s.checkSites ses with
  | (.error e, ses₁) =>
    rw [eq] at ok
    cases ok
  | (.ok (), ses₁) =>
    rw [eq] at checked same
    have result := (answer.grows checked).reify
    have read := checked.trans (Session.reify_grows (t := w.output) (answer.sound.grows checked.store)
      (checked.store.stored answer.stored))
    dsimp only at same ⊢
    split
    · rename_i old
      rw [if_pos old] at same
      have l : ses.Later _ := Session.Keeps.later ⟨read, same⟩
      exact ⟨l, (behind w.seen).later l⟩
    · rename_i new
      rw [if_neg new] at same
      have count := Session.count_grows Counters.countWalkResult (Session.reify s w.output ses₁).2
      have l : ses.Later _ := Session.Keeps.later ⟨read.trans count, same⟩
      exact ⟨l, result.grows count, (behind _).later l⟩

/-- A walk ends with its search, if every answer has a single site. -/
theorem halts_of_search {must : Prop} (h : Search.Halts Session.Later
      (fun ses s => Resolved P output ses s ∧ s.sites.length = 1) must ses search)
    (here : w.search = search) (out : w.output = output) : w.Halts P ses := by
  induction h generalizing w with
  | @intro must ses search goes emit behind goOn done ihBehind ihGoOn =>
    refine .of_turn fun ses₀ l₀ => ?_
    have count := (Session.count_keeps Counters.countStep ses₀).later
    have l := l₀.trans count
    have goes := count.trans (goes _ l)
    have turn := turn_eq w ses₀
    rw [Search.turn_eq, here] at turn
    match eq : search.step (Session.count Counters.countStep ses₀).2 with
    | (.exhausted, ses₁) =>
      rw [eq] at turn goes
      rw [turn]
      exact ⟨goes, trivial⟩
    | (.continue rest, ses₁) =>
      rw [eq] at turn goes
      rw [turn]
      exact ⟨goes, ihGoOn _ ses₁ rest l eq rfl out⟩
    | (.emit s rest, ses₁) =>
      rw [eq] at turn goes
      dsimp only at turn
      rw [turn]
      obtain ⟨answer, single⟩ := emit _ ses₁ s rest l eq
      obtain ⟨l', turned⟩ := accept_single (out ▸ answer) single fun seen =>
        ihBehind _ ses₁ s rest l eq (w := { w with search := rest, seen }) rfl out
      exact ⟨goes.trans l', turned⟩

end Walk

/-- The walks of a rule that ends in ground terms end. The rule relates the term to their results at one
    position. -/
theorem Rule.start_halts {rule : Rule} (stay : ∀ t u, R t u → t.Ground → u.Ground)
    (hr : Search.EndsWith F R rule.relate) (facts : ses.facts = F)
    (here : Holds (fun u => u.Ground ∧ u.Filled) ses t)
    (step : ∀ u, u.Ground ∧ u.Filled → Tree.Rewrites R (ses.store.tree t) u → P u) :
    ses.Later (Walk.start rule t ses).2 ∧ (Walk.start rule t ses).1.Halts P (Walk.start rule t ses).2 := by
  have hv := here.valid
  have l := Session.fresh_later ses
  have var : (Session.fresh ses).2.store.term? (Session.fresh ses).1 = _ := Store.term?_fresh _
  have same := l.grows.store.tree_eq hv here.stored
  have later := here.grows l.grows
  refine ⟨l, ?_⟩
  show (⟨(Session.fresh ses).1, .apply (.anywhere rule.relate t (Session.fresh ses).1) .empty, []⟩ :
    Walk).Halts _ (Session.fresh ses).2
  generalize (Session.fresh ses).1 = output at var
  generalize (Session.fresh ses).2 = ses₁ at l var same later
  have hv₁ := later.valid
  have tree := Subst.tree_empty hv₁ t
  have outset : Search.Outset F ses₁ t output := by
    refine ⟨.of_given (l.grows.facts.trans facts) (.empty hv₁) ⟨later.stored, ?_⟩
      ⟨Store.stored_of_term? var, ?_⟩, ?_⟩
    · rw [tree]
      exact later.tree.2
    · rw [Subst.tree_empty hv₁, hv₁.tree_var var]
      exact .var _
    · rw [tree]
      exact later.tree.1
  have halts := Search.anywhere_halts stay hr outset
  refine Walk.halts_of_search (halts.imp (fun ses' s replaced => ?_) id) rfl rfl
  have adv := replaced.advance
  have related := replaced.related
  have filled := adv.labels output outset.ready.right outset.ready.overRight
  rw [tree, same] at related
  refine ⟨⟨adv.sound, adv.grows.stored outset.ready.right, replaced.sites, ?_⟩, replaced.length⟩
  exact step _ ⟨related.ground here.tree.1 stay, filled⟩ related

/-- The walks of a rule from trees with a property end, with results that have it too and are lighter. -/
def Rule.Descends (rule : Rule) (F : Facts) (P : Tree → Prop) (weight : Tree → Nat) : Prop :=
  ∀ {ses t}, ses.facts = F → Holds P ses t → ses.Later (Walk.start rule t ses).2 ∧
    (Walk.start rule t ses).1.Halts (fun u => P u ∧ weight u < weight (ses.store.tree t))
      (Walk.start rule t ses).2

/-- In some session with the facts, a walk of the rule over a term with the tree ends without a result. -/
def Rule.Rests (rule : Rule) (F : Facts) (t : Tree) : Prop :=
  ∃ ses a, ses.facts = F ∧ Holds (· = t) ses a ∧
    Process.Drains Walk.turn (Walk.start rule a ses).2 (Walk.start rule a ses).1 []

/-! ## Runs -/

namespace Fixpoint

open Process (Runs Finishes)

variable {rule : Rule} {weight : Tree → Nat} {bound n : Nat} {f f' f'' : Fixpoint} {frame : Frame}
  {above between : List Frame} {rs rs' : List Reduction} {ses₀ ses'' : Session} {w w' : Walk}
  {Q : Reduction → Tree → Prop}

/-- A walk over a term, from where on the session only grew, has had no result so far. -/
def Quiet (rule : Rule) (F : Facts) (t : TermId) (ses : Session) (w : Walk) : Prop :=
  ∃ ses₀, ses₀.facts = F ∧ ses₀.store.Valid ∧ ses₀.store.Stored t ∧ ses₀.Grows ses ∧
    Runs Walk.turn (Walk.start rule t ses₀).2 (Walk.start rule t ses₀).1 [] ses w

theorem Quiet.working (h : Quiet rule F t ses w) (turned : w.turn ses = (.working w', ses'))
    (g : ses.Grows ses') : Quiet rule F t ses' w' := by
  obtain ⟨ses₀, facts, valid, stored, g₀, run⟩ := h
  exact ⟨ses₀, facts, valid, stored, g₀.trans g, run.trans (.working turned .refl)⟩

theorem Quiet.rests (h : Quiet rule F t ses w) (turned : w.turn ses = (.finished, ses')) :
    rule.Rests F (ses.store.tree t) := by
  obtain ⟨ses₀, facts, valid, stored, g, run⟩ := h
  exact ⟨ses₀, t, facts, ⟨valid, stored, (g.store.tree_eq valid stored).symm⟩,
    run.drains (.of_finished turned)⟩

/-- What is known of a result: it was found within some steps, and leads no further. -/
structure AtRest (rule : Rule) (F : Facts) (P : Tree → Prop) (weight : Tree → Nat) (bound : Nat)
    (r : Reduction) (u : Tree) : Prop where
  holds : P u
  within : r.steps + weight u ≤ bound
  rests : rule.Rests F u

/-- A term of weight `n` is visited. As long as nothing has been yielded, nothing lighter has been
    visited, and the term has not been rewritten to another one. -/
structure Visiting (rule : Rule) (F : Facts) (P : Tree → Prop) (weight : Tree → Nat) (bound n : Nat)
    (above : List Frame) (ses : Session) (f : Fixpoint) (frame : Frame) : Prop where
  path : f.path = frame :: above
  still : frame.moved = false → Quiet rule F frame.term ses frame.successors
  rule : f.rule = rule
  unlimited : f.stepLimit = none
  facts : ses.facts = F
  here : Holds (fun u => P u ∧ weight u = n ∧ frame.depth + n ≤ bound) ses frame.term
  lightest : f.yielded = [] → ∀ t ∈ f.expanded, Holds (n ≤ weight ·) ses t
  moved : frame.moved = true → f.yielded ≠ []

/-- A run has passed the frames in front of some others, and has yielded something by now. -/
structure Passed (Q : Reduction → Tree → Prop) (above : List Frame) (ses : Session) (f : Fixpoint)
    (rs : List Reduction) (ses' : Session) (f' : Fixpoint) : Prop where
  later : ses.Later ses'
  run : Runs turn ses f (rs.map .ok) ses' f'
  path : f'.path = above
  rule : f'.rule = f.rule
  limit : f'.stepLimit = f.stepLimit
  yielded : f'.yielded = (rs.map Reduction.term).reverse ++ f.yielded
  some : f'.yielded ≠ []
  found : ∀ r ∈ rs, Holds (Q r) ses' r.term

/-- First the frames in front of some others are passed, and then some of these. -/
theorem Passed.trans (h : Passed Q between ses f rs ses' f')
    (h' : Passed Q above ses' f' rs' ses'' f'') :
    Passed Q above ses f (rs ++ rs') ses'' f'' where
  later := h.later.trans h'.later
  run := by
    rw [List.map_append]
    exact h.run.trans h'.run
  path := h'.path
  rule := h'.rule.trans h.rule
  limit := h'.limit.trans h.limit
  yielded := by
    rw [h'.yielded, h.yielded, List.map_append, List.reverse_append, List.append_assoc]
  some := h'.some
  found r mem := by
    rcases List.mem_append.mp mem with mem | mem
    · exact (h.found r mem).grows h'.later.grows
    · exact h'.found r mem

/-- A turn without a result comes before. -/
theorem Passed.working (h : Passed Q above ses' f' rs ses'' f'') (l : ses.Later ses')
    (turned : f.turn ses = (.working f', ses')) (rule : f'.rule = f.rule)
    (limit : f'.stepLimit = f.stepLimit) (yielded : f'.yielded = f.yielded) :
    Passed Q above ses f rs ses'' f'' where
  later := l.trans h.later
  run := .working turned h.run
  path := h.path
  rule := h.rule.trans rule
  limit := h.limit.trans limit
  yielded := yielded ▸ h.yielded
  some := h.some
  found := h.found

namespace Visiting

theorem tooDeep (h : Visiting rule F P weight bound n above ses f frame) (depth : Nat) :
    f.tooDeep depth = false := by
  rw [Fixpoint.tooDeep, h.unlimited]

/-- The visit goes on with the rest of its walk. -/
theorem goesOn (h : Visiting rule F P weight bound n above ses f frame) (l : ses.Later ses') (w : Walk)
    (moved : Bool) (hm : moved = true → f.yielded ≠ [])
    (hs : moved = false → Quiet rule F frame.term ses' w) :
    Visiting rule F P weight bound n above ses'
      { f with path := { frame with successors := w, moved } :: above }
      { frame with successors := w, moved } where
  path := rfl
  rule := h.rule
  unlimited := h.unlimited
  facts := l.grows.facts.trans h.facts
  here := h.here.grows l.grows
  lightest none t mem := (h.lightest none t mem).grows l.grows
  moved := hm
  still := hs

/-- A visit that has been interrupted by another one goes on. -/
theorem resumes (h : Visiting rule F P weight bound n above ses f frame) (w : Walk)
    (passed : Passed Q ({ frame with successors := w, moved := true } :: above) ses' f' rs
      ses'' f'') (l : ses.Later ses') (same : f'.rule = f.rule) (limit : f'.stepLimit = f.stepLimit) :
    Visiting rule F P weight bound n above ses'' f'' { frame with successors := w, moved := true } where
  path := passed.path
  rule := passed.rule.trans (same.trans h.rule)
  unlimited := passed.limit.trans (limit.trans h.unlimited)
  facts := (l.trans passed.later).grows.facts.trans h.facts
  here := h.here.grows (l.trans passed.later).grows
  lightest none := absurd none passed.some
  moved _ := passed.some
  still := nofun

/-- The visit ends with its walk. -/
theorem exists_passed_of_finished (h : Visiting rule F P weight bound n above ses f frame)
    (turned : frame.successors.turn ses = (.finished, ses')) (l : ses.Later ses') :
    ∃ rs ses'' f', Passed (AtRest rule F P weight bound) above ses f rs ses'' f' := by
  have turn : f.turn ses = f.leave frame above ses' := by rw [turn_cons h.path, turned]
  rw [leave_eq] at turn
  by_cases done : (frame.moved || f.yielded.contains frame.term) = true
  · rw [if_pos done] at turn
    have some : f.yielded ≠ [] := by
      rcases Bool.or_eq_true_iff.mp done with moved | before
      · exact h.moved moved
      · exact List.ne_nil_of_mem (List.contains_iff_mem.mp before)
    exact ⟨[], _, _, l, .working turn .refl, rfl, rfl, rfl, rfl, some, nofun⟩
  · rw [if_neg done] at turn
    rw [Bool.or_eq_true_iff, not_or] at done
    have count := Session.count_keeps Counters.countFixpoint ses'
    have l := l.trans count.later
    refine ⟨[⟨frame.term, frame.depth⟩], _, _, l, .yielded turn .refl, rfl, rfl, rfl, rfl,
      List.cons_ne_nil _ _, List.forall_mem_singleton.mpr ?_⟩
    have here := h.here.grows l.grows
    obtain ⟨holds, eq, le⟩ := here.tree
    have rests := (h.still (eq_false_of_ne_true done.1)).rests turned
    rw [← l.grows.store.tree_eq h.here.valid h.here.stored] at rests
    exact ⟨here.valid, here.stored, holds, eq.symm ▸ le, rests⟩

/-- The walk of a visit has come to a lighter term, which is visited now unless it has been before. -/
theorem enter (h : Visiting rule F P weight bound n above ses f frame)
    (descends : rule.Descends F P weight) (l : ses.Later ses') (w : Walk)
    (next : Holds (fun u => P u ∧ weight u < n) ses' t) :
    f.yielded ≠ [] ∧ f.enter { frame with successors := w } above t ses' =
        (.working { f with path := { frame with successors := w, moved := true } :: above }, ses') ∨
      ∃ m < n, ∃ child ses'', ses'.Later ses'' ∧ f.enter { frame with successors := w } above t ses' =
          (.working { f with
            path := child :: { frame with successors := w, moved := true } :: above
            expanded := t :: f.expanded }, ses'') ∧
        Visiting rule F P weight bound m ({ frame with successors := w, moved := true } :: above) ses''
          { f with
            path := child :: { frame with successors := w, moved := true } :: above
            expanded := t :: f.expanded } child ∧
        child.successors.Halts (fun u => P u ∧ weight u < m) ses'' := by
  obtain rfl := h.rule
  obtain ⟨holds, lt⟩ := next.tree
  have ne : t ≠ frame.term := by
    rintro rfl
    exact absurd (h.here.grows l.grows).tree.2.1 (Nat.ne_of_lt lt)
  by_cases again : f.expanded.contains t = true
  · refine .inl ⟨fun none => ?_,
      enter_again { frame with successors := w } above ne (h.tooDeep _) again ses'⟩
    have visited := (h.lightest none t (List.contains_iff_mem.mp again)).grows l.grows
    exact absurd visited.tree (Nat.not_le.mpr lt)
  · refine .inr ⟨weight (ses'.store.tree t), lt, ?_⟩
    have entered := enter_new { frame with successors := w } above ne (h.tooDeep _)
      (eq_false_of_ne_true again) ses'
    have count := (Session.count_keeps Counters.countFixpointStep ses').later
    dsimp only at entered
    generalize (Session.count Counters.countFixpointStep ses').2 = ses₁ at entered count
    have same := count.grows.store.tree_eq next.valid next.stored
    have l₁ := l.trans count
    have here : Holds P ses₁ t := Holds.grows ⟨next.valid, next.stored, holds⟩ count.grows
    obtain ⟨l₂, halts⟩ := descends (l₁.grows.facts.trans h.facts) here
    rw [same] at halts
    have g := (count.trans l₂).grows
    refine ⟨_, _, count.trans l₂, entered, ⟨rfl, fun _ => ?_, rfl, h.unlimited,
      (l₁.trans l₂).grows.facts.trans h.facts, ?_, fun none => ?_, nofun⟩, halts⟩
    · exact ⟨ses₁, l₁.grows.facts.trans h.facts, here.valid, here.stored, l₂.grows, .refl⟩
    · have le := h.here.tree.2.2
      have visited : Holds (fun u => P u ∧ weight u = weight (ses'.store.tree t) ∧
          frame.depth + 1 + weight (ses'.store.tree t) ≤ bound) ses' t :=
        ⟨next.valid, next.stored, holds, rfl, by omega⟩
      exact visited.grows g
    · refine List.forall_mem_cons.mpr
        ⟨Holds.grows ⟨next.valid, next.stored, Nat.le_refl _⟩ g, fun u mem => ?_⟩
      have visited := (h.lightest none u mem).grows (l.grows.trans g)
      exact ⟨visited.valid, visited.stored, Nat.le_trans (Nat.le_of_lt lt) visited.tree⟩

/-- The run passes a visit, if it passes those of lighter terms. -/
theorem exists_passed_of_halts (descends : rule.Descends F P weight)
    (lighter : ∀ m < n, ∀ {above ses f frame}, Visiting rule F P weight bound m above ses f frame →
      frame.successors.Halts (fun u => P u ∧ weight u < m) ses →
        ∃ rs ses' f', Passed (AtRest rule F P weight bound) above ses f rs ses' f')
    (halts : w.Halts (fun u => P u ∧ weight u < n) ses₀) (l : ses₀.Later ses)
    (same : frame.successors = w) (h : Visiting rule F P weight bound n above ses f frame) :
    ∃ rs ses' f', Passed (AtRest rule F P weight bound) above ses f rs ses' f' := by
  induction halts generalizing frame ses f with
  | @intro ses₀ w goes working holds behind noError ihWorking ihBehind =>
    have turn := turn_cons h.path ses
    have goes := goes ses l
    rw [← same] at goes
    match turned : frame.successors.turn ses with
    | (.working w', ses') =>
      rw [turned] at turn goes
      obtain ⟨rs, ses'', f', passed⟩ :=
        ihWorking ses w' ses' l (same ▸ turned) (.refl ses') rfl (h.goesOn goes w' frame.moved h.moved
          fun quiet => (h.still quiet).working turned goes.grows)
      exact ⟨rs, ses'', f', passed.working goes turn rfl rfl rfl⟩
    | (.yielded (.error e) w', ses') => exact absurd (same ▸ turned) (noError ses e w' ses' l)
    | (.finished, ses') =>
      rw [turned] at goes
      exact h.exists_passed_of_finished turned goes
    | (.yielded (.ok t) w', ses') =>
      rw [turned] at turn goes
      dsimp only at turn
      have next := holds ses t w' ses' l (same ▸ turned)
      have behind := @ihBehind ses t w' ses' l (same ▸ turned)
      rcases h.enter descends goes w' next with ⟨some, entered⟩ |
        ⟨m, lt, child, ses₁, l₁, entered, visiting, halts⟩
      · obtain ⟨rs, ses'', f', passed⟩ := behind (.refl ses') rfl (h.goesOn goes w' true (fun _ => some) nofun)
        exact ⟨rs, ses'', f', passed.working goes (turn.trans entered) rfl rfl rfl⟩
      · -- The run passes the new visit first.
        obtain ⟨rs, ses₂, f₂, passed⟩ := lighter m lt visiting halts
        obtain ⟨rs', ses₃, f₃, passed'⟩ :=
          behind (l₁.trans passed.later) rfl (h.resumes w' passed (goes.trans l₁) rfl rfl)
        have entered := turn.trans entered
        exact ⟨rs ++ rs', ses₃, f₃, (passed.trans passed').working (goes.trans l₁) entered rfl rfl rfl⟩

/-- The run passes every visit. -/
theorem exists_passed (descends : rule.Descends F P weight)
    (h : Visiting rule F P weight bound n above ses f frame)
    (halts : frame.successors.Halts (fun u => P u ∧ weight u < n) ses) :
    ∃ rs ses' f', Passed (AtRest rule F P weight bound) above ses f rs ses' f' := by
  induction n using Nat.strong_induction_on generalizing above ses f frame with
  | _ n ih =>
    exact h.exists_passed_of_halts descends (fun m lt _ _ _ _ visiting halts => ih m lt visiting halts)
      halts (.refl ses) rfl

end Visiting

/-- Without a step limit a run comes to its end if every step leads to something lighter. It yields
    something and no error, all of it terms whose walks have no results, after no more steps than the
    weight of what it started from. -/
theorem exists_finishes (descends : rule.Descends F P weight) (facts : ses.facts = F)
    (here : Holds P ses t) : ∃ rs ses', Finishes turn (start rule none t ses).2
      (start rule none t ses).1 (rs.map .ok) ses' ∧ rs ≠ [] ∧
      ∀ r ∈ rs, Holds (AtRest rule F P weight (weight (ses.store.tree t)) r) ses' r.term := by
  obtain ⟨l, halts⟩ := descends facts here
  have tree := l.grows.store.tree_eq here.valid here.stored
  have later := here.grows l.grows
  have visiting : Visiting rule F P weight (weight (ses.store.tree t)) (weight (ses.store.tree t)) []
      (start rule none t ses).2 (start rule none t ses).1 ⟨t, 0, (Walk.start rule t ses).1, false⟩ := by
    refine ⟨rfl, fun _ => ⟨ses, facts, here.valid, here.stored, l.grows, .refl⟩, rfl, rfl,
      l.grows.facts.trans facts, ⟨later.valid, later.stored, later.tree, ?_, ?_⟩,
      fun _ => List.forall_mem_singleton.mpr ⟨later.valid, later.stored, ?_⟩, nofun⟩
    · exact congrArg weight tree
    · exact Nat.le_of_eq (Nat.zero_add _)
    · exact Nat.le_of_eq (congrArg weight tree.symm)
  obtain ⟨rs, ses', f', passed⟩ := visiting.exists_passed descends halts
  refine ⟨rs, ses', ⟨f', passed.run, ?_⟩, ?_, passed.found⟩
  · rw [turn_eq, passed.path]
  · rintro rfl
    exact passed.some passed.yielded

end Fixpoint

end Regraft
