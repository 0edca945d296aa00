import Regraft.Proofs.Rewriting.Built
import Regraft.Proofs.Rewriting.Fixpoint

/-
  Runs by rules that are built of elementary goals let the session grow, turn by turn and up to their end
  (`Walk.firstChange_grows`, `Fixpoint.once_grows`, `Fixpoint.collect_grows`), whatever they find. Nothing
  has to be known of the sites for that, since reading a term that is not stored does nothing.
-/

namespace Regraft

variable {ses ses' : Session} {s : Subst} {rule : Rule} {t : TermId}

/-! ## Reading -/

theorem Subst.reify_of_not_stored {st : Store} (h : ¬ st.Stored t) : (s.reify t st).2 = st := by
  have none : st.term? t = none := by
    cases found : st.term? t with
    | none => rfl
    | some x => exact absurd (Store.stored_of_term? found) h
  have same : s.deref st t = t := by
    rw [Subst.deref, Subst.derefWithin, Store.var?, none]
  have app : st.app? t = Option.none := by rw [Store.app?, none]
  rw [Subst.reify, Subst.depthBound, Subst.reifyWithin, same]
  dsimp only
  rw [app]

/-- Reading any term lets the session grow. -/
theorem Subst.Sound.read_grows (hs : s.Sound ses.store) (t : TermId) :
    ses.Grows (Session.reify s t ses).2 := by
  by_cases stored : ses.store.Stored t
  · exact Session.reify_grows hs stored
  · refine ⟨rfl, ?_⟩
    show ses.store.Grows (s.reify t ses.store).2
    rw [Subst.reify_of_not_stored stored]
    exact .refl _

theorem Subst.Sound.checkSitesFrom_grows (hs : s.Sound ses.store) (seen : List (TermId × TermId))
    (sites : List Site) : ses.Grows (s.checkSitesFrom seen sites ses).2 := by
  induction sites generalizing seen ses with
  | nil => exact .refl ses
  | cons site rest ih =>
    have g₁ := hs.read_grows site.matched
    have g₂ := (hs.grows g₁.store).read_grows site.replacement
    have g := g₁.trans g₂
    have later := fun seen => g.trans (ih (hs.grows g.store) seen)
    rw [Subst.checkSitesFrom_cons]
    dsimp only
    split
    · exact later _
    · split
      · exact later _
      · exact g

/-! ## Walks -/

namespace Walk

/-- A walk all of whose turns let the session grow: the answers of its search are sound. -/
structure Growing (ses : Session) (w : Walk) : Prop where
  valid : ses.store.Valid
  output : ses.store.Stored w.output
  answers : ∀ n, Search.MeetsFor (fun ses s => s.Sound ses.store) n ses w.search

/-- What such a walk leaves when it goes on. -/
def Left (ses : Session) : Turn Walk (Except RewriteError TermId) → Prop
  | .working w | .yielded (.error _) w => w.Growing ses
  | .yielded (.ok t) w => ses.store.Stored t ∧ w.Growing ses
  | .finished => True

theorem Growing.grows {w : Walk} (h : w.Growing ses) (g : ses.Grows ses') : w.Growing ses' :=
  ⟨g.store.valid h.valid, g.store.stored h.output, fun n => (h.answers n).grows g⟩

theorem start_growing (builds : rule.Builds Tree.anyLabel ses) (hv : ses.store.Valid)
    (ht : ses.store.Stored t) : (start rule t ses).1.Growing (start rule t ses).2 := by
  have g := Session.fresh_grows ses
  have valid := g.store.valid hv
  have output : (Session.fresh ses).2.store.Holds Tree.anyLabel (Session.fresh ses).1 :=
    Rule.fresh_holds hv
  have built := Goal.rewriteAnywhere_built (builds.grows g) (.of_stored valid (g.store.stored ht)) output
  have scene : Search.Scene _ Tree.anyLabel (Session.fresh ses).2 .empty :=
    ⟨rfl, .empty valid, fun _ => Tree.over_any _⟩
  refine ⟨valid, output.stored, fun n => ?_⟩
  exact (built.evolves (fun _ _ _ _ _ => trivial) n (.refl _) scene).imp fun ses' s evolved =>
    (evolved.advance scene.sound).sound

theorem accept_left {w : Walk} {rest : Search} (h : w.Growing ses) (hs : s.Sound ses.store)
    (more : ∀ n, Search.MeetsFor (fun ses s => s.Sound ses.store) n ses rest) :
    ses.Grows (w.accept s rest ses).2 ∧ Left (w.accept s rest ses).2 (w.accept s rest ses).1 := by
  have checked : ses.Grows (s.checkSites ses).2 := hs.checkSitesFrom_grows [] s.sites
  have next : ∀ {ses' seen}, ses.Grows ses' → Walk.Growing ses' ⟨w.output, rest, seen⟩ := fun g =>
    ⟨g.store.valid h.valid, g.store.stored h.output, fun n => (more n).grows g⟩
  rw [accept_eq]
  match s.checkSites ses, checked with
  | (.error e, ses'), checked => exact ⟨checked, next checked⟩
  | (.ok (), ses'), checked =>
    have reads := (hs.grows checked.store).reify_reads (checked.store.stored h.output)
    have g : ses.Grows (Session.reify s w.output ses').2 :=
      checked.trans (Session.onStore_grows reads.grows)
    dsimp only
    split
    · exact ⟨g, next g⟩
    · have g' := g.trans (Session.count_grows Counters.countWalkResult _)
      exact ⟨g', reads.stored, next g'⟩

theorem Growing.turn {w : Walk} (h : w.Growing ses) :
    ses.Grows (w.turn ses).2 ∧ Left (w.turn ses).2 (w.turn ses).1 := by
  have count := Session.count_grows Counters.countStep ses
  have step := fun n => h.answers (n + 1) _ count
  rw [turn_eq, Search.turn_eq]
  match hstep : w.search.step (Session.count Counters.countStep ses).2 with
  | (.emit s rest, ses') =>
    rw [hstep] at step
    have g := count.trans (step 0).1
    obtain ⟨g', left⟩ := accept_left (h.grows g) (step 0).2.1 fun n => (step n).2.2
    exact ⟨g.trans g', left⟩
  | (.continue rest, ses') =>
    rw [hstep] at step
    have g := count.trans (step 0).1
    exact ⟨g, g.store.valid h.valid, g.store.stored h.output, fun n => (step n).2⟩
  | (.exhausted, ses') =>
    rw [hstep] at step
    exact ⟨count.trans (step 0).1, trivial⟩

theorem firstChange_grows {input : TermId} {turns : Nat} {w : Walk} (h : w.Growing ses) :
    ses.Grows (firstChange input turns w ses).2 ∧ ∀ t,
      (firstChange input turns w ses).1 = some (.ok t) →
        (firstChange input turns w ses).2.store.Stored t := by
  induction turns generalizing ses w with
  | zero => exact ⟨.refl ses, nofun⟩
  | succ turns ih =>
    obtain ⟨g, left⟩ := h.turn
    rw [firstChange_succ]
    match hturn : w.turn ses with
    | (.working next, ses') =>
      rw [hturn] at g left
      obtain ⟨g', stored⟩ := ih left
      exact ⟨g.trans g', stored⟩
    | (.finished, ses') | (.yielded (.error e) _, ses') =>
      rw [hturn] at g
      exact ⟨g, nofun⟩
    | (.yielded (.ok t) next, ses') =>
      rw [hturn] at g left
      dsimp only
      split
      · obtain ⟨g', stored⟩ := ih left.2
        exact ⟨g.trans g', stored⟩
      · refine ⟨g, fun u hu => ?_⟩
        cases hu
        exact left.1

end Walk

theorem Rule.applyOnce_grows (builds : rule.Builds Tree.anyLabel ses) (hv : ses.store.Valid)
    (ht : ses.store.Stored t) (turns : Nat) : ses.Grows (rule.applyOnce t turns ses).2 ∧ ∀ u,
      (rule.applyOnce t turns ses).1 = some (.ok u) →
        (rule.applyOnce t turns ses).2.store.Stored u := by
  have start : ses.Grows (Walk.start rule t ses).2 := Session.fresh_grows ses
  obtain ⟨g, stored⟩ := Walk.firstChange_grows (Walk.start_growing builds hv ht)
  exact ⟨start.trans g, stored⟩

/-! ## Fixpoints -/

namespace Fixpoint

/-- The same for a run, with the walks on its path and those to come. -/
structure Growing (ses : Session) (f : Fixpoint) : Prop where
  valid : ses.store.Valid
  builds : f.rule.Builds Tree.anyLabel ses
  path : ∀ frame ∈ f.path, ses.store.Stored frame.term ∧ frame.successors.Growing ses

/-- What such a run leaves when it goes on. -/
def Left (ses : Session) : FixpointTurn → Prop
  | .working f | .yielded (.error _) f => f.Growing ses
  | .yielded (.ok r) f => ses.store.Stored r.term ∧ f.Growing ses
  | .finished => True

variable {f : Fixpoint} {frame : Frame} {above : List Frame}

theorem start_growing (builds : rule.Builds Tree.anyLabel ses) (hv : ses.store.Valid)
    (ht : ses.store.Stored t) (stepLimit : Option Nat) :
    (start rule stepLimit t ses).1.Growing (start rule stepLimit t ses).2 := by
  have g := Session.fresh_grows ses
  refine ⟨g.store.valid hv, builds.grows g, List.forall_mem_singleton.mpr ?_⟩
  exact ⟨g.store.stored ht, Walk.start_growing builds hv ht⟩

theorem enter_left (h : f.Growing ses) (ht : ses.store.Stored t)
    (path : ∀ fr ∈ frame :: above, ses.store.Stored fr.term ∧ fr.successors.Growing ses) :
    ses.Grows (f.enter frame above t ses).2 ∧
      Left (f.enter frame above t ses).2 (f.enter frame above t ses).1 := by
  have moved : ∀ fr ∈ { frame with moved := true } :: above,
      ses.store.Stored fr.term ∧ fr.successors.Growing ses := by
    rw [List.forall_mem_cons] at path ⊢
    exact ⟨path.1, path.2⟩
  unfold enter
  split
  · exact ⟨.refl ses, h.valid, h.builds, path⟩
  · dsimp only
    split
    · exact ⟨.refl ses, h.valid, h.builds, moved⟩
    · split
      · exact ⟨.refl ses, h.valid, h.builds, moved⟩
      · have count := Session.count_grows Counters.countFixpointStep ses
        have g := count.trans (Session.fresh_grows _)
        refine ⟨g, g.store.valid h.valid, h.builds.grows g, List.forall_mem_cons.mpr ⟨?_, fun fr mem => ?_⟩⟩
        · exact ⟨g.store.stored ht, Walk.start_growing (h.builds.grows count)
            (count.store.valid h.valid) (count.store.stored ht)⟩
        · exact ⟨g.store.stored (moved fr mem).1, (moved fr mem).2.grows g⟩

theorem leave_grows (f : Fixpoint) (frame : Frame) (above : List Frame) (ses : Session) :
    ses.Grows (f.leave frame above ses).2 := by
  unfold leave
  dsimp only
  split
  · exact .refl ses
  · exact Session.count_grows Counters.countFixpoint ses

theorem leave_left (h : f.Growing ses)
    (path : ∀ fr ∈ frame :: above, ses.store.Stored fr.term ∧ fr.successors.Growing ses) :
    Left (f.leave frame above ses).2 (f.leave frame above ses).1 := by
  rw [List.forall_mem_cons] at path
  unfold leave
  dsimp only
  split
  · exact ⟨h.valid, h.builds, path.2⟩
  · have count := Session.count_grows Counters.countFixpoint ses
    exact ⟨count.store.stored path.1.1, count.store.valid h.valid, h.builds.grows count,
      fun fr mem => ⟨count.store.stored (path.2 fr mem).1, (path.2 fr mem).2.grows count⟩⟩

theorem Growing.turn (h : f.Growing ses) :
    ses.Grows (f.turn ses).2 ∧ Left (f.turn ses).2 (f.turn ses).1 := by
  rw [turn_eq]
  match hpath : f.path with
  | [] => exact ⟨.refl ses, trivial⟩
  | frame :: above =>
    have path := h.path
    rw [hpath, List.forall_mem_cons] at path
    obtain ⟨g, left⟩ := path.1.2.turn
    have same : ∀ {ses'}, ses.Grows ses' → f.Growing ses' := fun g =>
      ⟨g.store.valid h.valid, h.builds.grows g,
        fun fr mem => ⟨g.store.stored (h.path fr mem).1, (h.path fr mem).2.grows g⟩⟩
    have later : ∀ {w ses'}, ses.Grows ses' → w.Growing ses' →
        ∀ fr ∈ { frame with successors := w } :: above,
          ses'.store.Stored fr.term ∧ fr.successors.Growing ses' := by
      intro w ses' g sound
      rw [List.forall_mem_cons]
      exact ⟨⟨g.store.stored path.1.1, sound⟩,
        fun fr mem => ⟨g.store.stored (path.2 fr mem).1, (path.2 fr mem).2.grows g⟩⟩
    dsimp only
    match hturn : frame.successors.turn ses with
    | (.working w, ses') | (.yielded (.error e) w, ses') =>
      rw [hturn] at g left
      exact ⟨g, g.store.valid h.valid, h.builds.grows g, later g left⟩
    | (.yielded (.ok next) w, ses') =>
      rw [hturn] at g left
      obtain ⟨g', entered⟩ := enter_left (same g) left.1 (later g left.2)
      exact ⟨g.trans g', entered⟩
    | (.finished, ses') =>
      rw [hturn] at g
      exact ⟨g.trans (leave_grows ..), leave_left (same g) (later g (path.1.2.grows g))⟩

theorem once_grows (turns : Nat) (h : f.Growing ses) : ses.Grows (once turns f ses).2 ∧ ∀ r,
    (once turns f ses).1 = some (.ok r) → (once turns f ses).2.store.Stored r.term := by
  induction turns generalizing ses f with
  | zero => exact ⟨.refl ses, nofun⟩
  | succ turns ih =>
    obtain ⟨g, left⟩ := h.turn
    rw [once_succ]
    match hturn : f.turn ses with
    | (.working next, ses') =>
      rw [hturn] at g left
      obtain ⟨g', stored⟩ := ih left
      exact ⟨g.trans g', stored⟩
    | (.yielded (.error e) _, ses') | (.finished, ses') =>
      rw [hturn] at g
      exact ⟨g, nofun⟩
    | (.yielded (.ok r) _, ses') =>
      rw [hturn] at g left
      refine ⟨g, fun r' hr => ?_⟩
      cases hr
      exact left.1

theorem collect_grows {max : Option Nat} {turns : Nat} {found : List Reduction} (h : f.Growing ses)
    (before : ∀ r ∈ found, ses.store.Stored r.term) :
    ses.Grows (collect max turns f found ses).2 ∧ ∀ rs,
      (collect max turns f found ses).1 = some (.ok rs) →
        ∀ r ∈ rs, (collect max turns f found ses).2.store.Stored r.term := by
  induction turns generalizing ses f found with
  | zero => exact ⟨.refl ses, nofun⟩
  | succ turns ih =>
    obtain ⟨g, left⟩ := h.turn
    rw [collect_succ]
    split
    · refine ⟨.refl ses, fun rs hrs => ?_⟩
      cases hrs
      exact before
    · match hturn : f.turn ses with
      | (.working next, ses') =>
        rw [hturn] at g left
        obtain ⟨g', stored⟩ := ih left fun r mem => g.store.stored (before r mem)
        exact ⟨g.trans g', stored⟩
      | (.yielded (.error e) _, ses') =>
        rw [hturn] at g
        exact ⟨g, nofun⟩
      | (.yielded (.ok r) next, ses') =>
        rw [hturn] at g left
        have found' : ∀ r' ∈ found ++ [r], ses'.store.Stored r'.term := List.forall_mem_append.mpr
          ⟨fun r mem => g.store.stored (before r mem), List.forall_mem_singleton.mpr left.1⟩
        obtain ⟨g', stored⟩ := ih left.2 found'
        exact ⟨g.trans g', stored⟩
      | (.finished, ses') =>
        rw [hturn] at g
        refine ⟨g, fun rs hrs => ?_⟩
        have concluded : f.conclude found = .ok rs := Option.some.inj hrs
        unfold conclude at concluded
        split at concluded
        · cases concluded
        · cases concluded
          exact fun r mem => g.store.stored (before r mem)

end Fixpoint

end Regraft
