import Regraft.Proofs.Rewriting.Normal

/-
  Terms that a rule leaves as they are. A rule is idle at a term when its walk from there comes to its end
  with nothing but the term itself. Just then there is no single step from the term
  (`Rule.Idles.applyOnce`, `Rule.idles_of_applyOnce`), and just then a run over fixpoints that starts
  there finds the term without a step (`Fixpoint.once_of_idles`, `Fixpoint.collect_of_idles`). A term that
  such a run finds at all is one where the rule was idle when the run came there
  (`Fixpoint.Unbroken.once`).
-/

namespace Regraft

open Process (Runs Finishes)

/-- A walk comes to its end in another session, with nothing but some term on the way. -/
inductive Walk.Idles (t : TermId) : Session → Walk → Session → Prop
  | finished {ses ses' : Session} {w : Walk} (here : w.turn ses = (.finished, ses')) :
      Idles t ses w ses'
  | working {ses ses' ses'' : Session} {w next : Walk} (here : w.turn ses = (.working next, ses'))
      (later : Idles t ses' next ses'') : Idles t ses w ses''
  | yielded {ses ses' ses'' : Session} {w next : Walk}
      (here : w.turn ses = (.yielded (.ok t) next, ses')) (later : Idles t ses' next ses'') :
      Idles t ses w ses''

/-- The walk of a rule from a term has nothing but the term itself, and takes one session to
    another. -/
def Rule.Idles (rule : Rule) (t : TermId) (ses ses' : Session) : Prop :=
  (Walk.start rule t ses).1.Idles t (Walk.start rule t ses).2 ses'

variable {rule : Rule} {t : TermId} {ses ses' ses'' : Session} {w next : Walk} {e : RewriteError}
  {turns : Nat}

/-! ## Single steps -/

/-- What is wrong with sites is that they disagree. -/
theorem Subst.checkSitesFrom_error {s : Subst} {seen : List (TermId × TermId)} {sites : List Site}
    (h : (s.checkSitesFrom seen sites ses).1 = .error e) : e ≠ .patternNotFound := by
  induction sites generalizing seen ses with
  | nil => cases h
  | cons site rest ih =>
    rw [checkSitesFrom_cons] at h
    dsimp only at h
    split at h
    · exact ih h
    · split at h
      · exact ih h
      · cases h
        exact nofun

theorem Walk.turn_error (h : w.turn ses = (.yielded (.error e) next, ses')) :
    e ≠ .patternNotFound := by
  rw [turn_eq] at h
  match hturn : w.search.turn ses with
  | (.working rest, ses₁) =>
    rw [hturn] at h
    cases h
  | (.finished, ses₁) =>
    rw [hturn] at h
    cases h
  | (.yielded s rest, ses₁) =>
    rw [hturn] at h
    dsimp only at h
    rw [accept_eq] at h
    match checked : s.checkSites ses₁ with
    | (.error e', ses₂) =>
      rw [checked] at h
      cases h
      exact Subst.checkSitesFrom_error (congrArg Prod.fst checked)
    | (.ok (), ses₂) =>
      rw [checked] at h
      dsimp only at h
      split at h
      · cases h
      · cases h

theorem Walk.Idles.firstChange (h : w.Idles t ses ses') : ∃ turns, ∀ more,
    w.firstChange t (turns + more) ses = (some (.error .patternNotFound), ses') := by
  induction h with
  | finished here =>
    refine ⟨1, fun more => ?_⟩
    rw [Nat.add_comm, firstChange_succ, here]
  | working here _ ih =>
    obtain ⟨turns, eq⟩ := ih
    refine ⟨turns + 1, fun more => ?_⟩
    rw [Nat.add_right_comm, firstChange_succ, here]
    exact eq more
  | yielded here _ ih =>
    obtain ⟨turns, eq⟩ := ih
    refine ⟨turns + 1, fun more => ?_⟩
    rw [Nat.add_right_comm, firstChange_succ, here]
    dsimp only
    rw [if_pos rfl]
    exact eq more

theorem Walk.idles_of_firstChange
    (h : w.firstChange t turns ses = (some (.error .patternNotFound), ses')) : w.Idles t ses ses' := by
  induction turns generalizing ses w with
  | zero => cases h
  | succ turns ih =>
    rw [firstChange_succ] at h
    match here : w.turn ses with
    | (.working next, ses₁) =>
      rw [here] at h
      exact .working here (ih h)
    | (.finished, ses₁) =>
      rw [here] at h
      cases h
      exact .finished here
    | (.yielded (.error e) next, ses₁) =>
      rw [here] at h
      cases h
      exact absurd rfl (turn_error here)
    | (.yielded (.ok u) next, ses₁) =>
      rw [here] at h
      dsimp only at h
      split at h
      · rename_i same
        subst same
        exact .yielded here (ih h)
      · cases h

/-- There is no single step from a term where a rule is idle. -/
theorem Rule.Idles.applyOnce (h : rule.Idles t ses ses') : ∃ turns, ∀ more,
    rule.applyOnce t (turns + more) ses = (some (.error .patternNotFound), ses') :=
  Walk.Idles.firstChange h

theorem Rule.idles_of_applyOnce
    (h : rule.applyOnce t turns ses = (some (.error .patternNotFound), ses')) :
    rule.Idles t ses ses' := Walk.idles_of_firstChange h

/-! ## Runs from a term -/

namespace Fixpoint

variable {f f' : Fixpoint} {frame : Frame} {above : List Frame} {r : Reduction} {max : Option Nat}
  {limit : Option Nat} {found rs : List Reduction} {Opens : Nat → TermId → Session → Prop}

/-- The only frame is left behind with its term as a fixpoint. -/
theorem run_of_idles (h : w.Idles t ses ses') (path : f.path = [⟨t, 0, w, false⟩])
    (new : t ∉ f.yielded) : ∃ ses₁ g f', Runs turn ses f [] ses₁ g ∧
      g.turn ses₁ = (.yielded (.ok ⟨t, 0⟩) f', (Session.count Counters.countFixpoint ses').2) ∧
      f'.path = [] := by
  induction h generalizing f with
  | @finished ses ses' w here =>
    refine ⟨ses, f, { f with path := [], yielded := t :: f.yielded }, .refl, ?_, rfl⟩
    rw [turn_cons path, here]
    dsimp only
    rw [leave_eq, if_neg]
    rw [Bool.false_or, List.contains_iff_mem]
    exact new
  | @working ses ses₁ ses' w next here _ ih =>
    have turn : f.turn ses = (.working { f with path := [⟨t, 0, next, false⟩] }, ses₁) := by
      rw [turn_cons path, here]
    obtain ⟨ses₂, g, f', run, last, done⟩ := ih (f := { f with path := [⟨t, 0, next, false⟩] }) rfl new
    exact ⟨ses₂, g, f', .working turn run, last, done⟩
  | @yielded ses ses₁ ses' w next here _ ih =>
    have turn : f.turn ses = (.working { f with path := [⟨t, 0, next, false⟩] }, ses₁) := by
      rw [turn_cons path, here]
      exact enter_same f _ [] rfl ses₁
    obtain ⟨ses₂, g, f', run, last, done⟩ := ih (f := { f with path := [⟨t, 0, next, false⟩] }) rfl new
    exact ⟨ses₂, g, f', .working turn run, last, done⟩

/-- As long as nothing has been found, the first fixpoint is the same one turn later. -/
theorem once_of_runs (run : Runs turn ses f [] ses' f') : ∃ turns, ∀ more,
    once (turns + more) f ses = once more f' ses' := by
  generalize none : ([] : List (Except RewriteError Reduction)) = as at run
  induction run with
  | refl => exact ⟨0, fun more => by rw [Nat.zero_add]⟩
  | working here _ ih =>
    obtain ⟨turns, eq⟩ := ih none
    refine ⟨turns + 1, fun more => ?_⟩
    rw [Nat.add_right_comm, once_succ, here]
    exact eq more
  | yielded => cases none

theorem collect_of_runs (run : Runs turn ses f [] ses' f')
    (wanted : max.any (· ≤ found.length) = false) :
    ∃ turns, ∀ more, collect max (turns + more) f found ses = collect max more f' found ses' := by
  generalize none : ([] : List (Except RewriteError Reduction)) = as at run
  induction run with
  | refl => exact ⟨0, fun more => by rw [Nat.zero_add]⟩
  | working here _ ih =>
    obtain ⟨turns, eq⟩ := ih none
    refine ⟨turns + 1, fun more => ?_⟩
    rw [Nat.add_right_comm, collect_succ, if_neg (ne_true_of_eq_false wanted), here]
    exact eq more
  | yielded => cases none

section

variable (h : rule.Idles t ses ses') (limit)

include h

theorem once_of_idles : ∃ turns, ∀ more,
    once (turns + more) (start rule limit t ses).1 (start rule limit t ses).2 =
      (some (.ok ⟨t, 0⟩), (Session.count Counters.countFixpoint ses').2) := by
  obtain ⟨ses₁, g, f', run, last, -⟩ :=
    run_of_idles (f := (start rule limit t ses).1) h rfl List.not_mem_nil
  obtain ⟨turns, eq⟩ := once_of_runs run
  refine ⟨turns + 1, fun more => ?_⟩
  rw [Nat.add_assoc]
  refine (eq _).trans ?_
  rw [Nat.add_comm, once_succ, last]

theorem collect_of_idles (asked : max ≠ some 0) : ∃ turns, ∀ more,
    collect max (turns + more) (start rule limit t ses).1 [] (start rule limit t ses).2 =
      (some (.ok [⟨t, 0⟩]), (Session.count Counters.countFixpoint ses').2) := by
  have wanted : max.any (· ≤ ([] : List Reduction).length) = false := by
    cases max with
    | none => rfl
    | some max => exact decide_eq_false fun le => asked (congrArg _ (Nat.le_zero.mp le))
  obtain ⟨ses₁, g, f', run, last, done⟩ :=
    run_of_idles (f := (start rule limit t ses).1) h rfl List.not_mem_nil
  obtain ⟨turns, eq⟩ := collect_of_runs run wanted
  refine ⟨turns + 2, fun more => ?_⟩
  rw [Nat.add_assoc]
  refine (eq _).trans ?_
  rw [show 2 + more = more + 1 + 1 by omega, collect_succ, if_neg (ne_true_of_eq_false wanted), last]
  dsimp only
  rw [collect_succ, turn_of_done done]
  split
  · rfl
  · rfl

end

/-! ## Terms that are found -/

/-- The walk of the first frame, if it has not led away, has gone on without a break since it was
    begun, and those above have led away. -/
structure Unbroken (Opens : Nat → TermId → Session → Prop) (rule : Rule) (ses : Session)
    (f : Fixpoint) : Prop where
  sameRule : f.rule = rule
  above : ∀ frame ∈ f.path.tail, frame.moved = true
  first : ∀ frame ∈ f.path.head?, frame.moved = false → ∃ ses₀,
    Opens frame.depth frame.term ses₀ ∧ ∀ ses', frame.successors.Idles frame.term ses ses' →
      rule.Idles frame.term ses₀ ses'

/-- A term where the rule was idle when the run came there. -/
def Settled (Opens : Nat → TermId → Session → Prop) (rule : Rule) (r : Reduction) (ses : Session) : Prop :=
  ∃ ses₀ ses₁, Opens r.steps r.term ses₀ ∧ rule.Idles r.term ses₀ ses₁ ∧
    ses = (Session.count Counters.countFixpoint ses₁).2

/-- What a turn comes to. -/
def Unbroken.Turned (Opens : Nat → TermId → Session → Prop) (rule : Rule) :
    FixpointTurn × Session → Prop
  | (.working next, ses) => next.Unbroken Opens rule ses
  | (.yielded (.ok r) next, ses) => Settled Opens rule r ses ∧ next.Unbroken Opens rule ses
  | (.yielded (.error _) _, _) => True
  | (.finished, _) => True

theorem start_unbroken (limit : Option Nat) (opens : Opens 0 t ses) :
    (start rule limit t ses).1.Unbroken Opens rule (start rule limit t ses).2 where
  sameRule := rfl
  above := nofun
  first frame mem _ := by
    obtain rfl := Option.some.inj mem
    exact ⟨ses, opens, fun _ => id⟩

/-- The frames above a frame are all that is left. -/
theorem Unbroken.leave (h : f.Unbroken Opens rule ses) (path : f.path = frame :: above)
    (rule' : f'.rule = f.rule) (path' : f'.path = above) : f'.Unbroken Opens rule ses' where
  sameRule := rule'.trans h.sameRule
  above fr mem := h.above fr (by
    rw [path]
    exact List.mem_of_mem_tail (path' ▸ mem))
  first fr mem still := by
    have moved := h.above fr (by
      rw [path]
      exact List.mem_of_mem_head? (path' ▸ mem))
    rw [moved] at still
    cases still

/-- The first frame goes on, or has led away. -/
theorem Unbroken.goOn {frame' : Frame} (h : f.Unbroken Opens rule ses) (path : f.path = frame :: above)
    (rule' : f'.rule = f.rule) (path' : f'.path = frame' :: above) (same : frame'.term = frame.term)
    (depth : frame'.depth = frame.depth)
    (on : frame'.moved = false → frame.moved = false ∧ ∀ ses₁,
      frame'.successors.Idles frame.term ses' ses₁ → frame.successors.Idles frame.term ses ses₁) :
    f'.Unbroken Opens rule ses' where
  sameRule := rule'.trans h.sameRule
  above fr mem := h.above fr (by
    rw [path]
    exact (path' ▸ mem : fr ∈ (frame' :: above).tail))
  first fr mem still := by
    rw [path'] at mem
    obtain rfl := Option.some.inj mem
    obtain ⟨unmoved, on⟩ := on still
    obtain ⟨ses₀, opens, idles⟩ := h.first frame (by rw [path]; rfl) unmoved
    rw [same, depth]
    exact ⟨ses₀, opens, fun ses₁ more => idles ses₁ (on ses₁ more)⟩

/-- A turn keeps walks unbroken, and a term is found where the rule was idle. -/
theorem Unbroken.turn (h : f.Unbroken Opens rule ses)
    (opens : ∀ frame above t w ses', f.path = frame :: above →
      frame.successors.turn ses = (.yielded (.ok t) w, ses') →
        Opens (frame.depth + 1) t (Session.count Counters.countFixpointStep ses').2) :
    Unbroken.Turned Opens rule (f.turn ses) := by
  match path : f.path with
  | [] =>
    rw [turn_of_done path]
    trivial
  | frame :: above =>
    rw [turn_cons path]
    match here : frame.successors.turn ses with
    | (.working w, ses') =>
      exact h.goOn path rfl rfl rfl rfl fun still => ⟨still, fun _ => .working here⟩
    | (.yielded (.error e) w, ses') => trivial
    | (.finished, ses') =>
      dsimp only
      rw [leave_eq]
      split
      · exact h.leave path rfl rfl
      · rename_i stay
        rw [Bool.or_eq_true, not_or] at stay
        obtain ⟨ses₀, opens, idles⟩ := h.first frame (by rw [path]; rfl) (eq_false_of_ne_true stay.1)
        exact ⟨⟨ses₀, ses', opens, idles ses' (.finished here), rfl⟩, h.leave path rfl rfl⟩
    | (.yielded (.ok t) w, ses') =>
      dsimp only
      by_cases same : t = frame.term
      · rw [enter_same f { frame with successors := w } above same]
        refine h.goOn path rfl rfl rfl rfl fun still => ⟨still, fun _ => ?_⟩
        exact .yielded (same ▸ here)
      have moved : ∀ {f' : Fixpoint}, f'.rule = f.rule →
          f'.path = { frame with successors := w, moved := true } :: above →
            f'.Unbroken Opens rule ses' := fun rule' path' => h.goOn path rule' path' rfl rfl nofun
      by_cases deep : f.tooDeep (frame.depth + 1) = true
      · rw [enter_deep { frame with successors := w } _ same deep]
        exact moved rfl rfl
      have shallow := eq_false_of_ne_true deep
      by_cases again : f.expanded.contains t = true
      · rw [enter_again { frame with successors := w } _ same shallow again]
        exact moved rfl rfl
      rw [enter_new { frame with successors := w } _ same shallow (eq_false_of_ne_true again)]
      obtain rfl := h.sameRule
      refine ⟨rfl, List.forall_mem_cons.mpr ⟨rfl, fun fr mem => h.above fr ?_⟩, fun fr mem _ => ?_⟩
      · rw [path]
        exact mem
      · obtain rfl := Option.some.inj mem
        exact ⟨_, opens frame above t w ses' path here, fun _ => id⟩

section

variable (deeper : ∀ n t ses, Opens (n + 1) t ses)

include deeper

/-- A term that is found first is one where the rule was idle. -/
theorem Unbroken.once (h : f.Unbroken Opens rule ses)
    (result : Fixpoint.once turns f ses = (some (.ok r), ses')) : Settled Opens rule r ses' := by
  induction turns generalizing ses f with
  | zero => cases result
  | succ turns ih =>
    have turned := h.turn fun _ _ _ _ _ _ _ => deeper _ _ _
    rw [once_succ] at result
    match here : f.turn ses with
    | (.working next, ses₁) =>
      rw [here] at turned result
      exact ih turned result
    | (.yielded (.ok r') next, ses₁) =>
      rw [here] at turned result
      cases result
      exact turned.1
    | (.yielded (.error e) next, ses₁) =>
      rw [here] at result
      cases result
    | (.finished, ses₁) =>
      rw [here] at result
      cases result

/-- All terms that are found are such where the rule was idle. -/
theorem Unbroken.collect (h : f.Unbroken Opens rule ses)
    (before : ∀ r ∈ found, ∃ ses, Settled Opens rule r ses)
    (all : Fixpoint.collect max turns f found ses = (some (.ok rs), ses')) :
    ∀ r ∈ rs, ∃ ses, Settled Opens rule r ses := by
  induction turns generalizing ses f found with
  | zero => cases all
  | succ turns ih =>
    have turned := h.turn fun _ _ _ _ _ _ _ => deeper _ _ _
    rw [collect_succ] at all
    split at all
    · cases all
      exact before
    match here : f.turn ses with
    | (.working next, ses₁) =>
      rw [here] at turned all
      exact ih turned before all
    | (.yielded (.ok r') next, ses₁) =>
      rw [here] at turned all
      exact ih turned.2 (List.forall_mem_append.mpr
        ⟨before, List.forall_mem_singleton.mpr ⟨_, turned.1⟩⟩) all
    | (.yielded (.error e) next, ses₁) =>
      rw [here] at all
      cases all
    | (.finished, ses₁) =>
      rw [here] at all
      have concluded : f.conclude found = .ok rs := Option.some.inj (congrArg Prod.fst all)
      unfold conclude at concluded
      split at concluded
      · cases concluded
      · cases concluded
        exact before

end

/-- Without a step only the term is found that the run starts from, and only where the rule is idle. -/
def AtStart (t : TermId) (ses : Session) (n : Nat) (u : TermId) (ses' : Session) : Prop :=
  n = 0 → u = t ∧ ses' = ses

theorem Settled.idles (h : Settled (AtStart t ses) rule r ses') (none : r.steps = 0) :
    r.term = t ∧ ∃ ses₁, rule.Idles t ses ses₁ := by
  obtain ⟨ses₀, ses₁, opens, idles, -⟩ := h
  obtain ⟨same, rfl⟩ := opens none
  exact ⟨same, ses₁, same ▸ idles⟩

theorem idles_of_once
    (h : once turns (start rule limit t ses).1 (start rule limit t ses).2 = (some (.ok r), ses'))
    (none : r.steps = 0) : ∃ ses₁, rule.Idles t ses ses₁ := by
  have started : (start rule limit t ses).1.Unbroken (AtStart t ses) rule (start rule limit t ses).2 :=
    start_unbroken limit fun _ => ⟨rfl, rfl⟩
  exact ((started.once (fun _ _ _ => nofun) h).idles none).2

theorem idles_of_collect (h : collect max turns (start rule limit t ses).1 []
      (start rule limit t ses).2 = (some (.ok rs), ses')) (mem : r ∈ rs)
    (none : r.steps = 0) : ∃ ses₁, rule.Idles t ses ses₁ := by
  have started : (start rule limit t ses).1.Unbroken (AtStart t ses) rule (start rule limit t ses).2 :=
    start_unbroken limit fun _ => ⟨rfl, rfl⟩
  obtain ⟨_, settled⟩ := started.collect (fun _ _ _ => nofun)
    (List.forall_mem_nil _) h r mem
  exact (settled.idles none).2

end Fixpoint

end Regraft
