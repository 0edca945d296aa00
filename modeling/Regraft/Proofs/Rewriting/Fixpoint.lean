import Regraft.Proofs.Rewriting.Walk
import Regraft.Rewriting.Fixpoint

/-
  What fixpoints satisfy. A property of trees that is kept by every result of a walk holds of all terms
  on the path (`Fixpoint.Keeps`), whatever the paths that are cut, and so of every fixpoint that is
  found (`once_holds`, `all_holds`).
-/

namespace Regraft

variable {F : Facts} {P : Tree → Prop} {rule : Rule} {ses ses' : Session} {t : TermId}

/-- Walks from terms with a property have results with it. -/
def Rule.Keeps (rule : Rule) (F : Facts) (P : Tree → Prop) : Prop :=
  ∀ {ses t}, ses.facts = F → Holds P ses t →
    ses.Grows (Walk.start rule t ses).2 ∧
      (Walk.start rule t ses).1.Yields P (Walk.start rule t ses).2

/-- A single step keeps the property. -/
theorem Rule.applyOnce_holds (kept : rule.Keeps F P) (facts : ses.facts = F) (h : Holds P ses t)
    (turns : Nat) : ses.Grows (rule.applyOnce t turns ses).2 ∧ ∀ u,
      (rule.applyOnce t turns ses).1 = some (.ok u) → Holds P (rule.applyOnce t turns ses).2 u := by
  obtain ⟨g, yields⟩ := kept facts h
  obtain ⟨g', holds⟩ := Walk.firstChange_holds yields
  exact ⟨g.trans g', holds⟩

namespace Fixpoint

/-- A term on a path and all results of its walk have a property. -/
structure FrameKeeps (P : Tree → Prop) (ses : Session) (frame : Frame) : Prop where
  term : Holds P ses frame.term
  successors : frame.successors.Yields P ses

/-- What a run keeps. -/
structure Keeps (P : Tree → Prop) (rule : Rule) (ses : Session) (f : Fixpoint) : Prop where
  rule : f.rule = rule
  path : ∀ frame ∈ f.path, FrameKeeps P ses frame

theorem FrameKeeps.grows {frame : Frame} (h : FrameKeeps P ses frame) (g : ses.Grows ses') :
    FrameKeeps P ses' frame := ⟨h.term.grows g, h.successors.grows g⟩

/-- What a turn of a run comes to. -/
def Turned (P : Tree → Prop) (rule : Rule) : FixpointTurn × Session → Prop
  | (.working f, ses) => Keeps P rule ses f
  | (.yielded (.ok r) f, ses) => Holds P ses r.term ∧ Keeps P rule ses f
  | (.yielded (.error _) f, ses) => Keeps P rule ses f
  | (.finished, _) => True

theorem start_keeps (kept : rule.Keeps F P) (facts : ses.facts = F) (h : Holds P ses t)
    (stepLimit : Option Nat) : ses.Grows (start rule stepLimit t ses).2 ∧
      Keeps P rule (start rule stepLimit t ses).2 (start rule stepLimit t ses).1 := by
  obtain ⟨g, yields⟩ := kept facts h
  refine ⟨g, rfl, fun frame mem => ?_⟩
  rw [List.mem_singleton.mp mem]
  exact ⟨h.grows g, yields⟩

theorem enter_turned {f : Fixpoint} {frame : Frame} {above : List Frame} {next : TermId}
    (kept : rule.Keeps F P) (facts : ses.facts = F) (hf : f.rule = rule)
    (path : ∀ fr ∈ frame :: above, FrameKeeps P ses fr) (h : Holds P ses next) :
    ses.Grows (f.enter frame above next ses).2 ∧ Turned P rule (f.enter frame above next ses) := by
  have moved : ∀ fr ∈ { frame with moved := true } :: above, FrameKeeps P ses fr := by
    rw [List.forall_mem_cons] at path ⊢
    exact ⟨⟨path.1.term, path.1.successors⟩, path.2⟩
  unfold enter
  split
  · exact ⟨.refl ses, hf, path⟩
  · dsimp only
    split
    · exact ⟨.refl ses, hf, moved⟩
    · split
      · exact ⟨.refl ses, hf, moved⟩
      · have count := Session.count_grows Counters.countFixpointStep ses
        obtain ⟨g, yields⟩ := kept (count.facts.trans facts) (h.grows count)
        rw [SessionM.bind_apply, SessionM.bind_apply, hf]
        refine ⟨count.trans g, rfl, ?_⟩
        show ∀ fr ∈ _ :: { frame with moved := true } :: above, FrameKeeps P _ fr
        rw [List.forall_mem_cons]
        exact ⟨⟨h.grows (count.trans g), yields⟩, fun fr mem => (moved fr mem).grows (count.trans g)⟩

theorem leave_turned {f : Fixpoint} {frame : Frame} {above : List Frame} (hf : f.rule = rule)
    (path : ∀ fr ∈ frame :: above, FrameKeeps P ses fr) :
    ses.Grows (f.leave frame above ses).2 ∧ Turned P rule (f.leave frame above ses) := by
  rw [List.forall_mem_cons] at path
  unfold leave
  dsimp only
  split
  · exact ⟨.refl ses, hf, path.2⟩
  · have count := Session.count_grows Counters.countFixpoint ses
    exact ⟨count, path.1.term.grows count, hf, fun fr mem => (path.2 fr mem).grows count⟩

theorem turn_eq (f : Fixpoint) (ses : Session) : f.turn ses = match f.path with
    | [] => (.finished, ses)
    | frame :: above => match frame.successors.turn ses with
      | (.working w, ses') =>
        (.working { f with path := { frame with successors := w } :: above }, ses')
      | (.yielded (.error e) w, ses') =>
        (.yielded (.error e) { f with path := { frame with successors := w } :: above }, ses')
      | (.yielded (.ok next) w, ses') => f.enter { frame with successors := w } above next ses'
      | (.finished, ses') => f.leave frame above ses' := by
  unfold turn
  cases f.path with
  | nil => rfl
  | cons frame above =>
    dsimp only
    rw [SessionM.bind_apply]
    generalize frame.successors.turn ses = r
    obtain ⟨next, ses'⟩ := r
    cases next with
    | working w => rfl
    | finished => rfl
    | yielded result w => cases result <;> rfl

/-- A turn keeps what is known of the path, and a fixpoint has the property. -/
theorem turn_turned {f : Fixpoint} (kept : rule.Keeps F P) (facts : ses.facts = F)
    (h : Keeps P rule ses f) : ses.Grows (f.turn ses).2 ∧ Turned P rule (f.turn ses) := by
  rw [turn_eq]
  match hpath : f.path with
  | [] => exact ⟨.refl ses, trivial⟩
  | frame :: above =>
    have path := h.path
    rw [hpath] at path
    obtain ⟨first, rest⟩ := List.forall_mem_cons.mp path
    obtain ⟨g, turned⟩ := Walk.turn_turned first.successors
    have later : ∀ {w ses'}, ses.Grows ses' → w.Yields P ses' →
        ∀ fr ∈ { frame with successors := w } :: above, FrameKeeps P ses' fr := by
      intro w ses' g yields
      rw [List.forall_mem_cons]
      exact ⟨⟨first.term.grows g, yields⟩, fun fr mem => (rest fr mem).grows g⟩
    dsimp only
    match hturn : frame.successors.turn ses with
    | (.working w, ses') =>
      rw [hturn] at g turned
      exact ⟨g, h.rule, later g turned⟩
    | (.yielded (.error e) w, ses') =>
      rw [hturn] at g turned
      exact ⟨g, h.rule, later g turned⟩
    | (.yielded (.ok next) w, ses') =>
      rw [hturn] at g turned
      obtain ⟨g', entered⟩ := enter_turned kept (g.facts.trans facts) h.rule (later g turned.2)
        turned.1
      exact ⟨g.trans g', entered⟩
    | (.finished, ses') =>
      rw [hturn] at g
      obtain ⟨g', left⟩ := leave_turned h.rule fun fr mem => (path fr mem).grows g
      exact ⟨g.trans g', left⟩

/-! ## Runs -/

theorem once_succ (turns : Nat) (f : Fixpoint) (ses : Session) :
    once (turns + 1) f ses = match f.turn ses with
      | (.working next, ses') => once turns next ses'
      | (.yielded r _, ses') => (some r, ses')
      | (.finished, ses') => (some (.error f.exhausted), ses') := by
  rw [once, SessionM.bind_apply]
  generalize f.turn ses = r
  obtain ⟨next, ses'⟩ := r
  cases next <;> rfl

/-- The first fixpoint has the property. -/
theorem once_holds (turns : Nat) {f : Fixpoint} (kept : rule.Keeps F P) (facts : ses.facts = F)
    (h : Keeps P rule ses f) : ses.Grows (once turns f ses).2 ∧ ∀ r,
      (once turns f ses).1 = some (.ok r) → Holds P (once turns f ses).2 r.term := by
  induction turns generalizing ses f with
  | zero => exact ⟨.refl ses, nofun⟩
  | succ turns ih =>
    obtain ⟨g, turned⟩ := turn_turned kept facts h
    rw [once_succ]
    match hturn : f.turn ses with
    | (.working next, ses') =>
      rw [hturn] at g turned
      obtain ⟨g', holds⟩ := ih (g.facts.trans facts) turned
      exact ⟨g.trans g', holds⟩
    | (.yielded (.error e) _, ses') =>
      rw [hturn] at g
      exact ⟨g, nofun⟩
    | (.yielded (.ok r) _, ses') =>
      rw [hturn] at g turned
      refine ⟨g, fun r' hr => ?_⟩
      cases hr
      exact turned.1
    | (.finished, ses') =>
      rw [hturn] at g
      exact ⟨g, nofun⟩

theorem collect_succ (max : Option Nat) (turns : Nat) (f : Fixpoint) (found : List Reduction)
    (ses : Session) : collect max (turns + 1) f found ses =
      if max.any (· ≤ found.length) then (some (.ok found), ses) else match f.turn ses with
        | (.working next, ses') => collect max turns next found ses'
        | (.yielded (.error e) _, ses') => (some (.error e), ses')
        | (.yielded (.ok r) next, ses') => collect max turns next (found ++ [r]) ses'
        | (.finished, ses') => (some (f.conclude found), ses') := by
  rw [collect]
  split
  · rfl
  · rw [SessionM.bind_apply]
    generalize f.turn ses = r
    obtain ⟨next, ses'⟩ := r
    cases next with
    | working w => rfl
    | finished => rfl
    | yielded result w => cases result <;> rfl

/-- All fixpoints that are collected have the property, if those found already have it. -/
theorem collect_holds {max : Option Nat} {turns : Nat} {f : Fixpoint} {found : List Reduction}
    (kept : rule.Keeps F P) (facts : ses.facts = F) (h : Keeps P rule ses f)
    (before : ∀ r ∈ found, Holds P ses r.term) :
    ses.Grows (collect max turns f found ses).2 ∧ ∀ rs,
      (collect max turns f found ses).1 = some (.ok rs) →
        ∀ r ∈ rs, Holds P (collect max turns f found ses).2 r.term := by
  induction turns generalizing ses f found with
  | zero => exact ⟨.refl ses, nofun⟩
  | succ turns ih =>
    obtain ⟨g, turned⟩ := turn_turned kept facts h
    rw [collect_succ]
    split
    · refine ⟨.refl ses, fun rs hrs => ?_⟩
      cases hrs
      exact before
    · match hturn : f.turn ses with
      | (.working next, ses') =>
        rw [hturn] at g turned
        obtain ⟨g', holds⟩ := ih (g.facts.trans facts) turned fun r mem => (before r mem).grows g
        exact ⟨g.trans g', holds⟩
      | (.yielded (.error e) _, ses') =>
        rw [hturn] at g
        exact ⟨g, nofun⟩
      | (.yielded (.ok r) next, ses') =>
        rw [hturn] at g turned
        have found' : ∀ r' ∈ found ++ [r], Holds P ses' r'.term := by
          intro r' mem
          rcases List.mem_append.mp mem with mem | mem
          · exact (before r' mem).grows g
          · rw [List.mem_singleton.mp mem]
            exact turned.1
        obtain ⟨g', holds⟩ := ih (g.facts.trans facts) turned.2 found'
        exact ⟨g.trans g', holds⟩
      | (.finished, ses') =>
        rw [hturn] at g
        refine ⟨g, fun rs hrs => ?_⟩
        have concluded : f.conclude found = .ok rs := Option.some.inj hrs
        unfold conclude at concluded
        split at concluded
        · cases concluded
        · cases concluded
          exact fun r mem => (before r mem).grows g

/-- All fixpoints have the property. -/
theorem all_holds (max : Option Nat) (turns : Nat) {f : Fixpoint} (kept : rule.Keeps F P)
    (facts : ses.facts = F) (h : Keeps P rule ses f) :
    ses.Grows (f.all max turns ses).2 ∧ ∀ rs, (f.all max turns ses).1 = some (.ok rs) →
      ∀ r ∈ rs, Holds P (f.all max turns ses).2 r.term :=
  collect_holds kept facts h nofun

end Fixpoint

end Regraft
