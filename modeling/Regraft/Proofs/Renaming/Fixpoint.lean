import Regraft.Proofs.Renaming.Walk
import Regraft.Proofs.Rewriting.Explored

/-
  Runs over fixpoints that go alike: they enter twins, cut the same paths, and find twins for fixpoints, with
  as many steps (`Renaming.once_acts`, `collect_acts`).
-/

namespace Regraft

namespace Renaming

variable {ρ : Renaming} {p q : Sides} {t t' : TermId} {rule rule' : Rule} {frame frame' : Frame}
  {above above' : List Frame} {f f' : Fixpoint} {rs rs' : List Reduction}

/-- Twins on the path, whose walks go alike. -/
structure Frames (ρ : Renaming) (p : Sides) (frame frame' : Frame) : Prop where
  term : ρ.Same p frame.term frame'.term
  depth : frame'.depth = frame.depth
  successors : ρ.Walks p frame.successors frame'.successors
  moved : frame'.moved = frame.moved

/-- Runs that have come alike so far. -/
structure Fixpoints (ρ : Renaming) (p : Sides) (f f' : Fixpoint) : Prop where
  rule : ρ.Rules p f.rule f'.rule
  path : List.Forall₂ (ρ.Frames p) f.path f'.path
  expanded : ρ.Sames p f.expanded f'.expanded
  yielded : ρ.Sames p f.yielded f'.yielded
  stepLimit : f'.stepLimit = f.stepLimit
  limitHit : f'.limitHit = f.limitHit

/-- Twins that were reached in as many steps. -/
def Reductions (ρ : Renaming) (p : Sides) (r r' : Reduction) : Prop :=
  ρ.Same p r.term r'.term ∧ r'.steps = r.steps

theorem Frames.grow (h : ρ.Frames p frame frame') (g : p.Grow q) : ρ.Frames q frame frame' :=
  ⟨h.term.grow g, h.depth, h.successors.grow g, h.moved⟩

theorem frames_grow (h : List.Forall₂ (ρ.Frames p) above above') (g : p.Grow q) :
    List.Forall₂ (ρ.Frames q) above above' := h.imp fun _ _ h => h.grow g

theorem Fixpoints.grow (h : ρ.Fixpoints p f f') (g : p.Grow q) : ρ.Fixpoints q f f' :=
  ⟨h.rule.grow g, frames_grow h.path g, h.expanded.grow g, h.yielded.grow g, h.stepLimit, h.limitHit⟩

theorem contains_eq {ts ts' : List TermId} (h : ρ.Sames p ts ts') (ht : ρ.Same p t t') :
    ts'.contains t' = ts.contains t := by
  have any := any_eq (R := ρ.Same p) (f := (t == ·)) (g := (t' == ·)) (fun u u' same => by
    rw [Bool.eq_iff_iff, beq_iff_eq, beq_iff_eq]
    exact ht.eq_iff same) h
  rwa [List.any_beq, List.any_beq] at any

/-! ## Turns -/

theorem fixpoint_start (h : ρ.Rules p rule rule') (ht : ρ.Same p t t') (stepLimit : Option Nat) :
    ρ.Acts p ρ.Fixpoints (Fixpoint.start rule stepLimit t) (Fixpoint.start rule' stepLimit t') :=
  (start_acts h ht).bind (.refl _) fun _ _ _ g walks => Steady.acts (.pure
    ⟨h.grow g, .cons ⟨ht.grow g, rfl, walks, rfl⟩ .nil, .cons (ht.grow g) .nil, .nil, rfl, rfl⟩)

/-- What turns of runs come to. -/
abbrev FixpointTurns (ρ : Renaming) (p : Sides) :
    Fixpoint.FixpointTurn → Fixpoint.FixpointTurn → Prop :=
  Turns ρ.Fixpoints (ρ.SameResult ρ.Reductions) p

theorem enter_acts (h : ρ.Fixpoints p f f') (frames : ρ.Frames p frame frame')
    (others : List.Forall₂ (ρ.Frames p) above above') (ht : ρ.Same p t t') :
    ρ.Acts p ρ.FixpointTurns (f.enter frame above t) (f'.enter frame' above' t') := by
  have moved : ρ.Frames p { frame with moved := true } { frame' with moved := true } :=
    ⟨frames.term, frames.depth, frames.successors, rfl⟩
  have deep : f'.tooDeep (frame'.depth + 1) = f.tooDeep (frame.depth + 1) := by
    rw [Fixpoint.tooDeep, Fixpoint.tooDeep, h.stepLimit, frames.depth]
  unfold Fixpoint.enter
  by_cases same : t = frame.term
  · rw [if_pos same, if_pos ((ht.eq_iff frames.term).mpr same)]
    exact Steady.acts (.pure (.working
      ⟨h.rule, .cons frames others, h.expanded, h.yielded, h.stepLimit, h.limitHit⟩))
  · rw [if_neg same, if_neg fun eq => same ((ht.eq_iff frames.term).mp eq)]
    dsimp only
    rw [deep, contains_eq h.expanded ht]
    split
    · exact Steady.acts (.pure (.working
        ⟨h.rule, .cons moved others, h.expanded, h.yielded, h.stepLimit, rfl⟩))
    · split
      · exact Steady.acts (.pure (.working
          ⟨h.rule, .cons moved others, h.expanded, h.yielded, h.stepLimit, h.limitHit⟩))
      · refine (count_steady Counters.countFixpointStep).bind fun q _ _ g _ => ?_
        refine (start_acts (h.rule.grow g) (ht.grow g)).bind (.refl _) fun r w w' g' walks => ?_
        have later := g.trans g'
        have child : ρ.Frames r ⟨t, frame.depth + 1, w, false⟩ ⟨t', frame'.depth + 1, w', false⟩ :=
          ⟨ht.grow later, congrArg (· + 1) frames.depth, walks, rfl⟩
        refine Steady.acts (.pure (.working ⟨h.rule.grow later, ?_, ?_, h.yielded.grow later,
          h.stepLimit, h.limitHit⟩))
        · exact .cons child (.cons (moved.grow later) (frames_grow others later))
        · exact .cons (ht.grow later) (h.expanded.grow later)

theorem leave_steady (h : ρ.Fixpoints p f f') (frames : ρ.Frames p frame frame')
    (others : List.Forall₂ (ρ.Frames p) above above') :
    ρ.Steady p ρ.FixpointTurns (f.leave frame above) (f'.leave frame' above') := by
  have next : ρ.Fixpoints p { f with path := above } { f' with path := above' } :=
    ⟨h.rule, others, h.expanded, h.yielded, h.stepLimit, h.limitHit⟩
  unfold Fixpoint.leave
  dsimp only
  rw [frames.moved, contains_eq h.yielded frames.term]
  split
  · exact .pure (.working next)
  · refine (count_steady Counters.countFixpoint).then fun q _ _ g _ => .pure (.yielded
      (.ok ⟨frames.term.grow g, frames.depth⟩) ?_)
    exact ⟨h.rule.grow g, frames_grow others g, h.expanded.grow g,
      .cons (frames.term.grow g) (h.yielded.grow g), h.stepLimit, h.limitHit⟩

/-- Runs over fixpoints go on alike. -/
theorem fixpoint_turn (h : ρ.Fixpoints p f f') :
    ρ.Acts p ρ.FixpointTurns f.turn f'.turn := by
  intro agree room
  have path := h.path
  rw [Fixpoint.turn_eq] at room
  rw [Fixpoint.turn_eq, Fixpoint.turn_eq]
  generalize f.path = frames at path ⊢
  generalize f'.path = frames' at path room ⊢
  cases path with
  | nil => exact ⟨agree, .refl p, .finished⟩
  | @cons frame frame' above above' first others =>
    dsimp only at room ⊢
    have turned := walk_turn first.successors agree
    generalize frame.successors.turn p.left = x at turned ⊢
    generalize frame'.successors.turn p.right = x' at turned room ⊢
    obtain ⟨x, c⟩ := x
    obtain ⟨x', d⟩ := x'
    have before : d.store.Roomy := by
      cases x' with
      | working => exact room
      | finished =>
        exact room.of_grows (Fixpoint.leave_grows ..).store
      | yielded result w => cases result with
        | error e => exact room
        | ok u => exact room.of_grows (Fixpoint.enter_grows ..).store
    obtain ⟨agree₁, g, result⟩ := turned before
    have go : ∀ {w w' : Walk}, ρ.Walks ⟨c, d⟩ w w' →
        ρ.Frames ⟨c, d⟩ { frame with successors := w } { frame' with successors := w' } := fun walks =>
      ⟨first.term.grow g, first.depth, walks, first.moved⟩
    have h := h.grow g
    have others := frames_grow others g
    have on : ∀ {w w' : Walk}, ρ.Walks ⟨c, d⟩ w w' → ρ.Fixpoints ⟨c, d⟩
        { f with path := { frame with successors := w } :: above }
        { f' with path := { frame' with successors := w' } :: above' } := fun walks =>
      ⟨h.rule, .cons (go walks) others, h.expanded, h.yielded, h.stepLimit, h.limitHit⟩
    cases result with
    | working walks => exact ⟨agree₁, g, .working (on walks)⟩
    | finished => exact (leave_steady h (first.grow g) others agree₁).after g
    | yielded same walks => cases same with
      | error e => exact ⟨agree₁, g, .yielded (.error e) (on walks)⟩
      | ok same => exact (enter_acts h (go walks) others same agree₁ room).after g

/-! ## Runs -/

theorem Fixpoints.exhausted (h : ρ.Fixpoints p f f') : ρ.SameError q f.exhausted f'.exhausted := by
  unfold Fixpoint.exhausted
  rw [h.limitHit, h.stepLimit]
  split
  · exact .stepLimitExceeded _
  · exact .patternNotFound

/-- The same first fixpoint is found. -/
theorem once_acts (turns : Nat) (h : ρ.Fixpoints p f f') (growing : f'.Growing p.right) :
    ρ.Acts p (fun q => Option.Rel (ρ.SameResult ρ.Reductions q)) (Fixpoint.once turns f)
      (Fixpoint.once turns f') := by
  induction turns generalizing p f f' with
  | zero => exact Steady.acts (.pure .none)
  | succ turns ih =>
    intro agree room
    rw [Fixpoint.once_succ] at room
    rw [Fixpoint.once_succ, Fixpoint.once_succ]
    have turned := fixpoint_turn h agree
    obtain ⟨g', left⟩ := growing.turn
    generalize f.turn p.left = x at turned ⊢
    generalize f'.turn p.right = x' at turned room g' left ⊢
    obtain ⟨x, c⟩ := x
    obtain ⟨x', d⟩ := x'
    have before : d.store.Roomy := by
      cases x' with
      | working next => exact room.of_grows (Fixpoint.once_grows turns left).1.store
      | finished => exact room
      | yielded result next => exact room
    obtain ⟨agree₁, g, result⟩ := turned before
    cases result with
    | working next => exact (ih next left agree₁ room).after g
    | finished => exact ⟨agree₁, g, .some (.error h.exhausted)⟩
    | yielded same _ => exact ⟨agree₁, g, .some same⟩

theorem Fixpoints.conclude (h : ρ.Fixpoints p f f') (found : List.Forall₂ (ρ.Reductions q) rs rs') :
    ρ.SameResult (fun q => List.Forall₂ (ρ.Reductions q)) q (f.conclude rs) (f'.conclude rs') := by
  have empty : rs'.isEmpty = rs.isEmpty := by cases found <;> rfl
  unfold Fixpoint.conclude
  rw [h.limitHit, h.stepLimit, empty]
  split
  · exact .error (.stepLimitExceeded _)
  · exact .ok found

theorem reductions_grow (h : List.Forall₂ (ρ.Reductions p) rs rs') (g : p.Grow q) :
    List.Forall₂ (ρ.Reductions q) rs rs' := h.imp fun _ _ h => ⟨Same.grow h.1 g, h.2⟩

/-- The same fixpoints are found, in the same order. -/
theorem collect_acts (max : Option Nat) (turns : Nat) (h : ρ.Fixpoints p f f')
    (growing : f'.Growing p.right) (found : List.Forall₂ (ρ.Reductions p) rs rs') :
    ρ.Acts p
      (fun q => Option.Rel (ρ.SameResult (fun q => List.Forall₂ (ρ.Reductions q)) q))
      (Fixpoint.collect max turns f rs) (Fixpoint.collect max turns f' rs') := by
  induction turns generalizing p f f' rs rs' with
  | zero => exact Steady.acts (.pure .none)
  | succ turns ih =>
    intro agree room
    have stored : ∀ r ∈ rs', p.right.store.Stored r.term := by
      clear ih room
      induction found with
      | nil => exact nofun
      | cons first _ ih => exact List.forall_mem_cons.mpr ⟨first.1.stored_right, ih⟩
    rw [Fixpoint.collect_succ, ← found.length_eq] at room
    rw [Fixpoint.collect_succ, Fixpoint.collect_succ, ← found.length_eq]
    by_cases enough : max.any (· ≤ rs.length) = true
    · rw [if_pos enough, if_pos enough]
      exact ⟨agree, .refl p, .some (.ok found)⟩
    rw [if_neg enough] at room
    rw [if_neg enough, if_neg enough]
    have turned := fixpoint_turn h agree
    obtain ⟨g', left⟩ := growing.turn
    generalize f.turn p.left = x at turned ⊢
    generalize f'.turn p.right = x' at turned room g' left ⊢
    obtain ⟨x, c⟩ := x
    obtain ⟨x', d⟩ := x'
    have before : d.store.Roomy := by
      have stored : ∀ r ∈ rs', d.store.Stored r.term := fun r mem => g'.store.stored (stored r mem)
      cases x' with
      | working next => exact room.of_grows (Fixpoint.collect_grows left stored).1.store
      | finished => exact room
      | yielded result next => cases result with
        | error e => exact room
        | ok r =>
          exact room.of_grows (Fixpoint.collect_grows left.2 (List.forall_mem_append.mpr
            ⟨stored, List.forall_mem_singleton.mpr left.1⟩)).1.store
    obtain ⟨agree₁, g, result⟩ := turned before
    have found := reductions_grow found g
    cases result with
    | working next => exact (ih next left found agree₁ room).after g
    | finished => exact ⟨agree₁, g, .some (h.conclude found)⟩
    | yielded same next => cases same with
      | error e => exact ⟨agree₁, g, .some (.error e)⟩
      | ok same =>
        exact (ih next left.2 (List.rel_append found (.cons same .nil)) agree₁ room).after g

end Renaming

end Regraft
