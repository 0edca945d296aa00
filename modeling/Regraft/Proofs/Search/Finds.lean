import Regraft.Proofs.Search.Meets

/-
  Searches that come to an answer. `Search.Finds Q` says that a search gives an answer that satisfies
  `Q` after finitely many steps, whatever happens to the session between the steps as long as it only
  grows. Forks are fair: if one branch finds an answer, so does the fork (`Finds.fork`), as long as the
  others only let the session grow (`Search.Safe`).
-/

namespace Regraft

/-- A step of a search comes to an answer that satisfies `Q`, or leaves a search that satisfies `K`. -/
def Step.Leads (Q : Session → Subst → Prop) (K : Session → Search → Prop) : Step × Session → Prop
  | (.emit s rest, ses) => Q ses s ∨ K ses rest
  | (.continue rest, ses) => K ses rest
  | (.exhausted, _) => False

namespace Search

/-- The steps of a search let the session grow, and all its answers satisfy `Q`. -/
def Meets (Q : Session → Subst → Prop) (ses : Session) (search : Search) : Prop :=
  ∀ n, MeetsFor Q n ses search

/-- The steps of a search let the session grow. -/
def Safe (ses : Session) (search : Search) : Prop := Meets (fun _ _ => True) ses search

/-- After finitely many steps there is an answer that satisfies `Q`. -/
inductive Finds (Q : Session → Subst → Prop) : Session → Search → Prop
  | intro {ses : Session} {search : Search}
      (live : ∀ ses', ses.Grows ses' →
        ses'.Grows (search.step ses').2 ∧ (search.step ses').1 ≠ .exhausted)
      (emit : ∀ ses' ses'' s rest, ses.Grows ses' → search.step ses' = (.emit s rest, ses'') →
        ¬ Q ses'' s → Finds Q ses'' rest)
      (goOn : ∀ ses' ses'' rest, ses.Grows ses' → search.step ses' = (.continue rest, ses'') →
        Finds Q ses'' rest) : Finds Q ses search

/-- An action sets up a search that finds an answer. -/
def ComesTo (Q : Session → Subst → Prop) (ses : Session) (act : SessionM Search) : Prop :=
  ∀ ses', ses.Grows ses' → ses'.Grows (act ses').2 ∧ Finds Q (act ses').2 (act ses').1

variable {Q R R' : Session → Subst → Prop} {ses ses' : Session} {search : Search}

theorem Meets.safe (h : Meets Q ses search) : Safe ses search := fun n => (h n).imp fun _ _ _ => trivial

theorem Meets.grows (h : Meets Q ses search) (g : ses.Grows ses') : Meets Q ses' search :=
  fun n => (h n).grows g

theorem Meets.step (h : Meets Q ses search) (g : ses.Grows ses') :
    ses'.Grows (search.step ses').2 ∧ Step.Meets Q (Meets Q) (search.step ses') := by
  have step := fun n => h (n + 1) ses' g
  refine ⟨(step 0).1, ?_⟩
  match hs : search.step ses' with
  | (.emit s rest, ses'') =>
    rw [hs] at step
    exact ⟨(step 0).2.1, fun n => (step n).2.2⟩
  | (.continue rest, ses'') =>
    rw [hs] at step
    exact fun n => (step n).2
  | (.exhausted, ses'') => trivial

theorem Safe.suspend {act : SessionM Search} (h : ∀ ses', ses.Grows ses' →
    ses'.Grows (act ses').2 ∧ Safe (act ses').2 (act ses').1) : Safe ses (.suspend act) :=
  fun n => (MeetsFor.suspend fun ses' g => ⟨(h ses' g).1, (h ses' g).2 n⟩).pred

namespace Finds

theorem of_step (h : ∀ ses', ses.Grows ses' → ses'.Grows (search.step ses').2 ∧
    Step.Leads Q (Finds Q) (search.step ses')) : Finds Q ses search := by
  refine .intro (fun ses' g => ⟨(h ses' g).1, fun exhausted => ?_⟩) ?_ ?_
  · have leads := (h ses' g).2
    unfold Step.Leads at leads
    split at leads <;> simp_all
  · intro ses' ses'' s rest g hs no
    have leads := (h ses' g).2
    rw [hs] at leads
    exact leads.resolve_left no
  · intro ses' ses'' rest g hs
    have leads := (h ses' g).2
    rwa [hs] at leads

theorem grows (g : ses.Grows ses') (h : Finds Q ses search) : Finds Q ses' search := by
  cases h with
  | intro live emit goOn =>
    exact .intro (fun ses'' g' => live ses'' (g.trans g'))
      (fun ses₁ ses₂ s rest g' => emit ses₁ ses₂ s rest (g.trans g'))
      (fun ses₁ ses₂ rest g' => goOn ses₁ ses₂ rest (g.trans g'))

theorem isEmpty_eq_false (h : Finds Q ses search) : search.isEmpty = false := by
  cases h with
  | intro live =>
    cases search with
    | empty => exact absurd rfl (live ses (.refl ses)).2
    | _ => rfl

theorem unit {s : Subst} (hs : ∀ ses', ses.Grows ses' → Q ses' s) : Finds Q ses (unit s) :=
  of_step fun ses' g => ⟨.refl ses', .inl (hs ses' g)⟩

theorem suspend {act : SessionM Search} (h : ComesTo Q ses act) : Finds Q ses (.suspend act) :=
  of_step h

theorem apply {goal : Goal} {s : Subst} (h : ComesTo Q ses (goal.apply s)) :
    Finds Q ses (.apply goal s) := of_step h

theorem ofBranches {before after : List Search} (h : Finds Q ses search)
    (hf : Finds Q ses (.fork (before ++ search :: after))) :
    Finds Q ses (ofBranches (before ++ search :: after)) := by
  match before, after with
  | [], [] => exact h
  | [], _ :: _ => exact hf
  | [_], [] => exact hf
  | [_], _ :: _ => exact hf
  | _ :: _ :: _, _ => exact hf

/-- A branch of a fork that finds an answer is not passed over: every step before its turn drops the
    first branch or puts it behind the others. -/
theorem fork {before after : List Search} (h : Finds Q ses search)
    (hb : ∀ b ∈ before, Safe ses b) (ha : ∀ b ∈ after, Safe ses b) :
    Finds Q ses (.fork (before ++ search :: after)) := by
  induction h generalizing before after with
  | @intro ses search live emit goOn ihEmit ihGoOn =>
    -- Until the branch has its turn, the session may grow.
    suffices ∀ ses', ses.Grows ses' → (∀ b ∈ before, Safe ses' b) → (∀ b ∈ after, Safe ses' b) →
        Finds Q ses' (.fork (before ++ search :: after)) from this ses (.refl ses) hb ha
    clear hb ha
    induction before generalizing after with
    | nil =>
      refine fun ses' g _ ha => of_step fun ses₁ g₁ => ?_
      have live := live ses₁ (g.trans g₁)
      have later := fun {ses₂} (g₂ : ses₁.Grows ses₂) b hb => (ha b hb).grows (g₁.trans g₂)
      have g := g.trans g₁
      rw [List.nil_append, step_fork_cons]
      match hs : search.step ses₁ with
      | (.emit s rest, ses₂) =>
        rw [hs] at live
        refine ⟨live.1, ?_⟩
        by_cases hq : Q ses₂ s
        · exact .inl hq
        · have found := emit ses₁ ses₂ s rest g hs hq
          refine .inr ?_
          rw [requeue, found.isEmpty_eq_false, if_neg Bool.false_ne_true]
          exact found.ofBranches (ihEmit ses₁ ses₂ s rest g hs hq (later live.1) nofun)
      | (.continue rest, ses₂) =>
        rw [hs] at live
        exact ⟨live.1, ihGoOn ses₁ ses₂ rest g hs (later live.1) nofun⟩
      | (.exhausted, ses₂) =>
        rw [hs] at live
        exact absurd rfl live.2
    | cons b before ih =>
      refine fun ses' g hb ha => of_step fun ses₁ g₁ => ?_
      rw [List.forall_mem_cons] at hb
      obtain ⟨g₂, meets⟩ := hb.1.step g₁
      have found := fun {ses₂} (g₂ : ses₁.Grows ses₂) =>
        (Finds.intro live emit goOn).grows ((g.trans g₁).trans g₂)
      have dropped : ∀ {ses₂}, ses₁.Grows ses₂ →
          Finds Q ses₂ (.fork (before ++ search :: after)) := fun {ses₂} g₂ =>
        ih ses₂ ((g.trans g₁).trans g₂) (fun b h => (hb.2 b h).grows (g₁.trans g₂))
          fun b h => (ha b h).grows (g₁.trans g₂)
      have behind : ∀ {ses₂ rest}, ses₁.Grows ses₂ → Safe ses₂ rest →
          Finds Q ses₂ (.fork (before ++ search :: after ++ [rest])) := by
        intro ses₂ rest g₂ safe
        rw [List.append_assoc, List.cons_append]
        refine ih ses₂ ((g.trans g₁).trans g₂) (fun b h => (hb.2 b h).grows (g₁.trans g₂)) ?_
        intro b h
        rcases List.mem_append.mp h with h | h
        · exact (ha b h).grows (g₁.trans g₂)
        · rwa [List.mem_singleton.mp h]
      rw [List.cons_append, step_fork_cons]
      match hs : b.step ses₁ with
      | (.emit s rest, ses₂) =>
        rw [hs] at g₂ meets
        refine ⟨g₂, .inr ?_⟩
        unfold requeue
        split
        · exact (found g₂).ofBranches (dropped g₂)
        · have behind := behind g₂ meets.2
          rw [List.append_assoc, List.cons_append] at behind ⊢
          exact (found g₂).ofBranches behind
      | (.continue rest, ses₂) =>
        rw [hs] at g₂ meets
        exact ⟨g₂, behind g₂ meets⟩
      | (.exhausted, ses₂) =>
        rw [hs] at g₂
        exact ⟨g₂, (found g₂).ofBranches (dropped g₂)⟩

theorem plus_left {other : Search} (h : Finds Q ses search) (ho : Safe ses other) :
    Finds Q ses (plus search other) := by
  have fork : Finds Q ses (.fork ([] ++ search :: [other])) :=
    h.fork nofun (List.forall_mem_singleton.mpr ho)
  unfold Search.plus
  split
  · exact absurd h.isEmpty_eq_false nofun
  · exact h
  · exact fork

theorem plus_right {other : Search} (h : Finds Q ses search) (ho : Safe ses other) :
    Finds Q ses (plus other search) := by
  have fork : Finds Q ses (.fork ([other] ++ search :: [])) :=
    h.fork (List.forall_mem_singleton.mpr ho) nofun
  unfold Search.plus
  split
  · exact h
  · exact absurd h.isEmpty_eq_false nofun
  · exact fork

/-- Answers of the inner search satisfy `R'`, and one of them also `R`. From the first kind the goal
    never goes astray, and from the second it comes to an answer. -/
theorem bind {inner : Search} {goal : Goal} (h : Finds R ses inner) (hm : Meets R' ses inner)
    (safe : ∀ ses' s, ses.Grows ses' → R' ses' s → Safe ses' (.apply goal s))
    (hg : ∀ ses' s, ses.Grows ses' → R' ses' s → R ses' s → Finds Q ses' (.apply goal s)) :
    Finds Q ses (.bind inner goal) := by
  induction h with
  | @intro ses inner live emit goOn ihEmit ihGoOn =>
    refine of_step fun ses' g => ?_
    have live := live ses' g
    have meets := (hm.step g).2
    have safe' : ∀ {ses₁}, ses'.Grows ses₁ → ∀ ses₂ s, ses₁.Grows ses₂ → R' ses₂ s →
        Safe ses₂ (.apply goal s) := fun g₁ ses₂ s g₂ => safe ses₂ s ((g.trans g₁).trans g₂)
    have hg' : ∀ {ses₁}, ses'.Grows ses₁ → ∀ ses₂ s, ses₁.Grows ses₂ → R' ses₂ s → R ses₂ s →
        Finds Q ses₂ (.apply goal s) := fun g₁ ses₂ s g₂ => hg ses₂ s ((g.trans g₁).trans g₂)
    rw [step_bind]
    match hs : inner.step ses' with
    | (.emit s rest, ses₁) =>
      rw [hs] at live meets
      refine ⟨live.1, ?_⟩
      show Finds Q ses₁ (feed s rest goal)
      unfold feed
      by_cases hr : R ses₁ s
      · have found := hg' live.1 ses₁ s (.refl ses₁) meets.1 hr
        split
        · exact found
        · exact found.plus_left fun n => (meets.2 n).bind fun ses₂ s g₂ hr =>
            safe' live.1 ses₂ s g₂ hr n
      · have found := emit ses' ses₁ s rest g hs hr
        rw [found.isEmpty_eq_false, if_neg Bool.false_ne_true]
        refine plus_right ?_ (safe' live.1 ses₁ s (.refl ses₁) meets.1)
        exact ihEmit ses' ses₁ s rest g hs hr meets.2 (safe' live.1) (hg' live.1)
    | (.continue rest, ses₁) =>
      rw [hs] at live meets
      exact ⟨live.1, ihGoOn ses' ses₁ rest g hs meets (safe' live.1) (hg' live.1)⟩
    | (.exhausted, ses₁) =>
      rw [hs] at live
      exact absurd rfl live.2

end Finds

theorem Answer.working {next : Search} {s : Subst} {ses₁ ses₂ : Session}
    (step : search.turn ses = (.working next, ses₁)) (h : Answer ses₁ next s ses₂) :
    Answer ses search s ses₂ := by
  have pulled : ∀ turns, pull Search.turn (turns + 1) search ses = pull Search.turn turns next ses₁ :=
    fun turns => by rw [pull_succ, step]
  cases h with
  | here h => exact .here ((pulled _).trans h)
  | later h answer => exact .later ((pulled _).trans h) answer

/-- A search that finds an answer gives it when it is pulled. -/
theorem Finds.exists_answer (h : Finds Q ses search) :
    ∃ s ses', Answer ses search s ses' ∧ Q ses' s := by
  induction h with
  | @intro ses search live emit goOn ihEmit ihGoOn =>
    have count := Session.count_grows Counters.countStep ses
    have live := live _ count
    have turn := turn_eq search ses
    match hs : search.step (Session.count Counters.countStep ses).2 with
    | (.emit s rest, ses₁) =>
      rw [hs] at turn
      have pulled : pull Search.turn 1 search ses = (.result s rest, ses₁) := by rw [pull_succ, turn]
      by_cases hq : Q ses₁ s
      · exact ⟨s, ses₁, .here pulled, hq⟩
      · obtain ⟨s', ses', answer, hq⟩ := ihEmit _ ses₁ s rest count hs hq
        exact ⟨s', ses', .later pulled answer, hq⟩
    | (.continue rest, ses₁) =>
      rw [hs] at turn
      obtain ⟨s', ses', answer, hq⟩ := ihGoOn _ ses₁ rest count hs
      exact ⟨s', ses', answer.working turn, hq⟩
    | (.exhausted, ses₁) =>
      rw [hs] at live
      exact absurd rfl live.2

end Search

end Regraft
