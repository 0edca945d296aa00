import Regraft.Proofs.Search.Meets

/-
  Processes over many turns. `Runs` counts turns, `Pulls` counts results: one results are pulled from is
  run just as far as the last result. Processes are deterministic, so that of two runs one goes on where
  the other has stopped (`Runs.total`).
-/

namespace Regraft.Process

variable {σ α : Type} {turn : σ → SessionM (Turn σ α)} {ses ses' ses'' : Session} {p q r : σ}
  {as bs : List α}

/-- Some turns of a process take it from one session and state to another, with results on the way. -/
inductive Runs (turn : σ → SessionM (Turn σ α)) : Session → σ → List α → Session → σ → Prop
  | refl {ses : Session} {p : σ} : Runs turn ses p [] ses p
  | working {ses ses' ses'' : Session} {p q r : σ} {as : List α}
      (here : turn p ses = (.working q, ses')) (later : Runs turn ses' q as ses'' r) :
      Runs turn ses p as ses'' r
  | yielded {ses ses' ses'' : Session} {p q r : σ} {a : α} {as : List α}
      (here : turn p ses = (.yielded a q, ses')) (later : Runs turn ses' q as ses'' r) :
      Runs turn ses p (a :: as) ses'' r

/-- Results are pulled from a process one after the other. -/
inductive Pulls (turn : σ → SessionM (Turn σ α)) : Session → σ → List α → Session → σ → Prop
  | nil {ses : Session} {p : σ} : Pulls turn ses p [] ses p
  | cons {turns : Nat} {ses ses' ses'' : Session} {p q r : σ} {a : α} {as : List α}
      (here : pull turn turns p ses = (.result a q, ses')) (later : Pulls turn ses' q as ses'' r) :
      Pulls turn ses p (a :: as) ses'' r

/-- Pulling at a process shows that it has no more results. -/
def Ends (turn : σ → SessionM (Turn σ α)) (ses : Session) (p : σ) : Prop :=
  ∃ turns last ses', pull turn turns p ses = (.finished last, ses')

/-- The results are all that can be pulled from a process, which then ends. -/
def Drains (turn : σ → SessionM (Turn σ α)) (ses : Session) (p : σ) (as : List α) : Prop :=
  ∃ ses' q, Pulls turn ses p as ses' q ∧ Ends turn ses' q

/-- A process comes to its end in some session, with just these results on the way. -/
def Finishes (turn : σ → SessionM (Turn σ α)) (ses : Session) (p : σ) (as : List α) (ses' : Session) :
    Prop :=
  ∃ q, Runs turn ses p as ses' q ∧ turn q ses' = (.finished, ses')

/-! ## Runs -/

namespace Runs

theorem trans (h : Runs turn ses p as ses' q) (h' : Runs turn ses' q bs ses'' r) :
    Runs turn ses p (as ++ bs) ses'' r := by
  induction h with
  | refl => exact h'
  | working here _ ih => exact .working here (ih h')
  | yielded here _ ih => exact .yielded here (ih h')

/-- Of two runs one goes on where the other has stopped. -/
theorem total {ses₁ ses₂ : Session} {p₁ p₂ : σ} {as₁ as₂ : List α}
    (h₁ : Runs turn ses p as₁ ses₁ p₁) (h₂ : Runs turn ses p as₂ ses₂ p₂) :
    (∃ bs, as₂ = as₁ ++ bs ∧ Runs turn ses₁ p₁ bs ses₂ p₂) ∨
      ∃ bs, as₁ = as₂ ++ bs ∧ Runs turn ses₂ p₂ bs ses₁ p₁ := by
  induction h₁ generalizing as₂ with
  | refl => exact .inl ⟨as₂, rfl, h₂⟩
  | working here later ih =>
    cases h₂ with
    | refl => exact .inr ⟨_, rfl, .working here later⟩
    | working here' later' =>
      cases here.symm.trans here'
      exact ih later'
    | yielded here' _ => cases here.symm.trans here'
  | yielded here later ih =>
    cases h₂ with
    | refl => exact .inr ⟨_, rfl, .yielded here later⟩
    | working here' _ => cases here.symm.trans here'
    | yielded here' later' =>
      cases here.symm.trans here'
      obtain ⟨bs, rfl, run⟩ | ⟨bs, rfl, run⟩ := ih later'
      · exact .inl ⟨bs, rfl, run⟩
      · exact .inr ⟨bs, rfl, run⟩

end Runs

/-! ## A number of turns -/

/-- The process after some turns; at its end it stays as it is. -/
def after (turn : σ → SessionM (Turn σ α)) : Nat → σ → SessionM σ
  | 0, p => return p
  | turns + 1, p => do
    match ← turn p with
    | .working next => after turn turns next
    | .yielded _ next => after turn turns next
    | .finished => return p

theorem after_succ (turns : Nat) (p : σ) (ses : Session) :
    after turn (turns + 1) p ses = match turn p ses with
      | (.working next, ses') => after turn turns next ses'
      | (.yielded _ next, ses') => after turn turns next ses'
      | (.finished, ses') => (p, ses') := by
  rw [after, SessionM.bind_apply]
  generalize turn p ses = r
  obtain ⟨out, ses'⟩ := r
  cases out <;> rfl

/-- A run leads to what comes after some turns. -/
theorem Runs.exists_after (h : Runs turn ses p as ses' q) :
    ∃ turns, ∀ more, after turn (turns + more) p ses = after turn more q ses' := by
  induction h with
  | refl => exact ⟨0, fun more => by rw [Nat.zero_add]⟩
  | working here _ ih | yielded here _ ih =>
    obtain ⟨turns, eq⟩ := ih
    refine ⟨turns + 1, fun more => ?_⟩
    rw [Nat.add_right_comm, after_succ, here]
    exact eq more

/-- A process that is at its end after some turns stays there. -/
theorem after_of_finished {turns : Nat} (h : after turn turns p ses = (q, ses'))
    (finished : turn q ses' = (.finished, ses')) (more : Nat) :
    after turn (turns + more) p ses = (q, ses') := by
  induction turns generalizing p ses with
  | zero =>
    cases h
    cases more with
    | zero => rw [Nat.add_zero]; rfl
    | succ more => rw [Nat.zero_add, after_succ, finished]
  | succ turns ih =>
    rw [Nat.add_right_comm]
    rw [after_succ] at h ⊢
    generalize turn p ses = r at h ⊢
    obtain ⟨out, ses₁⟩ := r
    cases out with
    | working next => exact ih h
    | yielded a next => exact ih h
    | finished => exact h

/-! ## Pulling along a run -/

theorem runs_of_pull {turns : Nat} {a : α} (h : pull turn turns p ses = (.result a q, ses')) :
    Runs turn ses p [a] ses' q := by
  induction turns generalizing ses p with
  | zero => cases h
  | succ turns ih =>
    rw [pull_succ] at h
    generalize here : turn p ses = t at h
    obtain ⟨t, ses₁⟩ := t
    cases t with
    | working next => exact .working here (ih h)
    | yielded b next =>
      cases h
      exact .yielded here .refl
    | finished => cases h

theorem Pulls.runs (h : Pulls turn ses p as ses' q) : Runs turn ses p as ses' q := by
  induction h with
  | nil => exact .refl
  | cons here _ ih => exact (runs_of_pull here).trans ih

theorem pull_working {turns : Nat} (here : turn p ses = (.working q, ses')) :
    pull turn (turns + 1) p ses = pull turn turns q ses' := by
  rw [pull_succ, here]

/-- All results of a run can be pulled. The run stops at the last one or goes on from there. -/
theorem Runs.pulls (h : Runs turn ses p as ses' q) :
    ∃ ses₁ q₁, Pulls turn ses p as ses₁ q₁ ∧ Runs turn ses₁ q₁ [] ses' q := by
  induction h with
  | refl => exact ⟨_, _, .nil, .refl⟩
  | working here later ih =>
    obtain ⟨ses₁, q₁, pulls, run⟩ := ih
    cases pulls with
    | nil => exact ⟨_, _, .nil, .working here run⟩
    | cons pulled rest => exact ⟨ses₁, q₁, .cons ((pull_working here).trans pulled) rest, run⟩
  | @yielded ses ses' ses'' p q r a as here later ih =>
    obtain ⟨ses₁, q₁, pulls, run⟩ := ih
    have pulled : pull turn 1 p ses = (.result a q, ses') := by rw [pull_succ, here]
    exact ⟨ses₁, q₁, .cons pulled pulls, run⟩

theorem Ends.of_finished (here : turn p ses = (.finished, ses')) : Ends turn ses p :=
  ⟨1, p, ses', by rw [pull_succ, here]⟩

/-- A process that ends has no results. -/
theorem Ends.eq_nil (ends : Ends turn ses p) (h : Runs turn ses p as ses' q) : as = [] := by
  obtain ⟨turns, last, ses₁, finished⟩ := ends
  induction h generalizing turns with
  | refl => rfl
  | working here _ ih => cases turns with
    | zero => cases finished
    | succ turns => exact ih turns ((pull_working here).symm.trans finished)
  | yielded here _ _ => cases turns with
    | zero => cases finished
    | succ turns =>
      rw [pull_succ, here] at finished
      cases finished

/-- A process that comes to its end without a result ends. -/
theorem Ends.of_runs (h : Runs turn ses p [] ses' q) (ends : Ends turn ses' q) : Ends turn ses p := by
  generalize none : ([] : List α) = as at h
  induction h with
  | refl => exact ends
  | working here _ ih =>
    obtain ⟨turns, last, ses₁, pulled⟩ := ih ends none
    exact ⟨turns + 1, last, ses₁, (pull_working here).trans pulled⟩
  | yielded => cases none

/-- A run to the end drains the process. -/
theorem Runs.drains (h : Runs turn ses p as ses' q) (ends : Ends turn ses' q) :
    Drains turn ses p as := by
  obtain ⟨ses₁, q₁, pulls, run⟩ := h.pulls
  exact ⟨ses₁, q₁, pulls, ends.of_runs run⟩

end Regraft.Process

namespace Regraft

/-! ## Looking for an answer -/

/-- A result has been pulled. -/
def Pulled.isResult {σ α : Type} : Pulled σ α → Bool
  | .result _ _ => true
  | .finished _ => false
  | .outOfTurns _ => false

/-- It has turned out that there are no more results. -/
def Pulled.isFinished {σ α : Type} : Pulled σ α → Bool
  | .result _ _ => false
  | .finished _ => true
  | .outOfTurns _ => false

namespace Search

variable {ses : Session} {search : Search} {turns : Nat}

theorem exists_answer_of_isResult (h : (pull Search.turn turns search ses).1.isResult = true) :
    ∃ s ses', Answer ses search s ses' := by
  rcases pulled : pull Search.turn turns search ses with ⟨⟨s, rest⟩ | _ | _, ses'⟩ <;> rw [pulled] at h
  · exact ⟨s, ses', .here pulled⟩
  · cases h
  · cases h

theorem not_exists_answer_of_isFinished (h : (pull Search.turn turns search ses).1.isFinished = true) :
    ¬ ∃ s ses', Answer ses search s ses' := by
  have ends : Process.Ends Search.turn ses search := by
    rcases pulled : pull Search.turn turns search ses with ⟨_ | last | _, ses'⟩ <;> rw [pulled] at h
    · cases h
    · exact ⟨turns, last, ses', pulled⟩
    · cases h
  rintro ⟨s, ses', here | later⟩
  · cases ends.eq_nil (Process.runs_of_pull here)
  · cases ends.eq_nil (Process.runs_of_pull later)

end Search

end Regraft
