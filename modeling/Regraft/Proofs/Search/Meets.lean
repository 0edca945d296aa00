import Regraft.Proofs.Session.Grows
import Regraft.Search.Process
import Regraft.Search.Step

/-
  What all answers of a search satisfy. `Search.MeetsFor Q n` says that in the next `n` steps a
  search only gives answers that satisfy `Q`, whatever happens to the session between the steps as long
  as it only grows. There is a rule for every way to build a search; goals that unfold into themselves
  are dealt with by induction on the number of steps. Everything that all answers of a search satisfy
  holds of the answers that are pulled out of it, with as many turns and past as many other answers as it
  takes (`Search.Answer.meets`).
-/

namespace Regraft

/-- What a step of a search satisfies: its answer `Q`, and what is left of the search `K`. -/
def Step.Meets (Q : Session → Subst → Prop) (K : Session → Search → Prop) : Step × Session → Prop
  | (.emit s rest, ses) => Q ses s ∧ K ses rest
  | (.continue rest, ses) => K ses rest
  | (.exhausted, _) => True

theorem Step.Meets.imp {Q Q' : Session → Subst → Prop} {K K' : Session → Search → Prop}
    (hQ : ∀ ses s, Q ses s → Q' ses s) (hK : ∀ ses rest, K ses rest → K' ses rest)
    {r : Step × Session} (h : Step.Meets Q K r) : Step.Meets Q' K' r := by
  obtain ⟨step, ses⟩ := r
  cases step with
  | emit s rest => exact ⟨hQ ses s h.1, hK ses rest h.2⟩
  | «continue» rest => exact hK ses rest h
  | exhausted => trivial

namespace Search

/-- In the next steps all answers satisfy `Q`. -/
def MeetsFor (Q : Session → Subst → Prop) : Nat → Session → Search → Prop
  | 0, _, _ => True
  | n + 1, ses, search => ∀ ses', ses.Grows ses' → ses'.Grows (search.step ses').2 ∧
      Step.Meets Q (MeetsFor Q n) (search.step ses')

/-- An action sets up a search all of whose answers satisfy `Q`. -/
def SetsUp (Q : Session → Subst → Prop) (n : Nat) (ses : Session) (act : SessionM Search) : Prop :=
  ∀ ses', ses.Grows ses' → ses'.Grows (act ses').2 ∧ MeetsFor Q n (act ses').2 (act ses').1

variable {Q Q' R : Session → Subst → Prop} {n : Nat} {ses ses' : Session}

/-! ## Steps -/

theorem step_fork_cons (first : Search) (others : List Search) (ses : Session) :
    (Search.fork (first :: others)).step ses = match first.step ses with
      | (.emit s rest, ses) => (.emit s (requeue rest others), ses)
      | (.continue rest, ses) => (.continue (.fork (others ++ [rest])), ses)
      | (.exhausted, ses) => (.continue (ofBranches others), ses) := by
  rw [step]
  exact congrFun (stepFork.eq_2 first others) ses

theorem step_bind (inner : Search) (goal : Goal) (ses : Session) :
    (Search.bind inner goal).step ses = match inner.step ses with
      | (.emit s rest, ses) => (.continue (feed s rest goal), ses)
      | (.continue rest, ses) => (.continue (.bind rest goal), ses)
      | (.exhausted, ses) => (.exhausted, ses) := by
  exact congrFun (step.eq_4 inner goal) ses

/-! ## Rules -/

namespace MeetsFor

theorem imp (hQ : ∀ ses s, Q ses s → Q' ses s) {search : Search} (h : MeetsFor Q n ses search) :
    MeetsFor Q' n ses search := by
  induction n generalizing ses search with
  | zero => trivial
  | succ n ih =>
    intro ses' g
    exact ⟨(h ses' g).1, (h ses' g).2.imp hQ fun ses rest => ih⟩

theorem grows (g : ses.Grows ses') {search : Search} (h : MeetsFor Q n ses search) :
    MeetsFor Q n ses' search := by
  cases n with
  | zero => trivial
  | succ n => exact fun ses'' g' => h ses'' (g.trans g')

theorem pred {search : Search} (h : MeetsFor Q (n + 1) ses search) : MeetsFor Q n ses search := by
  induction n generalizing ses search with
  | zero => trivial
  | succ n ih =>
    intro ses' g
    exact ⟨(h ses' g).1, (h ses' g).2.imp (fun _ _ => id) fun ses rest => ih⟩

theorem empty : MeetsFor Q n ses .empty := by
  cases n with
  | zero => trivial
  | succ n => exact fun ses' g => ⟨.refl ses', trivial⟩

theorem emit {s : Subst} {rest : Search} (hs : ∀ ses', ses.Grows ses' → Q ses' s)
    (h : MeetsFor Q n ses rest) : MeetsFor Q n ses (.emit s rest) := by
  cases n with
  | zero => trivial
  | succ n => exact fun ses' g => ⟨.refl ses', hs ses' g, (h.grows g).pred⟩

theorem unit {s : Subst} (hs : ∀ ses', ses.Grows ses' → Q ses' s) :
    MeetsFor Q n ses (unit s) := emit hs empty

theorem suspend {act : SessionM Search} (h : SetsUp Q n ses act) :
    MeetsFor Q (n + 1) ses (.suspend act) := fun ses' g => h ses' g

theorem apply {goal : Goal} {s : Subst} (h : SetsUp Q n ses (goal.apply s)) :
    MeetsFor Q (n + 1) ses (.apply goal s) := fun ses' g => h ses' g

theorem ofBranches {branches : List Search} (hf : MeetsFor Q n ses (.fork branches))
    (h : ∀ b ∈ branches, MeetsFor Q n ses b) : MeetsFor Q n ses (ofBranches branches) := by
  match branches with
  | [] => exact empty
  | [b] => exact h b (List.mem_singleton_self b)
  | _ :: _ :: _ => exact hf

/-- All branches are good. A step runs the first one and puts the rest of it behind the others. -/
theorem fork {branches : List Search} (h : ∀ b ∈ branches, MeetsFor Q n ses b) :
    MeetsFor Q n ses (.fork branches) := by
  induction n generalizing ses branches with
  | zero => trivial
  | succ n ih =>
    intro ses' g
    cases branches with
    | nil => exact ⟨.refl ses', trivial⟩
    | cons first others =>
      rw [List.forall_mem_cons] at h
      obtain ⟨g', step⟩ := h.1 ses' g
      have later : ∀ {ses''}, ses'.Grows ses'' → ∀ b ∈ others, MeetsFor Q n ses'' b :=
        fun g' b hb => ((h.2 b hb).grows (g.trans g')).pred
      have append : ∀ {ses'' rest}, ses'.Grows ses'' → MeetsFor Q n ses'' rest →
          ∀ b ∈ others ++ [rest], MeetsFor Q n ses'' b := by
        intro ses'' rest g' hr b hb
        rcases List.mem_append.mp hb with hb | hb
        · exact later g' b hb
        · rwa [List.mem_singleton.mp hb]
      rw [step_fork_cons]
      match hstep : first.step ses' with
      | (.emit s rest, ses'') =>
        rw [hstep] at g' step
        refine ⟨g', step.1, ?_⟩
        unfold requeue
        split
        · exact ofBranches (ih (later g')) (later g')
        · exact ofBranches (ih (append g' step.2)) (append g' step.2)
      | (.continue rest, ses'') =>
        rw [hstep] at g' step
        exact ⟨g', ih (append g' step)⟩
      | (.exhausted, ses'') =>
        rw [hstep] at g'
        exact ⟨g', ofBranches (ih (later g')) (later g')⟩

theorem plus {a b : Search} (ha : MeetsFor Q n ses a) (hb : MeetsFor Q n ses b) :
    MeetsFor Q n ses (plus a b) := by
  have both : ∀ c ∈ [a, b], MeetsFor Q n ses c := by
    simp only [List.mem_cons, List.not_mem_nil, or_false, forall_eq_or_imp, forall_eq]
    exact ⟨ha, hb⟩
  unfold Search.plus
  split
  · exact hb
  · exact ha
  · exact fork both

theorem union {branches : List Search} (h : ∀ b ∈ branches, MeetsFor Q n ses b) :
    MeetsFor Q n ses (union branches) := by
  have kept : ∀ b ∈ branches.filter (!·.isEmpty), MeetsFor Q n ses b :=
    fun b hb => h b (List.mem_filter.mp hb).1
  exact ofBranches (fork kept) kept

/-- Every answer of the inner search goes on into the goal. -/
theorem bind {inner : Search} {goal : Goal} (hi : MeetsFor R n ses inner)
    (hg : ∀ ses' s, ses.Grows ses' → R ses' s → MeetsFor Q n ses' (.apply goal s)) :
    MeetsFor Q n ses (.bind inner goal) := by
  induction n generalizing ses inner with
  | zero => trivial
  | succ n ih =>
    intro ses' g
    obtain ⟨g', step⟩ := hi ses' g
    have goal' : ∀ {ses''}, ses'.Grows ses'' → ∀ ses''' s, ses''.Grows ses''' → R ses''' s →
        MeetsFor Q n ses''' (.apply goal s) :=
      fun g' ses''' s g'' hr => (hg ses''' s ((g.trans g').trans g'') hr).pred
    rw [step_bind]
    match hstep : inner.step ses' with
    | (.emit s rest, ses'') =>
      rw [hstep] at g' step
      refine ⟨g', ?_⟩
      show MeetsFor Q n ses'' (feed s rest goal)
      have fed := goal' g' ses'' s (.refl ses'') step.1
      unfold feed
      split
      · exact fed
      · exact plus fed (ih step.2 (goal' g'))
    | (.continue rest, ses'') =>
      rw [hstep] at g' step
      exact ⟨g', ih step (goal' g')⟩
    | (.exhausted, ses'') =>
      rw [hstep] at g'
      exact ⟨g', trivial⟩

end MeetsFor

end Search

/-! ## Answers -/

theorem pull_succ {σ α : Type} (turn : σ → SessionM (Turn σ α)) (turns : Nat) (p : σ)
    (ses : Session) : pull turn (turns + 1) p ses = match turn p ses with
      | (.working next, ses') => pull turn turns next ses'
      | (.yielded a next, ses') => (.result a next, ses')
      | (.finished, ses') => (.finished p, ses') := by
  rw [pull, SessionM.bind_apply]
  generalize turn p ses = r
  obtain ⟨t, ses'⟩ := r
  cases t <;> rfl

namespace Search

/-- An answer of a search that starts in a session, and the session in which it is pulled. -/
inductive Answer : Session → Search → Subst → Session → Prop
  | here {ses ses' : Session} {search rest : Search} {s : Subst} {turns : Nat}
      (pulled : pull Search.turn turns search ses = (.result s rest, ses')) :
      Answer ses search s ses'
  | later {ses ses' ses'' : Session} {search rest : Search} {s s' : Subst} {turns : Nat}
      (pulled : pull Search.turn turns search ses = (.result s' rest, ses'))
      (answer : Answer ses' rest s ses'') : Answer ses search s ses''

theorem turn_eq (search : Search) (ses : Session) :
    search.turn ses = match search.step (Session.count Counters.countStep ses).2 with
      | (.emit s rest, ses') => (.yielded s rest, ses')
      | (.continue rest, ses') => (.working rest, ses')
      | (.exhausted, ses') => (.finished, ses') := by
  rw [turn, SessionM.bind_apply, SessionM.bind_apply]
  generalize search.step (Session.count Counters.countStep ses).2 = r
  obtain ⟨step, ses'⟩ := r
  cases step <;> rfl

variable {Q : Session → Subst → Prop} {ses ses' : Session} {search rest : Search} {s : Subst}

theorem pull_meets {turns : Nat} (h : ∀ n, MeetsFor Q n ses search)
    (pulled : pull Search.turn turns search ses = (.result s rest, ses')) :
    ses.Grows ses' ∧ Q ses' s ∧ ∀ n, MeetsFor Q n ses' rest := by
  induction turns generalizing ses search with
  | zero => cases pulled
  | succ turns ih =>
    have count := Session.count_grows Counters.countStep ses
    have step := fun n => h (n + 1) _ count
    rw [pull_succ, turn_eq] at pulled
    match hstep : search.step (Session.count Counters.countStep ses).2 with
    | (.emit t next, ses₁) =>
      rw [hstep] at pulled step
      cases pulled
      exact ⟨count.trans (step 0).1, (step 0).2.1, fun n => (step n).2.2⟩
    | (.continue next, ses₁) =>
      rw [hstep] at pulled step
      obtain ⟨g, answer, later⟩ := ih (fun n => (step n).2) pulled
      exact ⟨(count.trans (step 0).1).trans g, answer, later⟩
    | (.exhausted, ses₁) =>
      rw [hstep] at pulled
      cases pulled

/-- What all answers satisfy, a pulled one satisfies. -/
theorem Answer.meets (h : ∀ n, MeetsFor Q n ses search) (answer : Answer ses search s ses') :
    ses.Grows ses' ∧ Q ses' s := by
  induction answer with
  | here pulled =>
    obtain ⟨g, hs, -⟩ := pull_meets h pulled
    exact ⟨g, hs⟩
  | later pulled _ ih =>
    obtain ⟨g, -, rest⟩ := pull_meets h pulled
    obtain ⟨g', hs⟩ := ih rest
    exact ⟨g.trans g', hs⟩

end Search

end Regraft
