import Regraft.Proofs.Search.Gives
import Regraft.Proofs.Search.Process

/-
  Searches that come to an end, of which not all answers are known. `Search.Halts L Q must ses search` says
  that a search ends, whatever happens to the session between its steps as long as it is of the kind `L`,
  that its answers satisfy `Q`, and that it has one if it `must`. `Search.Decides` adds that there
  is an answer just if a statement holds, where that is known and no variables are made. Forks end for
  the reason given for `Search.Gives`.
-/

namespace Regraft

/-- What a step comes to: an answer with a property, after which there need not be another one, or a search
    that has to have one if this has. -/
def Step.Halts (Q : Session → Subst → Prop) (K : Prop → Session → Search → Prop) (must : Prop) :
    Step × Session → Prop
  | (.emit s rest, ses) => Q ses s ∧ K False ses rest
  | (.continue rest, ses) => K must ses rest
  | (.exhausted, _) => ¬ must

namespace Search

/-- A search ends with answers that satisfy `Q`, at least one if it `must`. -/
inductive Halts (L : Session → Session → Prop) (Q : Session → Subst → Prop) :
    Prop → Session → Search → Prop
  | intro {must : Prop} {ses : Session} {search : Search}
      (goes : ∀ ses', L ses ses' → L ses' (search.step ses').2)
      (emit : ∀ ses' ses'' s rest, L ses ses' → search.step ses' = (.emit s rest, ses'') → Q ses'' s)
      (behind : ∀ ses' ses'' s rest, L ses ses' → search.step ses' = (.emit s rest, ses'') →
        Halts L Q False ses'' rest)
      (goOn : ∀ ses' ses'' rest, L ses ses' → search.step ses' = (.continue rest, ses'') →
        Halts L Q must ses'' rest)
      (done : ∀ ses' ses'', L ses ses' → search.step ses' = (.exhausted, ses'') → ¬ must) :
      Halts L Q must ses search

/-- An action sets up a search that ends. -/
def SetsUpHalting (L : Session → Session → Prop) (Q : Session → Subst → Prop) (must : Prop)
    (ses : Session) (act : SessionM Search) : Prop :=
  ∀ ses', L ses ses' → L ses' (act ses').2 ∧ Halts L Q must (act ses').2 (act ses').1

open Session (Course Keeps)

variable {L : Session → Session → Prop} {Q Q' : Session → Subst → Prop} {must must' known X Y : Prop}
  {ses ses' : Session} {search inner : Search} {goal : Goal} {s : Subst}

/-- A search goes over into another one in a step, from a session that it has come to. -/
def GoesOver (L : Session → Session → Prop) (y x : Session × Search) : Prop :=
  ∃ ses', L x.1 ses' ∧
    ((∃ s, x.2.step ses' = (.emit s y.2, y.1)) ∨ x.2.step ses' = (.continue y.2, y.1))

namespace Halts

theorem of_step (h : ∀ ses', L ses ses' → L ses' (search.step ses').2 ∧
    Step.Halts Q (Halts L Q) must (search.step ses')) : Halts L Q must ses search := by
  have step : ∀ ses' out, L ses ses' → search.step ses' = out → Step.Halts Q (Halts L Q) must out :=
    fun ses' _ k eq => eq ▸ (h ses' k).2
  exact .intro (fun ses' k => (h ses' k).1) (fun ses' _ _ _ k eq => (step ses' _ k eq).1)
    (fun ses' _ _ _ k eq => (step ses' _ k eq).2) (fun ses' _ _ k eq => step ses' _ k eq)
    fun ses' _ k eq => step ses' _ k eq

theorem step (h : Halts L Q must ses search) (k : L ses ses') :
    L ses' (search.step ses').2 ∧ Step.Halts Q (Halts L Q) must (search.step ses') := by
  obtain ⟨goes, emit, behind, goOn, done⟩ := h
  refine ⟨goes ses' k, ?_⟩
  match eq : search.step ses' with
  | (.emit s rest, ses'') => exact ⟨emit ses' ses'' s rest k eq, behind ses' ses'' s rest k eq⟩
  | (.continue rest, ses'') => exact goOn ses' ses'' rest k eq
  | (.exhausted, ses'') => exact done ses' ses'' k eq

/-- Answers may be said less of, and fewer may be required. -/
theorem imp (h : Halts L Q must ses search) (hQ : ∀ ses s, Q ses s → Q' ses s) (weak : must' → must) :
    Halts L Q' must' ses search := by
  induction h generalizing must' with
  | intro goes emit behind goOn done ihBehind ihGoOn =>
    exact .intro goes (fun ses' ses'' s rest k eq => hQ _ _ (emit ses' ses'' s rest k eq))
      (fun ses' ses'' s rest k eq => ihBehind ses' ses'' s rest k eq id)
      (fun ses' ses'' rest k eq => ihGoOn ses' ses'' rest k eq weak)
      fun ses' ses'' k eq must => done ses' ses'' k eq (weak must)

theorem suspend {act : SessionM Search} (h : SetsUpHalting L Q must ses act) :
    Halts L Q must ses (.suspend act) := of_step h

theorem apply (h : SetsUpHalting L Q must ses (goal.apply s)) : Halts L Q must ses (.apply goal s) :=
  of_step h

theorem ends (h : Halts L Q must ses search) : Acc (GoesOver L) (ses, search) := by
  induction h with
  | intro goes emit behind goOn done ihBehind ihGoOn =>
    refine .intro _ fun y ⟨ses', k, step⟩ => ?_
    rcases step with ⟨s, eq⟩ | eq
    · exact ihBehind ses' y.1 s y.2 k eq
    · exact ihGoOn ses' y.1 y.2 k eq

variable [Course L]

theorem later (h : Halts L Q must ses search) (k : L ses ses') : Halts L Q must ses' search :=
  of_step fun _ k' => h.step (Course.trans k k')

theorem empty (none : ¬ must) : Halts L Q must ses .empty :=
  of_step fun ses' _ => ⟨Course.refl ses', none⟩

theorem unit (hs : ∀ ses', L ses ses' → Q ses' s) : Halts L Q must ses (unit s) :=
  of_step fun ses' k => ⟨Course.refl ses', hs ses' k, .empty id⟩

/-- A search that is empty need not have an answer. -/
theorem not_must (h : Halts L Q must ses search) (none : search.isEmpty = true) : ¬ must := by
  cases search with
  | empty => exact (h.step (Course.refl ses)).2
  | _ => cases none

/-! ## Forks -/

/-- Some branch must have an answer. -/
abbrev SomeMust (branches : List (Search × Prop)) : Prop := ∃ b ∈ branches, b.2

theorem ofBranches {branches : List (Search × Prop)}
    (hf : Halts L Q (SomeMust branches) ses (.fork (branches.map Prod.fst)))
    (h : ∀ b ∈ branches, Halts L Q b.2 ses b.1) :
    Halts L Q (SomeMust branches) ses (ofBranches (branches.map Prod.fst)) := by
  match branches with
  | [] => exact empty fun ⟨_, hb, _⟩ => absurd hb List.not_mem_nil
  | [b] =>
    refine (h b (List.mem_singleton_self b)).imp (fun _ _ => id) ?_
    rintro ⟨c, hc, must⟩
    exact List.mem_singleton.mp hc ▸ must
  | _ :: _ :: _ => exact hf

/-- Branches that are taken in turn all end, and there is an answer if one of them must have one. -/
theorem fork {branches : List (Search × Prop)} (h : ∀ b ∈ branches, Halts L Q b.2 ses b.1) :
    Halts L Q (∃ b ∈ branches, b.2) ses (.fork (branches.map Prod.fst)) := by
  refine fork_induction (G := fun ses x must => Halts L Q must ses x) (L := L) (R := GoesOver L)
    (P := fun ses bs => Halts L Q (SomeMust bs) ses (.fork (bs.map Prod.fst))) later ends
    (fun k ⟨ses', k', step⟩ => ⟨ses', Course.trans k k', step⟩) ?nil ?cons h
  case nil =>
    exact fun ses => of_step fun ses' _ =>
      ⟨Course.refl ses', fun ⟨_, hb, _⟩ => absurd hb List.not_mem_nil⟩
  case cons =>
    intro ses b rest first others alone behind
    have alone {ses'} (k : L ses ses') :
        Halts L Q (SomeMust rest) ses' (Search.ofBranches (rest.map Prod.fst)) :=
      ofBranches (alone ses' k) fun c hc => (others c hc).later k
    refine of_step fun ses' k => ?_
    obtain ⟨goes, halts⟩ := first.step k
    rw [List.map_cons, step_fork_cons]
    match hs : b.1.step ses' with
    | (.exhausted, ses'') =>
      rw [hs] at goes halts
      refine ⟨goes, (alone (Course.trans k goes)).imp (fun _ _ => id) ?_⟩
      rintro ⟨c, hc, must⟩
      rcases List.mem_cons.mp hc with rfl | hc
      · exact absurd must halts
      · exact ⟨c, hc, must⟩
    | (.continue next, ses'') =>
      rw [hs] at goes halts
      have last := behind ses'' next b.2 (Course.trans k goes) ⟨ses', k, .inr hs⟩ halts
      rw [List.map_append] at last
      refine ⟨goes, last.imp (fun _ _ => id) ?_⟩
      rintro ⟨c, hc, must⟩
      rcases List.mem_cons.mp hc with rfl | hc
      · exact ⟨_, List.mem_append_right rest (List.mem_singleton_self _), must⟩
      · exact ⟨c, List.mem_append_left _ hc, must⟩
    | (.emit s next, ses'') =>
      rw [hs] at goes halts
      obtain ⟨answer, later⟩ := halts
      have k' := Course.trans k goes
      refine ⟨goes, answer, ?_⟩
      unfold requeue
      split
      · exact (alone k').imp (fun _ _ => id) False.elim
      · have each : ∀ c ∈ rest ++ [(next, False)], Halts L Q c.2 ses'' c.1 :=
          List.forall_mem_append.mpr
            ⟨fun c hc => (others c hc).later k', List.forall_mem_singleton.mpr later⟩
        have last := ofBranches (behind ses'' next False k' ⟨ses', k, .inl ⟨s, hs⟩⟩ later) each
        rw [List.map_append] at last
        exact last.imp (fun _ _ => id) False.elim

theorem plus {a b : Search} (ha : Halts L Q must ses a) (hb : Halts L Q must' ses b) :
    Halts L Q (must ∨ must') ses (plus a b) := by
  have both : Halts L Q (must ∨ must') ses (.fork [a, b]) := by
    have each : ∀ c ∈ [(a, must), (b, must')], Halts L Q c.2 ses c.1 := by
      simp only [List.mem_cons, List.not_mem_nil, or_false, forall_eq_or_imp, forall_eq]
      exact ⟨ha, hb⟩
    refine (fork each).imp (fun _ _ => id) ?_
    rintro (h | h)
    · exact ⟨_, .head _, h⟩
    · exact ⟨_, .tail _ (.head _), h⟩
  unfold Search.plus
  split
  · exact hb.imp (fun _ _ => id) (Or.resolve_left · (ha.not_must rfl))
  · exact ha.imp (fun _ _ => id) (Or.resolve_right · (hb.not_must rfl))
  · exact both

/-- All branches, those that are empty left out. -/
theorem union {branches : List Search} (h : ∀ b ∈ branches, Halts L Q False ses b) :
    Halts L Q False ses (union branches) := by
  unfold Search.union
  have kept : ∀ b ∈ branches.filter (!·.isEmpty), Halts L Q False ses b :=
    fun b hb => h b (List.mem_filter.mp hb).1
  generalize branches.filter (!·.isEmpty) = branches at kept
  have marked : ∀ b ∈ branches.map fun b => (b, False), Halts L Q b.2 ses b.1 :=
    List.forall_mem_map.mpr kept
  have forked : Halts L Q False ses (.fork ((branches.map fun b => (b, False)).map Prod.fst)) :=
    (fork marked).imp (fun _ _ => id) False.elim
  rw [List.map_map, show Prod.fst ∘ (fun b : Search => (b, False)) = id from rfl, List.map_id] at forked
  match branches with
  | [] => exact empty id
  | [b] => exact kept b (List.mem_singleton_self b)
  | _ :: _ :: _ => exact forked

/-- What all answers of a search satisfy they satisfy until it ends. -/
theorem and_meets (h : Halts L Q must ses search) (meets : ∀ n, MeetsFor Q' n ses search) :
    Halts L (fun ses s => Q ses s ∧ Q' ses s) must ses search := by
  induction h with
  | @intro must ses search goes emit behind goOn done ihBehind ihGoOn =>
    have step : ∀ ses' out, L ses ses' → search.step ses' = out → ∀ n,
        Step.Meets Q' (MeetsFor Q' n) out :=
      fun ses' out k eq n => eq ▸ (meets (n + 1) ses' (Course.grows k)).2
    refine .intro goes (fun ses' ses'' s rest k eq => ?_) (fun ses' ses'' s rest k eq => ?_)
      (fun ses' ses'' rest k eq => ?_) done
    · exact ⟨emit ses' ses'' s rest k eq, (step ses' _ k eq 0).1⟩
    · exact ihBehind ses' ses'' s rest k eq fun n => (step ses' _ k eq n).2
    · exact ihGoOn ses' ses'' rest k eq fun n => step ses' _ k eq n

/-- Every answer goes on into a goal that ends with it. -/
theorem bind (h : Halts L Q must ses inner)
    (hg : ∀ ses' s, L ses ses' → Q ses' s → Halts L Q' must' ses' (.apply goal s)) :
    Halts L Q' (must ∧ must') ses (.bind inner goal) := by
  induction h with
  | @intro must ses inner goes emit behind goOn done ihBehind ihGoOn =>
    refine of_step fun ses' k => ?_
    have goes := goes ses' k
    rw [step_bind]
    match hs : inner.step ses' with
    | (.exhausted, ses'') =>
      rw [hs] at goes
      exact ⟨goes, fun both => done ses' ses'' k hs both.1⟩
    | (.continue rest, ses'') =>
      rw [hs] at goes
      refine ⟨goes, ihGoOn ses' ses'' rest k hs fun ses₁ s k₁ => ?_⟩
      exact hg ses₁ s (Course.trans (Course.trans k goes) k₁)
    | (.emit s rest, ses'') =>
      rw [hs] at goes
      have fed := hg ses'' s (Course.trans k goes) (emit ses' ses'' s rest k hs)
      have later := ihBehind ses' ses'' s rest k hs fun ses₁ s k₁ =>
        hg ses₁ s (Course.trans (Course.trans k goes) k₁)
      refine ⟨goes, ?_⟩
      show Halts L Q' (must ∧ must') ses'' (feed s rest goal)
      unfold feed
      split
      · exact fed.imp (fun _ _ => id) And.right
      · exact (fed.plus later).imp (fun _ _ => id) fun both => .inl both.2

/-- A search ends behind another one that need not have answers. -/
theorem bind_ends (h : Halts L Q False ses inner)
    (hg : ∀ ses' s, L ses ses' → Q ses' s → Halts L Q' False ses' (.apply goal s)) :
    Halts L Q' False ses (.bind inner goal) := (h.bind hg).imp (fun _ _ => id) False.elim

/-! ## Pulling answers -/

/-- All answers can be pulled out, and there are finitely many. -/
theorem drains (h : Halts L Q must ses search) : ∃ as, Process.Drains Search.turn ses search as := by
  suffices ∃ as ses' last, Process.Runs Search.turn ses search as ses' last ∧
      Process.Ends Search.turn ses' last by
    obtain ⟨as, ses', last, run, ends⟩ := this
    exact ⟨as, run.drains ends⟩
  induction h with
  | @intro must ses search goes emit behind goOn done ihBehind ihGoOn =>
    have count : L ses _ := Course.of_keeps (Session.count_keeps Counters.countStep ses)
    have turn := turn_eq search ses
    match hs : search.step (Session.count Counters.countStep ses).2 with
    | (.emit s rest, ses') =>
      rw [hs] at turn
      obtain ⟨as, ses'', last, run, ends⟩ := ihBehind _ ses' s rest count hs
      exact ⟨s :: as, ses'', last, .yielded turn run, ends⟩
    | (.continue rest, ses') =>
      rw [hs] at turn
      obtain ⟨as, ses'', last, run, ends⟩ := ihGoOn _ ses' rest count hs
      exact ⟨as, ses'', last, .working turn run, ends⟩
    | (.exhausted, ses') =>
      rw [hs] at turn
      exact ⟨[], ses, search, .refl, .of_finished turn⟩

/-- An answer that there must be can be pulled out. -/
theorem exists_answer (h : Halts L Q must ses search) (must : must) :
    ∃ s ses', Answer ses search s ses' := by
  induction h with
  | @intro must ses search goes emit behind goOn done ihBehind ihGoOn =>
    have count : L ses _ := Course.of_keeps (Session.count_keeps Counters.countStep ses)
    have turn := turn_eq search ses
    match hs : search.step (Session.count Counters.countStep ses).2 with
    | (.emit s rest, ses') =>
      rw [hs] at turn
      have pulled : pull Search.turn 1 search ses = (.result s rest, ses') := by
        rw [pull_succ, turn]
      exact ⟨s, ses', .here pulled⟩
    | (.continue rest, ses') =>
      rw [hs] at turn
      obtain ⟨s, ses'', answer⟩ := ihGoOn _ ses' rest count hs ‹_›
      exact ⟨s, ses'', answer.working turn⟩
    | (.exhausted, ses') => exact absurd ‹_› (done _ ses' count hs)

theorem pull {turns : Nat} {rest : Search} (h : Halts L Q must ses search)
    (pulled : pull Search.turn turns search ses = (.result s rest, ses')) :
    Q ses' s ∧ Halts L Q False ses' rest := by
  induction turns generalizing ses search with
  | zero => cases pulled
  | succ turns ih =>
    obtain ⟨-, step⟩ := h.step (Course.of_keeps (Session.count_keeps Counters.countStep ses))
    rw [pull_succ, turn_eq] at pulled
    match hs : search.step (Session.count Counters.countStep ses).2 with
    | (.emit t next, ses₁) =>
      rw [hs] at pulled step
      cases pulled
      exact step
    | (.continue next, ses₁) =>
      rw [hs] at pulled step
      exact ih step pulled
    | (.exhausted, ses₁) =>
      rw [hs] at pulled
      cases pulled

/-- An answer that is pulled out satisfies what all of them do. -/
theorem answer (h : Halts L Q must ses search) (answer : Answer ses search s ses') : Q ses' s := by
  induction answer generalizing must with
  | here pulled => exact (h.pull pulled).1
  | later pulled _ ih => exact ih (h.pull pulled).2

end Halts

/-! ## Searches whose outcomes are known -/

/-- A search without new variables whose outcomes are known comes to an end, also in sessions that make
    some meanwhile. -/
theorem Gives.halts {O : Type} {I : Session → Subst → O → Prop} {A : Set O}
    (h : Gives True I ses search A) :
    Halts Session.Later (fun ses s => ∃ o ∈ A, I ses s o) False ses search := by
  have tidy := Store.tidyUnless_true
  have room := Store.roomyUnless_true
  induction h with
  | @intro ses search A B goes emit behind goOn done ihBehind ihGoOn =>
    refine .intro (fun ses' l => (goes ses' l (tidy _)).later) (fun ses' ses'' s rest l eq => ?_)
      (fun ses' ses'' s rest l eq => ?_) (fun ses' ses'' rest l eq => ?_) fun _ _ _ _ => id
    · obtain ⟨o, rfl, answer⟩ := emit ses' ses'' s rest l (tidy _) (room _) eq
      exact ⟨o, Set.mem_insert o _, answer⟩
    · obtain ⟨o, rfl, -⟩ := emit ses' ses'' s rest l (tidy _) (room _) eq
      refine (ihBehind ses' ses'' s rest l (tidy _) (room _) eq).imp ?_ id
      exact fun _ _ ⟨o, mem, answer⟩ => ⟨o, Set.mem_insert_of_mem _ mem, answer⟩
    · exact ihGoOn ses' ses'' rest l (tidy _) (room _) eq

/-! ## Searches that decide a statement -/

/-- A search ends with answers that satisfy `Q`; where that is known, there is one just if `X` holds. -/
def Decides (known X : Prop) (Q : Session → Subst → Prop) (ses : Session) (search : Search) : Prop :=
  Halts Keeps (fun ses s => Q ses s ∧ (known → X)) (known ∧ X) ses search

/-- An action sets up a search that decides a statement. -/
def SetsUpDeciding (known X : Prop) (Q : Session → Subst → Prop) (ses : Session)
    (act : SessionM Search) : Prop :=
  SetsUpHalting Keeps (fun ses s => Q ses s ∧ (known → X)) (known ∧ X) ses act

namespace Decides

theorem keeps (h : Decides known X Q ses search) (k : ses.Keeps ses') : Decides known X Q ses' search :=
  Halts.later h k

theorem imp (h : Decides known X Q ses search) (hQ : ∀ ses s, Q ses s → Q' ses s)
    (same : known → (X ↔ Y)) : Decides known Y Q' ses search :=
  Halts.imp h (fun ses s both => ⟨hQ ses s both.1, fun h => (same h).mp (both.2 h)⟩)
    fun both => ⟨both.1, (same both.1).mpr both.2⟩

theorem congr (h : Decides known X Q ses search) (same : known → (X ↔ Y)) : Decides known Y Q ses search :=
  h.imp (fun _ _ => id) same

theorem empty (none : known → ¬ X) : Decides known X Q ses .empty :=
  Halts.empty fun both => none both.1 both.2

theorem unit (hs : ∀ ses', ses.Keeps ses' → Q ses' s) (holds : known → X) :
    Decides known X Q ses (unit s) :=
  Halts.unit fun ses' k => ⟨hs ses' k, holds⟩

theorem suspend {act : SessionM Search} (h : SetsUpDeciding known X Q ses act) :
    Decides known X Q ses (.suspend act) := Halts.suspend h

theorem apply (h : SetsUpDeciding known X Q ses (goal.apply s)) :
    Decides known X Q ses (.apply goal s) := Halts.apply h

theorem plus {a b : Search} (ha : Decides known X Q ses a) (hb : Decides known Y Q ses b) :
    Decides known (X ∨ Y) Q ses (plus a b) := by
  have first : Halts Keeps (fun ses s => Q ses s ∧ (known → X ∨ Y)) (known ∧ X) ses a :=
    Halts.imp ha (fun _ _ both => ⟨both.1, fun h => .inl (both.2 h)⟩) id
  have second : Halts Keeps (fun ses s => Q ses s ∧ (known → X ∨ Y)) (known ∧ Y) ses b :=
    Halts.imp hb (fun _ _ both => ⟨both.1, fun h => .inr (both.2 h)⟩) id
  exact (first.plus second).imp (fun _ _ => id) fun ⟨h, either⟩ => either.imp (⟨h, ·⟩) (⟨h, ·⟩)

/-- One statement and then another one, about what the answers leave. -/
theorem bind (h : Decides known X Q ses inner)
    (hg : ∀ ses' s, ses.Keeps ses' → Q ses' s → Decides known Y Q' ses' (.apply goal s)) :
    Decides known (X ∧ Y) Q' ses (.bind inner goal) := by
  have out : ∀ ses' s, ses.Keeps ses' → Q ses' s ∧ (known → X) →
      Halts Keeps (fun ses s => Q' ses s ∧ (known → X ∧ Y)) (known ∧ Y) ses' (.apply goal s) := by
    intro ses' s k both
    exact Halts.imp (hg ses' s k both.1)
      (fun _ _ later => ⟨later.1, fun h => ⟨both.2 h, later.2 h⟩⟩) id
  exact (Halts.bind h out).imp (fun _ _ => id) fun ⟨h, x, y⟩ => ⟨⟨h, x⟩, h, y⟩

/-- An answer can be pulled out just if the statement holds. -/
theorem exists_answer_iff (h : Decides known X Q ses search) (hk : known) :
    (∃ s ses', Answer ses search s ses') ↔ X :=
  ⟨fun ⟨_, _, answer⟩ => (Halts.answer h answer).2 hk, fun holds => Halts.exists_answer h ⟨hk, holds⟩⟩

end Decides

end Search

end Regraft
