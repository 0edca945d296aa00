import Mathlib.Algebra.GroupWithZero.Nat
import Mathlib.Data.List.Forall2
import Regraft.Proofs.Search.Derivation

/-
  No branch of a search waits for ever, and no branch is worked on for ever where there is no end to
  the others. Every derived answer comes (`Derivation.comes`), and a search whose unfolding is finite is
  exhausted after finitely many steps (`IsFinite.exhausts`). Here every step is taken in one session.
-/

namespace Regraft.Search

variable {ses : Session} {search inner rest b : Search} {bs pre post : List Search} {goal : Goal}
  {a c : Subst}

/-- Steps of a search come to an answer. -/
inductive Comes (ses : Session) (a : Subst) : Search → Prop
  | now {search rest : Search} (here : (search.step ses).1 = .emit a rest) : Comes ses a search
  | behind {search rest : Search} {c : Subst} (here : (search.step ses).1 = .emit c rest)
      (later : Comes ses a rest) : Comes ses a search
  | onward {search rest : Search} (here : (search.step ses).1 = .continue rest)
      (later : Comes ses a rest) : Comes ses a search

namespace Comes

theorem isEmpty_eq_false (h : Comes ses a search) : search.isEmpty = false := by
  cases search with
  | empty => cases h with
    | now here => cases here
    | behind here => cases here
    | onward here => cases here
  | _ => rfl

/-- What comes in any fork around a branch comes in any list of branches with it. -/
theorem ofBranches (h : Comes ses a b) (forked : Comes ses a (.fork (pre ++ b :: post))) :
    Comes ses a (ofBranches (pre ++ b :: post)) := by
  cases pre with
  | nil => cases post with
    | nil => exact h
    | cons => exact forked
  | cons x pre => cases pre <;> exact forked

/-- Branches before one come first, each for a step. -/
theorem fork_of_front (h : Comes ses a b) (front : ∀ post, Comes ses a (.fork (b :: post))) :
    Comes ses a (.fork (pre ++ b :: post)) := by
  induction pre generalizing post with
  | nil => exact front post
  | cons x pre ih =>
    have step := step_fork_eq x (pre ++ b :: post) ses
    cases out : (x.step ses).1 with
    | emit c rest =>
      rw [out] at step
      refine .behind (congrArg Prod.fst step) ?_
      unfold requeue
      split
      · exact h.ofBranches ih
      · rw [List.append_assoc, List.cons_append]
        exact h.ofBranches ih
    | «continue» rest =>
      rw [out] at step
      refine .onward (congrArg Prod.fst step) ?_
      rw [List.append_assoc, List.cons_append]
      exact ih
    | exhausted =>
      rw [out] at step
      exact .onward (congrArg Prod.fst step) (h.ofBranches ih)

/-- An answer of a branch comes, whatever the other branches do. -/
theorem fork (h : Comes ses a b) (pre post : List Search) :
    Comes ses a (.fork (pre ++ b :: post)) := by
  induction h generalizing pre post with
  | @now b rest here =>
    refine fork_of_front (.now here) fun post => ?_
    have step := step_fork_eq b post ses
    rw [here] at step
    exact .now (congrArg Prod.fst step)
  | @behind b rest c here later ih =>
    refine fork_of_front (.behind here later) fun post => ?_
    have step := step_fork_eq b post ses
    rw [here] at step
    refine .behind (congrArg Prod.fst step) ?_
    rw [requeue, later.isEmpty_eq_false, if_neg Bool.false_ne_true]
    exact later.ofBranches (ih post [])
  | @onward b rest here later ih =>
    refine fork_of_front (.onward here later) fun post => ?_
    have step := step_fork_eq b post ses
    rw [here] at step
    exact .onward (congrArg Prod.fst step) (ih post [])

/-- An answer of a goal for some answer of a search comes where the answers go on into the goal. -/
theorem bind (h : Comes ses c inner) (out : Comes ses a (.apply goal c)) :
    Comes ses a (.bind inner goal) := by
  induction h with
  | @now inner rest here =>
    have step := step_bind_eq inner goal ses
    rw [here] at step
    refine .onward (congrArg Prod.fst step) ?_
    unfold feed
    split
    · exact out
    · exact out.fork [] [.bind rest goal]
  | @behind inner rest d here later ih =>
    have step := step_bind_eq inner goal ses
    rw [here] at step
    refine .onward (congrArg Prod.fst step) ?_
    rw [feed, later.isEmpty_eq_false, if_neg Bool.false_ne_true]
    exact ih.fork [.apply goal d] []
  | @onward inner rest here later ih =>
    have step := step_bind_eq inner goal ses
    rw [here] at step
    exact .onward (congrArg Prod.fst step) ih

end Comes

/-- Every derived answer comes. -/
theorem Derivation.comes (d : Derivation ses search a) : Comes ses a search := by
  -- a derivation in some branches is one in a fork of them, of which only a single branch is known to come
  have both : Comes ses a search ∧ ∀ bs, search = .fork bs → ∃ b ∈ bs, Comes ses a b := by
    induction d with
    | here => exact ⟨.now rfl, nofun⟩
    | later _ _ ih => exact ⟨.behind rfl ih.1, nofun⟩
    | @first b bs a _ ih =>
      refine ⟨ih.1.fork [] bs, ?_⟩
      rintro _ ⟨⟩
      exact ⟨b, .head _, ih.1⟩
    | @others b bs a _ ih =>
      obtain ⟨c, mem, comes⟩ := ih.2 bs rfl
      have mem := List.mem_cons_of_mem b mem
      obtain ⟨pre, post, eq⟩ := List.append_of_mem mem
      refine ⟨eq ▸ comes.fork pre post, ?_⟩
      rintro _ ⟨⟩
      exact ⟨c, mem, comes⟩
    | bind _ _ ihd ihe => exact ⟨ihd.1.bind ihe.1, nofun⟩
    | apply _ ih => exact ⟨.onward rfl ih.1, nofun⟩
    | suspend _ ih => exact ⟨.onward rfl ih.1, nofun⟩
  exact both.1

/-! ## Searches that come to an end -/

/-- The unfolding of a search is finite. -/
inductive IsFinite (ses : Session) : Search → Prop
  | empty : IsFinite ses .empty
  | emit {a : Subst} {rest : Search} (later : IsFinite ses rest) : IsFinite ses (.emit a rest)
  | fork {bs : List Search} (each : ∀ b ∈ bs, IsFinite ses b) : IsFinite ses (.fork bs)
  | bind {inner : Search} {goal : Goal} (first : IsFinite ses inner)
      (goOn : ∀ c, Nonempty (Derivation ses inner c) → IsFinite ses (.apply goal c)) :
      IsFinite ses (.bind inner goal)
  | apply {goal : Goal} {s : Subst} (unfolded : IsFinite ses (goal.apply s ses).1) :
      IsFinite ses (.apply goal s)
  | suspend {setUp : Session → Search × Session} (unfolded : IsFinite ses (setUp ses).1) :
      IsFinite ses (.suspend setUp)

/-- A search is exhausted within some steps. -/
inductive Exhausts (ses : Session) : Nat → Search → Prop
  | now {n : Nat} {search : Search} (here : (search.step ses).1 = .exhausted) :
      Exhausts ses (n + 1) search
  | emit {n : Nat} {search rest : Search} {c : Subst} (here : (search.step ses).1 = .emit c rest)
      (later : Exhausts ses n rest) : Exhausts ses (n + 1) search
  | onward {n : Nat} {search rest : Search} (here : (search.step ses).1 = .continue rest)
      (later : Exhausts ses n rest) : Exhausts ses (n + 1) search

namespace Exhausts

variable {n m : Nat} {ns : List Nat}

theorem mono (h : Exhausts ses n search) (le : n ≤ m) : Exhausts ses m search := by
  induction h generalizing m with
  | now here =>
    obtain ⟨m, rfl⟩ := Nat.exists_eq_add_one.mpr (Nat.lt_of_lt_of_le (Nat.succ_pos _) le)
    exact .now here
  | emit here _ ih =>
    obtain ⟨m, rfl⟩ := Nat.exists_eq_add_one.mpr (Nat.lt_of_lt_of_le (Nat.succ_pos _) le)
    exact .emit here (ih (Nat.le_of_succ_le_succ le))
  | onward here _ ih =>
    obtain ⟨m, rfl⟩ := Nat.exists_eq_add_one.mpr (Nat.lt_of_lt_of_le (Nat.succ_pos _) le)
    exact .onward here (ih (Nat.le_of_succ_le_succ le))

/-- Branches take all their steps, and one more shows that there are no branches left. -/
theorem fork (each : List.Forall₂ (Exhausts ses) ns bs) :
    Exhausts ses (ns.sum + 1) (.fork bs) ∧ Exhausts ses (ns.sum + 1) (ofBranches bs) := by
  generalize total : ns.sum = n
  induction n using Nat.strongRecOn generalizing ns bs with
  | ind n ih => cases each with
    | nil => exact ⟨.now rfl, .now rfl⟩
    | @cons k b ns bs first each =>
      rw [List.sum_cons] at total
      have forked : Exhausts ses (n + 1) (.fork (b :: bs)) := by
        have step := step_fork_eq b bs ses
        have behind {k' : Nat} {rest : Search} (lt : k' < k) (later : Exhausts ses k' rest) :=
          ih (ns.sum + k') (by omega) (List.rel_append each (.cons later .nil))
            (by rw [List.sum_append, List.sum_singleton])
        have alone (pos : 0 < k) := (ih ns.sum (by omega) each rfl).2.mono (m := n) (by omega)
        cases first with
        | now here =>
          rw [here] at step
          exact .onward (congrArg Prod.fst step) (alone (Nat.succ_pos _))
        | @emit k' _ rest c here later =>
          rw [here] at step
          refine .emit (congrArg Prod.fst step) ?_
          unfold requeue
          split
          · exact alone (Nat.succ_pos _)
          · exact (behind (Nat.lt_succ_self _) later).2.mono (by omega)
        | @onward k' _ rest here later =>
          rw [here] at step
          exact .onward (congrArg Prod.fst step) ((behind (Nat.lt_succ_self _) later).1.mono (by omega))
      refine ⟨forked, ?_⟩
      cases bs with
      | nil => exact first.mono (by omega)
      | cons => exact forked

/-- The goals that answers go on into are exhausted one beside the other. -/
theorem bind (h : Exhausts ses n inner)
    (goOn : ∀ c, Nonempty (Derivation ses inner c) → ∃ m, Exhausts ses m (.apply goal c)) :
    ∃ m, Exhausts ses m (.bind inner goal) := by
  induction h with
  | @now n inner here =>
    have step := step_bind_eq inner goal ses
    rw [here] at step
    exact ⟨1, .now (congrArg Prod.fst step)⟩
  | @emit n inner rest c here _ ih =>
    have step := step_bind_eq inner goal ses
    rw [here] at step
    have split := fun a => Derivation.step_conserves ses a inner
    rw [here] at split
    obtain ⟨m, first⟩ := goOn c ⟨(split c).some.symm (.inl ⟨rfl⟩)⟩
    obtain ⟨k, others⟩ := ih fun a ⟨d⟩ => goOn a ⟨(split a).some.symm (.inr d)⟩
    have both := (fork (.cons first (.cons others .nil))).1
    have fed : ∃ l, Exhausts ses l (feed c rest goal) := by
      unfold feed
      split
      · exact ⟨m, first⟩
      · exact ⟨_, both⟩
    obtain ⟨l, fed⟩ := fed
    exact ⟨l + 1, .onward (congrArg Prod.fst step) fed⟩
  | @onward n inner rest here _ ih =>
    have step := step_bind_eq inner goal ses
    rw [here] at step
    have split := fun a => Derivation.step_conserves ses a inner
    rw [here] at split
    obtain ⟨m, later⟩ := ih fun a ⟨d⟩ => goOn a ⟨(split a).some.symm d⟩
    exact ⟨m + 1, .onward (congrArg Prod.fst step) later⟩

end Exhausts

/-- A search whose unfolding is finite is exhausted. -/
theorem IsFinite.exhausts (h : IsFinite ses search) : ∃ n, Exhausts ses n search := by
  induction h with
  | empty => exact ⟨1, .now rfl⟩
  | emit _ ih =>
    obtain ⟨n, later⟩ := ih
    exact ⟨n + 1, .emit rfl later⟩
  | @fork bs finite ih =>
    have each : ∃ ns, List.Forall₂ (Exhausts ses) ns bs := by
      clear finite
      induction bs with
      | nil => exact ⟨[], .nil⟩
      | cons b bs all =>
        rw [List.forall_mem_cons] at ih
        obtain ⟨n, first⟩ := ih.1
        obtain ⟨ns, others⟩ := all ih.2
        exact ⟨n :: ns, .cons first others⟩
    obtain ⟨ns, each⟩ := each
    exact ⟨_, (Exhausts.fork each).1⟩
  | bind _ _ first goOn =>
    obtain ⟨n, first⟩ := first
    exact first.bind goOn
  | apply _ ih =>
    obtain ⟨n, later⟩ := ih
    exact ⟨n + 1, .onward rfl later⟩
  | suspend _ ih =>
    obtain ⟨n, later⟩ := ih
    exact ⟨n + 1, .onward rfl later⟩

end Regraft.Search
