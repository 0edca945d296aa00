import Mathlib.Data.Set.Card
import Mathlib.Logic.Denumerable
import Regraft.Proofs.Search.Fair
import Regraft.Proofs.Search.Process

/-
  Pulling answers from a search whose goals do not depend on the session gives every derivation of an
  answer once, however the branches are nested and whether or not they come to an end: derivations
  correspond to positions in the sequence of pulled answers (`Steady.exists_index`).
-/

namespace Regraft.Search

open Process (Runs Pulls Drains)

variable {I : Session → Prop} {base ses ses' : Session} {search inner rest b : Search}
  {bs cs : List Search} {goal : Goal} {a c s : Subst} {act : Session → Search × Session}

/-! ## Searches that do not depend on the session -/

/-- An action that sets up a part of a search, at once or when other parts have been set up, in sessions
    of some kind. -/
inductive SetUp (I : Session → Prop) : Search → (Session → Search × Session) → Prop
  | emit {act : Session → Search × Session} {a : Subst} {rest : Search} (h : SetUp I rest act) :
      SetUp I (.emit a rest) act
  | fork {act : Session → Search × Session} {b : Search} {bs : List Search} (mem : b ∈ bs)
      (h : SetUp I b act) : SetUp I (.fork bs) act
  | inner {act : Session → Search × Session} {inner : Search} {goal : Goal} (h : SetUp I inner act) :
      SetUp I (.bind inner goal) act
  | goal {act : Session → Search × Session} {inner : Search} {goal : Goal} {s : Subst}
      (h : SetUp I (.apply goal s) act) : SetUp I (.bind inner goal) act
  | apply {goal : Goal} {s : Subst} : SetUp I (.apply goal s) (goal.apply s)
  | applied {act : Session → Search × Session} {goal : Goal} {s : Subst} {ses : Session} (here : I ses)
      (h : SetUp I (goal.apply s ses).1 act) : SetUp I (.apply goal s) act
  | suspend {setUp : Session → Search × Session} : SetUp I (.suspend setUp) setUp
  | resumed {act setUp : Session → Search × Session} {ses : Session} (here : I ses)
      (h : SetUp I (setUp ses).1 act) : SetUp I (.suspend setUp) act

/-- All goals and parts of a search that are still to be set up are the same in all sessions of some
    kind, which setting them up does not leave. -/
def Steady (I : Session → Prop) (search : Search) : Prop :=
  ∀ act, SetUp I search act → ∀ ses ses', I ses → I ses' → (act ses).1 = (act ses').1 ∧ I (act ses).2

namespace SetUp

theorem of_ofBranches (h : SetUp I (ofBranches bs) act) : SetUp I (.fork bs) act := by
  unfold ofBranches at h
  split at h
  · cases h
  · exact .fork (.head _) h
  · exact h

theorem of_requeue (h : SetUp I (requeue rest bs) act) : SetUp I rest act ∨ SetUp I (.fork bs) act := by
  unfold requeue at h
  have forked := h.of_ofBranches
  split at forked
  · exact .inr forked
  · cases forked with
    | fork mem h =>
      rcases List.mem_append.mp mem with mem | mem
      · exact .inr (.fork mem h)
      · rw [List.mem_singleton.mp mem] at h
        exact .inl h

theorem of_feed (h : SetUp I (feed c rest goal) act) :
    SetUp I (.apply goal c) act ∨ SetUp I (.bind rest goal) act := by
  unfold feed at h
  split at h
  · exact .inl h
  · cases h with
    | fork mem h =>
      rcases List.mem_cons.mp mem with rfl | mem
      · exact .inl h
      · rw [List.mem_singleton.mp mem] at h
        exact .inr h

end SetUp

/-! ## Steps in other sessions -/

/-- What a step leaves is set up by nothing else than before, the step is the same in all sessions of the
    kind, and it does not leave the kind. -/
structure Agrees (I : Session → Prop) (ses ses' : Session) (search : Search) : Prop where
  same : (search.step ses).1 = (search.step ses').1
  stays : I (search.step ses).2
  emit : ∀ a rest, (search.step ses).1 = .emit a rest → ∀ act, SetUp I rest act → SetUp I search act
  onward : ∀ rest, (search.step ses).1 = .continue rest → ∀ act, SetUp I rest act → SetUp I search act

theorem Agrees.fork (first : Agrees I ses ses' b) : Agrees I ses ses' (.fork (b :: bs)) := by
  have step := step_fork_eq b bs
  refine ⟨?_, ?_, fun a rest out act h => ?_, fun rest out act h => ?_⟩
  · rw [step, step, first.same]
  · rw [step]
    exact first.stays
  · rw [step] at out
    cases here : (b.step ses).1 with
    | emit c later =>
      rw [here] at out
      cases out
      rcases h.of_requeue with h | h
      · exact .fork (.head _) (first.emit _ _ here act h)
      · cases h with
        | fork mem h => exact .fork (.tail _ mem) h
    | «continue» later =>
      rw [here] at out
      cases out
    | exhausted =>
      rw [here] at out
      cases out
  · rw [step] at out
    cases here : (b.step ses).1 with
    | emit c later =>
      rw [here] at out
      cases out
    | «continue» later =>
      rw [here] at out
      cases out
      cases h with
      | fork mem h =>
        rcases List.mem_append.mp mem with mem | mem
        · exact .fork (.tail _ mem) h
        · rw [List.mem_singleton.mp mem] at h
          exact .fork (.head _) (first.onward _ here act h)
    | exhausted =>
      rw [here] at out
      cases out
      cases h.of_ofBranches with
      | fork mem h => exact .fork (.tail _ mem) h

theorem Agrees.bind (first : Agrees I ses ses' inner) : Agrees I ses ses' (.bind inner goal) := by
  have step := step_bind_eq inner goal
  refine ⟨?_, ?_, fun a rest out act h => ?_, fun rest out act h => ?_⟩
  · rw [step, step, first.same]
  · rw [step]
    exact first.stays
  · rw [step] at out
    cases here : (inner.step ses).1 with
    | _ =>
      rw [here] at out
      cases out
  · rw [step] at out
    cases here : (inner.step ses).1 with
    | emit c later =>
      rw [here] at out
      cases out
      rcases h.of_feed with h | h
      · exact .goal h
      · cases h with
        | inner h => exact .inner (first.emit _ _ here act h)
        | goal h => exact .goal h
    | «continue» later =>
      rw [here] at out
      cases out
      cases h with
      | inner h => exact .inner (first.onward _ here act h)
      | goal h => exact .goal h
    | exhausted =>
      rw [here] at out
      cases out

mutual

/-- A step of a steady search is the same in all sessions of the kind. -/
theorem Steady.agrees (here : I ses) (here' : I ses') : (search : Search) → Steady I search →
    Agrees I ses ses' search
  | .empty, _ => ⟨rfl, here, nofun, nofun⟩
  | .emit _ _, _ => ⟨rfl, here, fun | _, _, rfl, _, h => .emit h, nofun⟩
  | .fork branches, steady => Steady.agrees_fork here here' branches steady
  | .bind inner _, steady =>
    .bind (Steady.agrees here here' inner fun act h => steady act (.inner h))
  | .apply _ _, steady =>
    have same := steady _ .apply ses ses' here here'
    ⟨congrArg Step.continue same.1, same.2, nofun, fun | _, rfl, _, h => .applied here h⟩
  | .suspend _, steady =>
    have same := steady _ .suspend ses ses' here here'
    ⟨congrArg Step.continue same.1, same.2, nofun, fun | _, rfl, _, h => .resumed here h⟩

theorem Steady.agrees_fork (here : I ses) (here' : I ses') : (branches : List Search) →
    Steady I (.fork branches) → Agrees I ses ses' (.fork branches)
  | [], _ => ⟨rfl, here, nofun, nofun⟩
  | b :: _, steady =>
    .fork (Steady.agrees here here' b fun act h => steady act (.fork (.head _) h))

end

/-! ## Turns -/

/-- A turn that takes a step. -/
def toTurn : Step → Turn Search Subst
  | .emit a rest => .yielded a rest
  | .continue rest => .working rest
  | .exhausted => .finished

/-- Sessions of the kind that the first one is of, which counting a step does not leave. -/
structure Kind (I : Session → Prop) (ses : Session) : Prop where
  here : I ses
  count : ∀ ses, I ses → I (Session.count Counters.countStep ses).2

/-- A turn of a steady search does what a step does in any session of the kind. -/
theorem Steady.turn (steady : Steady I search) (kind : Kind I base) (here : I ses) :
    ∃ ses', I ses' ∧ search.turn ses = (toTurn (search.step base).1, ses') := by
  have agrees := Steady.agrees (kind.count ses here) kind.here search steady
  refine ⟨_, agrees.stays, ?_⟩
  rw [turn_eq, ← agrees.same]
  generalize search.step (Session.count Counters.countStep ses).2 = r
  obtain ⟨out, ses'⟩ := r
  cases out <;> rfl

theorem Steady.emit (steady : Steady I search) (here : I base)
    (out : (search.step base).1 = .emit a rest) : Steady I rest :=
  fun act h => steady act ((Steady.agrees here here search steady).emit _ _ out act h)

theorem Steady.onward (steady : Steady I search) (here : I base)
    (out : (search.step base).1 = .continue rest) : Steady I rest :=
  fun act h => steady act ((Steady.agrees here here search steady).onward _ out act h)

/-! ## Derivations along runs -/

/-- The positions of an answer in a list. -/
def At (as : List Subst) (a : Subst) : Type := { k : Nat // as[k]? = some a }

/-- An answer in front is at position zero, and the others are one further on. -/
def atCons (c : Subst) (as : List Subst) (a : Subst) : At (c :: as) a ≃ PLift (c = a) ⊕ At as a where
  toFun
    | ⟨0, h⟩ => .inl ⟨Option.some.inj h⟩
    | ⟨k + 1, h⟩ => .inr ⟨k, h⟩
  invFun
    | .inl ⟨h⟩ => ⟨0, congrArg some h⟩
    | .inr ⟨k, h⟩ => ⟨k + 1, h⟩
  left_inv := by rintro ⟨_ | k, h⟩ <;> rfl
  right_inv := by rintro (⟨h⟩ | ⟨k, h⟩) <;> rfl

instance : IsEmpty (At [] a) := ⟨nofun⟩

/-- A run gives out some derivations, one for each answer, and leaves the others. -/
structure Conserves (I : Session → Prop) (base : Session) (search : Search) (as : List Subst)
    (ses' : Session) (rest : Search) : Prop where
  here : I ses'
  steady : Steady I rest
  derivations : ∀ a, Nonempty (Derivation base search a ≃ At as a ⊕ Derivation base rest a)

theorem conserves_of_runs {as : List Subst} (kind : Kind I base) (here : I ses)
    (steady : Steady I search) (run : Runs Search.turn ses search as ses' rest) :
    Conserves I base search as ses' rest := by
  induction run with
  | refl => exact ⟨here, steady, fun a => ⟨(Equiv.emptySum ..).symm⟩⟩
  | @working ses ses₁ ses₂ search next rest as turned _ ih =>
    obtain ⟨ses', stays, turn⟩ := steady.turn kind here
    have split := fun a => Derivation.step_conserves base a search
    rw [turned] at turn
    cases out : (search.step base).1 with
    | «continue» q =>
      rw [out] at turn split
      cases turn
      obtain ⟨here, steady, later⟩ := ih stays (steady.onward kind.here out)
      exact ⟨here, steady, fun a => ⟨(split a).some.trans (later a).some⟩⟩
    | _ =>
      rw [out] at turn
      cases turn
  | @yielded ses ses₁ ses₂ search next rest c as turned _ ih =>
    obtain ⟨ses', stays, turn⟩ := steady.turn kind here
    have split := fun a => Derivation.step_conserves base a search
    rw [turned] at turn
    cases out : (search.step base).1 with
    | emit d q =>
      rw [out] at turn split
      cases turn
      obtain ⟨here, steady, later⟩ := ih stays (steady.emit kind.here out)
      exact ⟨here, steady, fun a => ⟨(split a).some.trans (((Equiv.refl _).sumCongr (later a).some).trans
        ((Equiv.sumAssoc ..).symm.trans ((atCons ..).symm.sumCongr (.refl _))))⟩⟩
    | _ =>
      rw [out] at turn
      cases turn

/-- An answer that comes is given out by some run. -/
theorem Comes.exists_runs (comes : Comes base a search) (kind : Kind I base) (here : I ses)
    (steady : Steady I search) :
    ∃ as ses' rest, Runs Search.turn ses search (as ++ [a]) ses' rest := by
  induction comes generalizing ses with
  | now out =>
    obtain ⟨ses', -, turn⟩ := steady.turn kind here
    rw [out] at turn
    exact ⟨[], _, _, .yielded turn .refl⟩
  | behind out _ ih =>
    obtain ⟨ses', stays, turn⟩ := steady.turn kind here
    rw [out] at turn
    obtain ⟨as, ses'', rest, run⟩ := ih stays (steady.emit kind.here out)
    exact ⟨_ :: as, ses'', rest, .yielded turn run⟩
  | onward out _ ih =>
    obtain ⟨ses', stays, turn⟩ := steady.turn kind here
    rw [out] at turn
    obtain ⟨as, ses'', rest, run⟩ := ih stays (steady.onward kind.here out)
    exact ⟨as, ses'', rest, .working turn run⟩

/-- A search that is exhausted runs to its end. -/
theorem Exhausts.exists_runs {n : Nat} (exhausts : Exhausts base n search) (kind : Kind I base)
    (here : I ses) (steady : Steady I search) :
    ∃ as ses' rest, Runs Search.turn ses search as ses' rest ∧ Process.Ends Search.turn ses' rest := by
  induction exhausts generalizing ses with
  | now out =>
    obtain ⟨ses', -, turn⟩ := steady.turn kind here
    rw [out] at turn
    exact ⟨[], _, _, .refl, .of_finished turn⟩
  | emit out _ ih =>
    obtain ⟨ses', stays, turn⟩ := steady.turn kind here
    rw [out] at turn
    obtain ⟨as, ses'', rest, run, ends⟩ := ih stays (steady.emit kind.here out)
    exact ⟨_ :: as, ses'', rest, .yielded turn run, ends⟩
  | onward out _ ih =>
    obtain ⟨ses', stays, turn⟩ := steady.turn kind here
    rw [out] at turn
    obtain ⟨as, ses'', rest, run, ends⟩ := ih stays (steady.onward kind.here out)
    exact ⟨as, ses'', rest, .working turn run, ends⟩

/-! ## Positions of answers -/

/-- The answer that is pulled from a search after `k` others. -/
def Emitted (ses : Session) (search : Search) (k : Nat) (a : Subst) : Prop :=
  ∃ as ses' rest, Pulls Search.turn ses search as ses' rest ∧ as[k]? = some a

theorem emitted_iff {k : Nat} : Emitted ses search k a ↔
    ∃ as ses' rest, Runs Search.turn ses search as ses' rest ∧ as[k]? = some a := by
  constructor
  · rintro ⟨as, ses', rest, pulls, here⟩
    exact ⟨as, ses', rest, pulls.runs, here⟩
  · rintro ⟨as, ses', rest, run, here⟩
    obtain ⟨ses₁, q, pulls, -⟩ := run.pulls
    exact ⟨as, ses₁, q, pulls, here⟩

theorem getElem?_append_of_some {as bs : List Subst} {k : Nat} (h : as[k]? = some a) :
    (as ++ bs)[k]? = some a := by
  rw [List.getElem?_append_left (List.getElem?_eq_some_iff.mp h).1, h]

theorem Emitted.unique {k : Nat} (h : Emitted ses search k a) (h' : Emitted ses search k c) : a = c := by
  obtain ⟨as, _, _, run, found⟩ := emitted_iff.mp h
  obtain ⟨bs, _, _, run', found'⟩ := emitted_iff.mp h'
  obtain ⟨cs, rfl, -⟩ | ⟨cs, rfl, -⟩ := run.total run'
  · exact Option.some.inj ((getElem?_append_of_some found).symm.trans found')
  · exact Option.some.inj (found.symm.trans (getElem?_append_of_some found'))

/-- Finitely many answers are given out by one run. -/
theorem exists_runs_of_emitted (S : Finset Nat) (h : ∀ k ∈ S, Emitted ses search k a) :
    ∃ as ses' rest, Runs Search.turn ses search as ses' rest ∧ ∀ k ∈ S, as[k]? = some a := by
  induction S using Finset.induction with
  | empty => exact ⟨[], ses, search, .refl, nofun⟩
  | insert k S _ ih =>
    rw [Finset.forall_mem_insert] at h
    obtain ⟨as, ses₁, q, run, all⟩ := ih h.2
    obtain ⟨bs, ses₂, q', run', here⟩ := emitted_iff.mp h.1
    obtain ⟨cs, rfl, -⟩ | ⟨cs, rfl, -⟩ := run.total run'
    · exact ⟨_, ses₂, q', run', Finset.forall_mem_insert .. |>.mpr
        ⟨here, fun k hk => getElem?_append_of_some (all k hk)⟩⟩
    · exact ⟨_, ses₁, q, run, Finset.forall_mem_insert .. |>.mpr
        ⟨getElem?_append_of_some here, all⟩⟩

/-- There are as many derivations of an answer as positions at which it is given out. -/
theorem Steady.derivations_equiv (steady : Steady I search) (kind : Kind I ses) (a : Subst) :
    Nonempty (Derivation ses search a ≃ { k // Emitted ses search k a }) := by
  rcases Set.finite_or_infinite {k | Emitted ses search k a} with finite | infinite
  · -- a run that has given out the answer for the last time leaves no derivation of it
    obtain ⟨as, ses₁, rest, run, all⟩ := exists_runs_of_emitted finite.toFinset fun k hk =>
      finite.mem_toFinset.mp hk
    obtain ⟨here, left, derivations⟩ := conserves_of_runs kind kind.here steady run
    obtain ⟨split⟩ := derivations a
    have none : IsEmpty (Derivation ses rest a) := by
      refine ⟨fun d => ?_⟩
      obtain ⟨bs, ses₂, q, run'⟩ := d.comes.exists_runs kind here left
      have last : (as ++ (bs ++ [a]))[as.length + bs.length]? = some a := by simp
      have again := all _ (finite.mem_toFinset.mpr (emitted_iff.mpr ⟨_, _, _, run.trans run', last⟩))
      have := (List.getElem?_eq_some_iff.mp again).1
      omega
    have same (k : Nat) : as[k]? = some a ↔ Emitted ses search k a :=
      ⟨fun found => emitted_iff.mpr ⟨as, ses₁, rest, run, found⟩,
        fun h => all k (finite.mem_toFinset.mpr h)⟩
    exact ⟨split.trans ((Equiv.sumEmpty ..).trans (Equiv.subtypeEquivRight same))⟩
  · -- any number of positions has a run behind it, and with it that many derivations
    have many : Infinite (Derivation ses search a) := by
      refine ⟨fun _ => ?_⟩
      obtain ⟨S, sub, card⟩ := infinite.exists_subset_card_eq (Nat.card (Derivation ses search a) + 1)
      obtain ⟨as, ses₁, rest, run, all⟩ := exists_runs_of_emitted S fun k hk => sub hk
      obtain ⟨split⟩ := (conserves_of_runs kind kind.here steady run).derivations a
      let derived (k : S) : Derivation ses search a := split.symm (.inl ⟨k, all k k.2⟩)
      have inj : Function.Injective derived := by
        intro j k eq
        have eq := Sum.inl.inj (split.symm.injective eq)
        exact Subtype.ext (congrArg (fun at_ : At as a => at_.1) eq)
      have le := Nat.card_le_card_of_injective derived inj
      rw [Nat.card_eq_fintype_card, Fintype.card_coe, card] at le
      omega
    have : Infinite { k // Emitted ses search k a } := infinite.to_subtype
    obtain ⟨left⟩ := nonempty_denumerable (Derivation ses search a)
    obtain ⟨right⟩ := nonempty_denumerable { k // Emitted ses search k a }
    exact ⟨(Denumerable.eqv _).trans (Denumerable.eqv _).symm⟩

/-- Numbers that tell when the answer of a derivation is pulled from a search. -/
structure Indexing (ses : Session) (search : Search)
    (index : (a : Subst) × Derivation ses search a → Nat) : Prop where
  /-- No two derivations share an answer that is pulled. -/
  injective : Function.Injective index
  /-- Just the derived answers are pulled. -/
  emitted : ∀ k a, Emitted ses search k a ↔ ∃ d, index ⟨a, d⟩ = k
  /-- Finitely many derivations have all been given out after some number of steps. -/
  gathered : ∀ a, ∀ ds : Finset (Derivation ses search a), ∃ as ses' rest,
    Runs Search.turn ses search as ses' rest ∧ ∀ d ∈ ds, as[index ⟨a, d⟩]? = some a
  /-- A search whose unfolding is finite ends when there are no more derivations. -/
  drained : IsFinite ses search → ∃ as, Drains Search.turn ses search as ∧
    ∀ k, (∃ d, index d = k) ↔ k < as.length

/-- Every derivation of an answer of a steady search is pulled just once, whatever its other branches do. -/
theorem Steady.exists_index (steady : Steady I search) (kind : Kind I ses) :
    ∃ index, Indexing ses search index := by
  have equiv (a : Subst) := (steady.derivations_equiv kind a).some
  have given (d : (a : Subst) × Derivation ses search a) : Emitted ses search (equiv d.1 d.2).1 d.1 :=
    (equiv d.1 d.2).2
  refine ⟨fun d => (equiv d.1 d.2).1, ?_, fun k a => ⟨fun h => ?_, ?_⟩, fun a ds => ?_, fun finite => ?_⟩
  · rintro ⟨a, d⟩ ⟨c, e⟩ eq
    have eq : (equiv a d).1 = (equiv c e).1 := eq
    have same : Emitted ses search (equiv a d).1 c := eq ▸ given ⟨c, e⟩
    obtain rfl := (given ⟨a, d⟩).unique same
    rw [(equiv a).injective (Subtype.ext eq)]
  · exact ⟨(equiv a).symm ⟨k, h⟩, congrArg Subtype.val ((equiv a).apply_symm_apply ⟨k, h⟩)⟩
  · rintro ⟨d, rfl⟩
    exact given ⟨a, d⟩
  · obtain ⟨as, ses', rest, run, all⟩ :=
      exists_runs_of_emitted (ds.image fun d => (equiv a d).1) fun k hk => by
        obtain ⟨d, -, rfl⟩ := Finset.mem_image.mp hk
        exact given ⟨a, d⟩
    exact ⟨as, ses', rest, run, fun d hd => all _ (Finset.mem_image_of_mem _ hd)⟩
  · obtain ⟨n, exhausts⟩ := finite.exhausts
    obtain ⟨as, ses₁, rest, run, ends⟩ := exhausts.exists_runs kind kind.here steady
    refine ⟨as, run.drains ends, fun k => ⟨?_, fun lt => ?_⟩⟩
    · rintro ⟨d, rfl⟩
      obtain ⟨bs, ses₂, q, run', found⟩ := emitted_iff.mp (given d)
      have lt := (List.getElem?_eq_some_iff.mp found).1
      obtain ⟨cs, rfl, more⟩ | ⟨cs, rfl, -⟩ := run.total run'
      · rwa [ends.eq_nil more, List.append_nil] at lt
      · rw [List.length_append]
        exact Nat.lt_add_right _ lt
    · have found := List.getElem?_eq_getElem lt
      have h : Emitted ses search k as[k] := emitted_iff.mpr ⟨as, ses₁, rest, run, found⟩
      exact ⟨⟨as[k], (equiv as[k]).symm ⟨k, h⟩⟩,
        congrArg Subtype.val ((equiv as[k]).apply_symm_apply ⟨k, h⟩)⟩

/-! ## Beside a search without end -/

theorem steady_empty : Steady I .empty := nofun

theorem steady_emit (later : Steady I rest) : Steady I (.emit a rest)
  | act, .emit h => later act h

theorem steady_fork (each : ∀ b ∈ bs, Steady I b) : Steady I (.fork bs)
  | act, .fork mem h => each _ mem act h

theorem steady_bind (first : Steady I inner) (later : ∀ s, Steady I (.apply goal s)) :
    Steady I (.bind inner goal)
  | act, .inner h => first act h
  | act, .goal h => later _ act h

/-- A goal that leaves the session as it is and does the same in each. -/
theorem steady_apply (same : ∀ ses, goal.apply s ses = (search, ses)) (later : Steady I search) :
    Steady I (.apply goal s) := by
  intro act h
  cases h with
  | apply =>
    intro ses ses' here _
    rw [same, same]
    exact ⟨rfl, here⟩
  | applied _ h =>
    rw [same] at h
    exact later act h

theorem steady_never : Steady I (.apply .never s) := by
  have unfolds (n : Nat) (ses : Session) : (Goal.series (fun _ => .fail) n).apply s ses =
      (.apply (.series (fun _ => .fail) (n + 1)) s, ses) := rfl
  -- what comes up is the series from some number on
  have series {x : Search} {act : Session → Search × Session} (h : SetUp I x act) :
      ∀ n, x = .apply (.series (fun _ => .fail) n) s →
        ∃ m, act = (Goal.series (fun _ => .fail) m).apply s := by
    induction h with
    | apply =>
      rintro n ⟨⟩
      exact ⟨n, rfl⟩
    | applied _ _ ih =>
      rintro n ⟨⟩
      exact ih (n + 1) rfl
    | _ => nofun
  intro act h ses ses' here _
  obtain ⟨m, rfl⟩ := series h 0 rfl
  rw [unfolds, unfolds]
  exact ⟨rfl, here⟩

/-- Two answers that each go on in two ways. -/
def twoByTwo : Search := .bind (.emit .empty (.emit .empty .empty)) (.disj [.succeed, .succeed])

/-- The same beside a goal that searches for ever. -/
def besideNever : Search := .fork [.apply .never .empty, twoByTwo]

theorem steady_twoByTwo : Steady I twoByTwo := by
  have succeed (s : Subst) : Steady I (.apply .succeed s) :=
    steady_apply (fun _ => rfl) (steady_emit steady_empty)
  exact steady_bind (steady_emit (steady_emit steady_empty)) fun s =>
    steady_apply (fun _ => rfl) (steady_fork (List.forall_mem_cons.mpr
      ⟨succeed s, List.forall_mem_singleton.mpr (succeed s)⟩))

/-- All four answers are pulled, and with nothing else to search they are all there are. -/
theorem exists_index_besideNever :
    (∃ index, Indexing .bare besideNever index) ∧ IsFinite .bare twoByTwo ∧
      ∃ index, Indexing .bare twoByTwo index := by
  have kind : Kind (fun _ => True) .bare := ⟨trivial, fun _ _ => trivial⟩
  have succeed (s : Subst) : IsFinite .bare (.apply .succeed s) := .apply (.emit .empty)
  refine ⟨Steady.exists_index (steady_fork (List.forall_mem_cons.mpr ⟨steady_never,
    List.forall_mem_singleton.mpr steady_twoByTwo⟩)) kind, ?_, Steady.exists_index steady_twoByTwo kind⟩
  refine .bind (.emit (.emit .empty)) fun s _ => .apply (.fork ?_)
  exact List.forall_mem_cons.mpr ⟨succeed s, List.forall_mem_singleton.mpr (succeed s)⟩

end Regraft.Search
