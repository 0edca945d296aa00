import Regraft.Proofs.Renaming.Sessions
import Regraft.Proofs.Renaming.Unify
import Regraft.Proofs.Search.Meets

/-
  Searches that go in step. `Renaming.Lockstep n` says that in their next `n` steps two searches come to
  the same, with twins for answers, whatever happens to the sessions between the steps as long as they
  only grow and agree. There is a rule for every way to build a search, as for what all answers
  satisfy. Since searches without branches left are told apart from others, such ones go in step only
  with each other.
-/

namespace Regraft

namespace Renaming

variable {ρ : Renaming} {p q : Sides} {n : Nat}

/-- A substitution of the left session and its twin. -/
abbrev SameSubst (ρ : Renaming) (p : Sides) : Subst → Subst → Prop :=
  ρ.Substs p.left.store p.right.store

theorem SameSubst.grow {s s' : Subst} (h : ρ.SameSubst p s s') (g : p.Grow q) : ρ.SameSubst q s s' :=
  Substs.grows h g.left.store g.right.store

/-- Steps that come to the same. -/
inductive Steps (ρ : Renaming) (K : Sides → Search → Search → Prop) (p : Sides) :
    Step → Step → Prop
  | emit {s s' : Subst} {x x' : Search} (answer : ρ.SameSubst p s s') (rest : K p x x') :
      Steps ρ K p (.emit s x) (.emit s' x')
  | «continue» {x x' : Search} (rest : K p x x') : Steps ρ K p (.continue x) (.continue x')
  | exhausted : Steps ρ K p .exhausted .exhausted

theorem Steps.imp {K K' : Sides → Search → Search → Prop} {x y : Step} (h : ρ.Steps K p x y)
    (imp : ∀ x x', K p x x' → K' p x x') : ρ.Steps K' p x y := by
  cases h with
  | emit answer rest => exact .emit answer (imp _ _ rest)
  | «continue» rest => exact .continue (imp _ _ rest)
  | exhausted => exact .exhausted

/-- In their next steps two searches come to the same. -/
def Lockstep (ρ : Renaming) : Nat → Sides → Search → Search → Prop
  | 0, _, x, x' => x'.isEmpty = x.isEmpty
  | n + 1, p, x, x' => x'.isEmpty = x.isEmpty ∧
      ∀ q, p.Grow q → ρ.Acts q (ρ.Steps (Lockstep ρ n)) x.step x'.step

/-- Actions that set up searches which go in step. -/
def SetUp (ρ : Renaming) (n : Nat) (p : Sides) (act act' : SessionM Search) : Prop :=
  ∀ q, p.Grow q → ρ.Acts q (ρ.Lockstep n) act act'

namespace Lockstep

variable {x x' y y' : Search} {xs xs' : List Search} {s s' : Subst}

theorem isEmpty (h : ρ.Lockstep n p x x') : x'.isEmpty = x.isEmpty := by
  cases n with
  | zero => exact h
  | succ n => exact h.1

theorem grow (h : ρ.Lockstep n p x x') (g : p.Grow q) : ρ.Lockstep n q x x' := by
  cases n with
  | zero => exact h
  | succ n => exact ⟨h.1, fun r g' => h.2 r (g.trans g')⟩

theorem pred (h : ρ.Lockstep (n + 1) p x x') : ρ.Lockstep n p x x' := by
  induction n generalizing p x x' with
  | zero => exact h.1
  | succ n ih =>
    refine ⟨h.1, fun q g => (h.2 q g).imp fun r _ _ _ steps => ?_⟩
    exact steps.imp fun _ _ => ih

theorem empty : ρ.Lockstep n p .empty .empty := by
  cases n with
  | zero => rfl
  | succ n => exact ⟨rfl, fun q _ => Steady.acts (.pure .exhausted)⟩

theorem emit (answer : ρ.SameSubst p s s') (rest : ρ.Lockstep n p x x') :
    ρ.Lockstep n p (.emit s x) (.emit s' x') := by
  cases n with
  | zero => rfl
  | succ n => exact ⟨rfl, fun q g => Steady.acts (.pure (.emit (answer.grow g) (rest.grow g).pred))⟩

theorem unit (answer : ρ.SameSubst p s s') : ρ.Lockstep n p (.unit s) (.unit s') :=
  emit answer empty

theorem suspend {act act' : SessionM Search} (h : ρ.SetUp n p act act') :
    ρ.Lockstep (n + 1) p (.suspend act) (.suspend act') := by
  refine ⟨rfl, fun q g agree room => ?_⟩
  obtain ⟨agree', grow, rest⟩ := h q g agree room
  exact ⟨agree', grow, .continue rest⟩

theorem apply {goal goal' : Goal} (h : ρ.SetUp n p (goal.apply s) (goal'.apply s')) :
    ρ.Lockstep (n + 1) p (.apply goal s) (.apply goal' s') := by
  refine ⟨rfl, fun q g agree room => ?_⟩
  obtain ⟨agree', grow, rest⟩ := h q g agree room
  exact ⟨agree', grow, .continue rest⟩

theorem ofBranches (h : List.Forall₂ (ρ.Lockstep n p) xs xs')
    (fork : ρ.Lockstep n p (.fork xs) (.fork xs')) :
    ρ.Lockstep n p (.ofBranches xs) (.ofBranches xs') := by
  cases h with
  | nil => exact empty
  | cons first others => cases others with
    | nil => exact first
    | cons => exact fork

theorem requeue (fork : ∀ {xs xs'}, List.Forall₂ (ρ.Lockstep n p) xs xs' →
      ρ.Lockstep n p (.fork xs) (.fork xs'))
    (rest : ρ.Lockstep n p x x') (others : List.Forall₂ (ρ.Lockstep n p) xs xs') :
    ρ.Lockstep n p (.requeue x xs) (.requeue x' xs') := by
  have together := List.rel_append others (.cons rest .nil)
  unfold Search.requeue
  rw [rest.isEmpty]
  split
  · exact ofBranches others (fork others)
  · exact ofBranches together (fork together)

/-- All branches go in step. A step runs the first one and puts the rest of it behind the others. -/
theorem fork (h : List.Forall₂ (ρ.Lockstep n p) xs xs') :
    ρ.Lockstep n p (.fork xs) (.fork xs') := by
  induction n generalizing p xs xs' with
  | zero => rfl
  | succ n ih =>
    refine ⟨rfl, fun q g agree room => ?_⟩
    cases h with
    | nil => exact ⟨agree, .refl q, .exhausted⟩
    | @cons first first' others others' here later =>
      rw [Search.step_fork_cons] at room ⊢
      rw [Search.step_fork_cons]
      have behind : ∀ {r}, q.Grow r → List.Forall₂ (ρ.Lockstep n r) others others' :=
        fun g' => later.imp fun _ _ h => (h.grow (g.trans g')).pred
      have together : ∀ {r x x'}, q.Grow r → ρ.Lockstep n r x x' →
          List.Forall₂ (ρ.Lockstep n r) (others ++ [x]) (others' ++ [x']) :=
        fun g' h => List.rel_append (behind g') (.cons h .nil)
      have stepped := here.2 q g agree
      generalize first.step q.left = a at stepped ⊢
      generalize first'.step q.right = a' at stepped room ⊢
      obtain ⟨a, c⟩ := a
      obtain ⟨a', d⟩ := a'
      have room : d.store.Roomy := by cases a' <;> exact room
      obtain ⟨agree', grow, steps⟩ := stepped room
      cases steps with
      | emit answer rest =>
        exact ⟨agree', grow, .emit answer (requeue ih rest (behind grow))⟩
      | «continue» rest => exact ⟨agree', grow, .continue (ih (together grow rest))⟩
      | exhausted => exact ⟨agree', grow, .continue (ofBranches (behind grow) (ih (behind grow)))⟩

theorem plus (hx : ρ.Lockstep n p x x') (hy : ρ.Lockstep n p y y') :
    ρ.Lockstep n p (.plus x y) (.plus x' y') := by
  have cases' : ∀ x y : Search, Search.plus x y =
      if x.isEmpty then y else if y.isEmpty then x else .fork [x, y] := by
    intro x y
    cases x <;> cases y <;> rfl
  rw [cases', cases', hx.isEmpty, hy.isEmpty]
  split
  · exact hy
  · split
    · exact hx
    · exact fork (.cons hx (.cons hy .nil))

theorem union (h : List.Forall₂ (ρ.Lockstep n p) xs xs') :
    ρ.Lockstep n p (.union xs) (.union xs') := by
  have kept : List.Forall₂ (ρ.Lockstep n p) (xs.filter (!·.isEmpty)) (xs'.filter (!·.isEmpty)) := by
    induction h with
    | nil => exact .nil
    | @cons x x' _ _ first _ ih =>
      rw [List.filter_cons, List.filter_cons, first.isEmpty]
      split
      · exact .cons first ih
      · exact ih
  exact ofBranches kept (fork kept)

theorem feed {goal goal' : Goal} (here : ρ.Lockstep n p (.apply goal s) (.apply goal' s'))
    (rest : ρ.Lockstep n p x x') (later : ρ.Lockstep n p (.bind x goal) (.bind x' goal')) :
    ρ.Lockstep n p (.feed s x goal) (.feed s' x' goal') := by
  unfold Search.feed
  rw [rest.isEmpty]
  split
  · exact here
  · exact plus here later

/-- Every answer of the inner searches goes on into the goals. -/
theorem bind {goal goal' : Goal} (hx : ρ.Lockstep n p x x')
    (hg : ∀ q s s', p.Grow q → ρ.SameSubst q s s' → ρ.Lockstep n q (.apply goal s) (.apply goal' s')) :
    ρ.Lockstep n p (.bind x goal) (.bind x' goal') := by
  induction n generalizing p x x' with
  | zero => rfl
  | succ n ih =>
    refine ⟨rfl, fun q g agree room => ?_⟩
    have later : ∀ {r}, q.Grow r → ∀ r' s s', r.Grow r' → ρ.SameSubst r' s s' →
        ρ.Lockstep n r' (.apply goal s) (.apply goal' s') :=
      fun g' r' s s' g'' answer => (hg r' s s' ((g.trans g').trans g'') answer).pred
    rw [Search.step_bind] at room ⊢
    rw [Search.step_bind]
    have stepped := hx.2 q g agree
    generalize x.step q.left = a at stepped ⊢
    generalize x'.step q.right = a' at stepped room ⊢
    obtain ⟨a, c⟩ := a
    obtain ⟨a', d⟩ := a'
    have room : d.store.Roomy := by cases a' <;> exact room
    obtain ⟨agree', grow, steps⟩ := stepped room
    cases steps with
    | emit answer rest =>
      exact ⟨agree', grow, .continue (feed (later grow _ _ _ (.refl _) answer) rest
        (ih rest (later grow)))⟩
    | «continue» rest => exact ⟨agree', grow, .continue (ih rest (later grow))⟩
    | exhausted => exact ⟨agree', grow, .exhausted⟩

end Lockstep

/-! ## Goals -/

/-- Goals that go in step when they are applied to twin substitutions, now or later. -/
def GoalSteps (ρ : Renaming) (n : Nat) (p : Sides) (goal goal' : Goal) : Prop :=
  ∀ q s s', p.Grow q → ρ.SameSubst q s s' → ρ.Lockstep n q (.apply goal s) (.apply goal' s')

theorem GoalSteps.grow {goal goal' : Goal} (h : ρ.GoalSteps n p goal goal') (g : p.Grow q) :
    ρ.GoalSteps n q goal goal' := fun r s s' g' => h r s s' (g.trans g')

/-- The answers of one goal go into the next. -/
theorem Lockstep.through {goal goal' : Goal} {rest rest' : List Goal} {s s' : Subst}
    (first : ρ.GoalSteps n p goal goal') (others : List.Forall₂ (ρ.GoalSteps n p) rest rest')
    (h : ρ.SameSubst p s s') :
    ρ.Lockstep n p (.through goal rest s) (.through goal' rest' s') := by
  have start := first p s s' (.refl p) h
  unfold Search.through
  generalize Search.apply goal s = x at start ⊢
  generalize Search.apply goal' s' = x' at start ⊢
  induction others generalizing x x' with
  | nil => exact start
  | cons next _ ih => exact ih _ _ (start.bind fun q s s' g h => next q s s' g h)

end Renaming

end Regraft
