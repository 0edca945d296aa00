import Regraft.Proofs.Rewriting.Explored
import Regraft.Proofs.Rewriting.Stepping

/-
  What a run over fixpoints comes to. Every fixpoint that it finds is a normal form, with the number of
  steps of some trail that leads there, and none is found twice (`Found`). Without a step limit, the
  run over finitely many trees ends and has found all normal forms (`exists_fixpoints`). With a step
  limit it always ends. It has found all normal forms if it cut no path, and all that are within the limit
  if no trail within the limit makes a detour (`exists_limited`).
-/

namespace Regraft.Fixpoint

open Process (Runs Drains)

/-- Normal forms, none twice, and each with the number of steps of a trail that leads there. -/
structure Found (next : Tree → Set Tree) (x : Tree) (ses : Session) (rs : List Reduction) : Prop where
  stored : ∀ r ∈ rs, ses.store.Stored r.term
  normal : ∀ r ∈ rs, Normal next (ses.store.tree r.term)
  trail : ∀ r ∈ rs, ∃ behind, Trail next x (ses.store.tree r.term :: behind) ∧ behind.length = r.steps
  distinct : (rs.map fun r => ses.store.tree r.term).Nodup

/-- No trail within some steps that repeats no tree takes more steps than another one to the same
    tree. -/
def Direct (next : Tree → Set Tree) (x : Tree) (steps : Nat) : Prop :=
  ∀ y behind behind', Trail next x (y :: behind) → (y :: behind).Nodup → behind.length ≤ steps →
    Trail next x (y :: behind') → behind.length ≤ behind'.length

variable {K : Scope} {rule : Rule} {limit : Option Nat} {next : Tree → Set Tree} {x y : Tree}
  {rs : List Reduction} {visits : List Visit} {ses ses' : Session} {f f' : Fixpoint} {v : Visit}
  {t : TermId} {l : Nat}

/-! ## At the end of the path -/

theorem Explored.isOver (h : Explored K rule limit next x rs visits ses f) (done : f.path = [])
    (mem : v ∈ visits) : Over next rs visits f v := by
  refine (h.ended v mem).resolve_left ?_
  rintro ⟨frame, here, -⟩
  rw [done] at here
  cases here

/-- A run that cut no path has visited everything. -/
theorem Explored.visited (h : Explored K rule limit next x rs visits ses f) (done : f.path = [])
    (uncut : f.limitHit = false) (reaches : Reaches next x y) : ∃ v ∈ visits, v.tree = y := by
  obtain ⟨behind, trail⟩ := reaches
  generalize eq : y :: behind = trees at trail
  induction trail generalizing y behind with
  | start =>
    cases eq
    exact h.root
  | step trail mem ih =>
    cases eq
    obtain ⟨v, hv, rfl⟩ := ih _ rfl
    rcases (h.isOver done hv).known _ mem with rfl | visited | ⟨-, cut⟩
    · exact ⟨v, hv, rfl⟩
    · exact visited
    · rw [uncut] at cut
      cases cut

/-- A run has visited everything within the limit if no trail makes a detour: then each visit comes
    there by as few steps as possible, and leaves as many as possible behind it. -/
theorem Explored.visited_within (h : Explored K rule (some l) next x rs visits ses f)
    (done : f.path = []) (direct : Direct next x l) {behind : List Tree}
    (trail : Trail next x (y :: behind)) (le : behind.length ≤ l) : ∃ v ∈ visits, v.tree = y := by
  generalize eq : y :: behind = trees at trail
  induction trail generalizing y behind with
  | start =>
    cases eq
    exact h.root
  | step trail mem ih =>
    cases eq
    rw [List.length_cons] at le
    obtain ⟨v, hv, rfl⟩ := ih (by omega) rfl
    have sound := h.sound v hv
    have within : v.behind.length ≤ l := by
      have shallow := sound.shallow
      rw [tooDeep, h.limited] at shallow
      exact Nat.not_lt.mp (of_decide_eq_false shallow)
    have few := direct _ _ _ sound.trail sound.nodup within trail
    rcases (h.isOver done hv).known _ mem with rfl | visited | ⟨deep, -⟩
    · exact ⟨v, hv, rfl⟩
    · exact visited
    · rw [tooDeep, h.limited] at deep
      have deep := of_decide_eq_true deep
      omega

/-- A normal form that was visited has been found. -/
theorem Explored.exists_of_normal (h : Explored K rule limit next x rs visits ses f)
    (done : f.path = []) (visited : ∃ v ∈ visits, v.tree = y) (normal : Normal next y) :
    ∃ r ∈ rs, ses.store.tree r.term = y := by
  obtain ⟨v, mem, rfl⟩ := visited
  obtain ⟨r, hr, eq⟩ := List.mem_map.mp ((h.isOver done mem).found normal)
  exact ⟨r, hr, eq ▸ (h.sound v mem).holds.tree⟩

theorem Explored.isFound (h : Explored K rule limit next x rs visits ses f) :
    Found next x ses rs := by
  have each : ∀ r ∈ rs, ∃ v ∈ visits, r = ⟨v.term, v.behind.length⟩ ∧
      ses.store.Stored r.term ∧ ses.store.tree r.term = v.tree ∧ Normal next v.tree := by
    intro r mem
    obtain ⟨v, hv, rfl, normal⟩ := h.found r mem
    have holds := (h.sound v hv).holds
    exact ⟨v, hv, rfl, holds.stored, holds.tree, normal⟩
  refine ⟨fun r mem => ?_, fun r mem => ?_, fun r mem => ?_, ?_⟩
  · obtain ⟨_, -, -, stored, -⟩ := each r mem
    exact stored
  · obtain ⟨v, -, -, -, tree, normal⟩ := each r mem
    exact tree ▸ normal
  · obtain ⟨v, hv, rfl, -, tree, -⟩ := each r mem
    exact ⟨v.behind, tree ▸ (h.sound v hv).trail, rfl⟩
  · -- The terms are distinct, and a term is told by its tree.
    have valid := K.valid h.ok
    rw [show (fun r : Reduction => ses.store.tree r.term) = ses.store.tree ∘ Reduction.term from rfl,
      ← List.map_map]
    refine List.Nodup.map_on (fun t ht u hu eq => ?_) h.distinct
    obtain ⟨r, hr, rfl⟩ := List.mem_map.mp ht
    obtain ⟨q, hq, rfl⟩ := List.mem_map.mp hu
    obtain ⟨_, -, -, stored, -⟩ := each r hr
    obtain ⟨_, -, -, stored', -⟩ := each q hq
    exact valid.eq_of_tree_eq stored stored' eq

theorem Explored.steps_le (h : Explored K rule (some l) next x rs visits ses f) {r : Reduction}
    (mem : r ∈ rs) : r.steps ≤ l := by
  obtain ⟨v, hv, rfl, -⟩ := h.found r mem
  have shallow := (h.sound v hv).shallow
  rw [tooDeep, h.limited] at shallow
  exact Nat.not_lt.mp (of_decide_eq_false shallow)

/-! ## What is reported -/

theorem turn_of_done (done : f.path = []) (ses : Session) : f.turn ses = (.finished, ses) := by
  rw [turn_eq, done]

/-- A run to the end is collected as soon as the turns suffice. -/
theorem exists_collect (run : Runs turn ses f (rs.map .ok) ses' f') (done : f'.path = [])
    (before : List Reduction) : ∃ turns, ∀ more,
      (collect none (turns + more) f before ses).1 = some (f'.conclude (before ++ rs)) := by
  generalize eq : rs.map (Except.ok : Reduction → Except RewriteError Reduction) = as at run
  induction run generalizing rs before with
  | refl =>
    obtain rfl := List.map_eq_nil_iff.mp eq
    refine ⟨1, fun more => ?_⟩
    rw [Nat.add_comm, collect_succ, turn_of_done done, List.append_nil]
    rfl
  | working here _ ih =>
    obtain ⟨turns, collected⟩ := ih done before eq
    refine ⟨turns + 1, fun more => ?_⟩
    rw [Nat.add_right_comm, collect_succ, here]
    exact collected more
  | yielded here _ ih =>
    cases rs with
    | nil => cases eq
    | cons r rs =>
      cases eq
      obtain ⟨turns, collected⟩ := ih done (before ++ [r]) rfl
      refine ⟨turns + 1, fun more => ?_⟩
      rw [Nat.add_right_comm, collect_succ, here]
      rw [List.append_cons]
      exact collected more

/-- The first fixpoint, or why there is none. -/
def first (f : Fixpoint) (found : List Reduction) : Except RewriteError Reduction :=
  match found with
  | [] => .error f.exhausted
  | r :: _ => .ok r

/-- The first result of a run to the end comes as soon as the turns suffice. -/
theorem exists_once (run : Runs turn ses f (rs.map .ok) ses' f') (done : f'.path = []) :
    ∃ turns, ∀ more, (once (turns + more) f ses).1 = some (f'.first rs) := by
  generalize eq : rs.map (Except.ok : Reduction → Except RewriteError Reduction) = as at run
  induction run generalizing rs with
  | refl =>
    obtain rfl := List.map_eq_nil_iff.mp eq
    refine ⟨1, fun more => ?_⟩
    rw [Nat.add_comm, once_succ, turn_of_done done]
    rfl
  | working here _ ih =>
    obtain ⟨turns, first⟩ := ih done eq
    refine ⟨turns + 1, fun more => ?_⟩
    rw [Nat.add_right_comm, once_succ, here]
    exact first more
  | yielded here _ _ =>
    cases rs with
    | nil => cases eq
    | cons r rs =>
      cases eq
      refine ⟨1, fun more => ?_⟩
      rw [Nat.add_comm, once_succ, here]
      rfl

/-- The turns up to the end of the path show whether there is room. -/
theorem spacious_of_done (turns : Nat) (done : (Process.after turn turns f ses).1.path = [])
    (room : ∀ n ≤ turns, K.room (Process.after turn n f ses).2) : Spacious K ses f := by
  intro n
  rcases Nat.le_total n turns with le | le
  · exact room n le
  · obtain ⟨more, rfl⟩ := Nat.exists_eq_add_of_le le
    rw [Process.after_of_finished rfl (turn_of_done done _)]
    exact room turns (Nat.le_refl _)

/-! ## A term negated three times -/

theorem threeNegations_ground : (threeNegations.store.tree ⟨3⟩).Ground := by
  have tree : threeNegations.store.tree ⟨3⟩ = .app "neg" [.app "neg" [.app "neg"
    [.leaf (.input "a")] .unspecified] .unspecified] .unspecified := rfl
  rw [tree]
  intro v
  simp

theorem threeNegations_valid : threeNegations.store.Valid := by decide +kernel

/-- Two negations are cancelled, and then no step is left. -/
theorem threeNegations_finite : {y | Reaches (Tree.Pattern.steps .none {doubleNegation})
    (threeNegations.store.tree ⟨3⟩) y}.Finite := by
  have tidy : threeNegations.store.Tidy := by decide +kernel
  have ground : (threeNegations.store.tree ⟨1⟩).Ground := by
    have tree : threeNegations.store.tree ⟨1⟩ = .app "neg" [.leaf (.input "a")] .unspecified := rfl
    rw [tree]
    intro v
    simp
  obtain ⟨grows, first⟩ := negNeg_ofPatterns.steps_of_walk threeNegations_valid tidy (t := ⟨3⟩)
    (by decide +kernel) threeNegations_ground 42 [⟨1⟩] (by decide +kernel) (by decide +kernel)
  obtain ⟨-, last⟩ := negNeg_ofPatterns.steps_of_walk threeNegations_valid tidy (t := ⟨1⟩)
    (by decide +kernel) ground 14 [] (by decide +kernel) (by decide +kernel)
  have same := grows.store.tree_eq threeNegations_valid (t := ⟨1⟩) (by decide +kernel)
  refine Set.Finite.subset (Set.toFinite {threeNegations.store.tree ⟨3⟩, threeNegations.store.tree ⟨1⟩})
    fun y reaches => reaches.mem (.inl rfl) ?_
  rintro _ (rfl | rfl)
  · rw [show (.none : Facts) = threeNegations.facts from rfl, first]
    rintro _ ⟨w, mem, rfl⟩
    rw [List.mem_singleton.mp mem, same]
    exact .inr rfl
  · rw [show (.none : Facts) = threeNegations.facts from rfl, last]
    rintro _ ⟨w, mem, -⟩
    cases mem

/-! ## Without and with a step limit -/

/-- Without a step limit the run over finitely many trees comes to its end. It yields all normal forms,
    each once and with the number of steps of a trail, and the first of them is found unless there is none. -/
theorem exists_fixpoints (walks : rule.Walks K next x) (finite : {y | Reaches next x y}.Finite)
    (ok : K.ok ses) (here : Holds (· = x) ses t)
    (space : Spacious K (start rule none t ses).2 (start rule none t ses).1) :
    let ses₀ := (start rule none t ses).2
    let f₀ := (start rule none t ses).1
    ∃ rs ses', Process.Finishes turn ses₀ f₀ (rs.map .ok) ses' ∧ Found next x ses' rs ∧
      (∀ y, Reaches next x y → Normal next y → ∃ r ∈ rs, ses'.store.tree r.term = y) ∧
      ∃ result, (∃ turns, ∀ more, (once (turns + more) f₀ ses₀).1 = some result) ∧
        (∀ r, result = .ok r ↔ rs.head? = some r) ∧
        (result = .error .patternNotFound ↔ ∀ y, Reaches next x y → ¬ Normal next y) ∧
        ∀ l, result ≠ .error (.stepLimitExceeded l) := by
  dsimp only
  have fits : Fits next x none finite.toFinset.card [⟨t, x, []⟩] 0 :=
    .inr ⟨finite.toFinset, Nat.le_refl _, fun y reaches => .inr (finite.mem_toFinset.mpr reaches)⟩
  obtain ⟨rs, visits, ses', f', run, done, explored⟩ := exists_explored walks ok here fits space
  have uncut : f'.limitHit = false := by
    refine eq_false_of_ne_true fun cut => ?_
    obtain ⟨l, _, none, -⟩ := explored.cut cut
    cases none
  have all : ∀ y, Reaches next x y → Normal next y → ∃ r ∈ rs, ses'.store.tree r.term = y :=
    fun y reaches => explored.exists_of_normal done (explored.visited done uncut reaches)
  have found := explored.isFound
  obtain ⟨turns, first⟩ := exists_once run done
  refine ⟨rs, ses', ⟨f', run, turn_of_done done ses'⟩, found, all, f'.first rs, ⟨turns, first⟩, ?_⟩
  cases rs with
  | nil =>
    have exhausted : f'.first [] = .error .patternNotFound := by
      rw [Fixpoint.first, exhausted, uncut]
    rw [exhausted]
    refine ⟨fun r => ⟨nofun, nofun⟩, ⟨fun _ y reaches normal => ?_, fun _ => rfl⟩, nofun⟩
    obtain ⟨r, mem, -⟩ := all y reaches normal
    cases mem
  | cons r rs =>
    refine ⟨fun q => ⟨fun eq => ?_, fun eq => ?_⟩, ⟨nofun, fun none => ?_⟩, nofun⟩
    · cases eq
      rfl
    · cases eq
      rfl
    · obtain ⟨behind, trail, -⟩ := found.trail r (.head _)
      exact absurd (found.normal r (.head _)) (none _ ⟨behind, trail⟩)

/-- The one normal form of a term that is negated three times is one step away. -/
theorem exists_fixpoints_threeNegations :
    let start := Fixpoint.start (Script.Rule.negNeg.build []) none ⟨3⟩ threeNegations
    (start.1.all none 57 start.2).1 = some (.ok [⟨⟨1⟩, 1⟩]) ∧
    ∃ rs ses', Process.Finishes turn start.2 start.1 (rs.map .ok) ses' ∧
      Found (Tree.Pattern.steps .none {doubleNegation}) (threeNegations.store.tree ⟨3⟩) ses' rs := by
  dsimp only
  have walks := negNeg_ofPatterns.walks threeNegations_valid threeNegations_ground
  obtain ⟨rs, ses', finishes, found, -⟩ := exists_fixpoints walks threeNegations_finite
    ⟨.refl threeNegations, by decide +kernel⟩ ⟨threeNegations_valid, by decide +kernel, rfl⟩
    (spacious_of_done 56 (by decide +kernel) (by decide +kernel))
  exact ⟨by decide +kernel, rs, ses', finishes, found⟩

/-- With a step limit the run comes to its end, whatever there is to reach. It yields only normal forms
    that are within the limit; it yields all there are if it cut no path, and all within the limit if no
    trail makes a detour. Its last word is that the limit was exceeded just if it yields nothing and some
    path was cut, which shows that there is a trail longer than the limit. -/
theorem exists_limited (walks : rule.Walks K next x) (ok : K.ok ses) (here : Holds (· = x) ses t)
    (l : Nat) (space : Spacious K (start rule (some l) t ses).2 (start rule (some l) t ses).1) :
    let ses₀ := (start rule (some l) t ses).2
    let f₀ := (start rule (some l) t ses).1
    ∃ rs ses' cut, Process.Finishes turn ses₀ f₀ (rs.map .ok) ses' ∧
      (∃ turns, ∀ more, (f₀.all none (turns + more) ses₀).1 =
        some (if rs.isEmpty && cut then .error (.stepLimitExceeded l) else .ok rs)) ∧
      (∃ turns, ∀ more, (once (turns + more) f₀ ses₀).1 = some ((rs.head?.map .ok).getD
        (.error (if cut then .stepLimitExceeded l else .patternNotFound)))) ∧
      Found next x ses' rs ∧ (∀ r ∈ rs, r.steps ≤ l) ∧
      (cut = true → ∃ trees, Trail next x trees ∧ trees.length = l + 2) ∧
      (cut = false →
        ∀ y, Reaches next x y → Normal next y → ∃ r ∈ rs, ses'.store.tree r.term = y) ∧
      (Direct next x l → ∀ y behind, Trail next x (y :: behind) → behind.length ≤ l →
        Normal next y → ∃ r ∈ rs, ses'.store.tree r.term = y) := by
  dsimp only
  obtain ⟨rs, visits, ses', f', run, done, explored⟩ :=
    exists_explored walks ok here (n := l) (.inl ⟨l, rfl, Nat.le_refl _⟩) space
  obtain ⟨turns, all⟩ := exists_collect run done []
  obtain ⟨turns', first⟩ := exists_once run done
  refine ⟨rs, ses', f'.limitHit, ⟨f', run, turn_of_done done ses'⟩, ⟨turns, fun more => ?_⟩,
    ⟨turns', fun more => ?_⟩, explored.isFound, fun r => explored.steps_le, fun cut => ?_,
    fun uncut y reaches => explored.exists_of_normal done (explored.visited done uncut reaches),
    fun direct y behind trail le =>
      explored.exists_of_normal done (explored.visited_within done direct trail le)⟩
  · rw [Fixpoint.all, all, List.nil_append, conclude, explored.limited]
    rfl
  · rw [first]
    cases rs with
    | nil =>
      rw [Fixpoint.first, exhausted, explored.limited]
      cases f'.limitHit <;> rfl
    | cons r rs => rfl
  · obtain ⟨_, trees, eq, trail, length⟩ := explored.cut cut
    cases eq
    exact ⟨trees, trail, length⟩

/-- No step is allowed where one is needed. -/
theorem exists_limited_threeNegations :
    let start := Fixpoint.start (Script.Rule.negNeg.build []) (some 0) ⟨3⟩ threeNegations
    (start.1.all none 43 start.2).1 = some (.error (.stepLimitExceeded 0)) ∧
    ∃ rs ses', Process.Finishes turn start.2 start.1 (rs.map .ok) ses' ∧
      Found (Tree.Pattern.steps .none {doubleNegation}) (threeNegations.store.tree ⟨3⟩) ses' rs ∧
      ∀ r ∈ rs, r.steps ≤ 0 := by
  dsimp only
  have walks := negNeg_ofPatterns.walks threeNegations_valid threeNegations_ground
  obtain ⟨rs, ses', -, finishes, -, -, found, le, -⟩ := exists_limited walks
    ⟨.refl threeNegations, by decide +kernel⟩ ⟨threeNegations_valid, by decide +kernel, rfl⟩ 0
    (spacious_of_done 42 (by decide +kernel) (by decide +kernel))
  exact ⟨by decide +kernel, rs, ses', finishes, found, le⟩

/-! ## A detour -/

/-- The inputs `a`, `b`, `c` and `d`. -/
def letters : Session :=
  .holding .none [.leaf (.input "a"), .leaf (.input "b"), .leaf (.input "c"), .leaf (.input "d")]

/-- Steps from `a` to `c` by way of `b` or at once, and from there to `d`. -/
def detour : Rule :=
  let letter (x y : String) : Script.Rule := .pattern (x ++ y) [] (.input x) (.input y)
  (Script.Rule.any "detour" [letter "a" "b", letter "b" "c", letter "a" "c", letter "c" "d"]).build []

/-- The term `d` is two steps from `a`, and no step is left then. But `c` is visited first on the detour,
    where the limit of two steps cuts what is behind it, and it is not visited again. -/
theorem exceeded_detour :
    (detour.walk ⟨0⟩ 30 letters).1 = ([.ok ⟨1⟩, .ok ⟨2⟩], true) ∧
    (detour.walk ⟨2⟩ 24 letters).1 = ([.ok ⟨3⟩], true) ∧
    (detour.walk ⟨3⟩ 17 letters).1 = ([], true) ∧
    let start := Fixpoint.start detour (some 2) ⟨0⟩ letters
    (start.1.all none 79 start.2).1 = some (.error (.stepLimitExceeded 2)) := by
  decide +kernel

end Regraft.Fixpoint
