import Mathlib.Algebra.Field.Rat
import Regraft.Proofs.Meaning.Identities
import Regraft.Proofs.Meaning.Marks
import Regraft.Proofs.Meaning.Matching
import Regraft.Proofs.Rewriting.Walk

/-
  Standardising the variable of a normal hierarchy. A result of the rule has the density of `x` and one
  density around `x` changed, and so two occurrences of `x` shifted, whatever else depends on `x`
  (`recenters_of_result`). It is the change of variable `x := mu + tau * x` where nothing else does;
  with a second density around `x` it is another model (`exists_result_twoChildren`).
-/

universe k

namespace Regraft

open Search

variable {F : Facts} {es : List Tree} {t u p : Tree} {n : Nat} {name : String}

namespace Script

theorem speaks_filled (F : Facts) : Template.Speaks (Vocabulary.filled F) arithmetic where
  numbers _ := rfl
  operators _ _ _ _ := trivial

/-- The names that the sites share, the last first. -/
def hierarchyNames : List String := ["sigma", "y", "tau", "mu", "x"]

def hierarchySites (F : Facts) : List (List Tree → Tree → Tree → Prop) :=
  [Applies F [] hierarchyNames
    (.square (.div (.sub (.ref "x") (.ref "mu")) (.ref "tau"))) (.square (.ref "x")),
   Applies F [] hierarchyNames
    (.square (.div (.sub (.ref "y") (.ref "x")) (.ref "sigma")))
    (.square (.div (.sub (.ref "y") (.add (.ref "mu") (.mul (.ref "tau") (.ref "x"))))
      (.ref "sigma")))]

theorem hierarchySites_stable (F : Facts) : ∀ R ∈ hierarchySites F, Stable R := by
  unfold hierarchySites
  simp only [List.mem_cons, List.not_mem_nil, or_false, forall_eq_or_imp, forall_eq]
  exact ⟨applies_stable, applies_stable⟩

theorem recenterNormal_sound (F : Facts) :
    Search.RelationSound (Vocabulary.filled F) []
      (Together ["x", "mu", "tau", "y", "sigma"] (hierarchySites F))
      (Rule.recenterNormal.build []).relate := by
  have simple : ∀ name ∈ hierarchyNames, (Template.ref name).simple arithmetic hierarchyNames = true := by
    decide
  refine correlated_sound [] ["x", "mu", "tau", "y", "sigma"] _ (fun env names => ?_)
    (simple "y" (by decide)) (simple "x" (by decide))
  replace names : env.map Prod.fst = hierarchyNames := names
  have site : ∀ {name lhs rhs}, lhs.simple arithmetic (patternNames [] hierarchyNames) = true →
      rhs.simple arithmetic (patternNames [] hierarchyNames) = true →
        SiteSound (Vocabulary.filled F) (env.map Prod.snd) ((Rule.pattern name [] lhs rhs).build env)
          (Applies F [] hierarchyNames lhs rhs) := by
    intro name lhs rhs left right
    rw [← names] at left right ⊢
    rw [Rule.build]
    exact ⟨applies_stable, pattern_sound (speaks_filled F) name left right⟩
  rw [buildAll_eq_map]
  exact .cons (site (by decide) (by decide)) (.cons (site (by decide) (by decide)) .nil)

/-- The trees of the names make a hierarchy, in which one density becomes standard and one is shifted. -/
theorem exists_hierarchy (together : Together ["x", "mu", "tau", "y", "sigma"] (hierarchySites F) [] t u) :
    ∃ h : Hierarchy, h.Recenters F t u := by
  obtain ⟨new, length, mid, first, _, second, rfl⟩ := together
  match new, length with
  | [sigma, y, tau, mu, x], _ =>
    have bound : ∀ {bound : List (String × Tree)}, bound.map Prod.fst = ["witness"] →
        ∃ w, bound = [("witness", w)] := by
      rintro bound known
      match bound, known with
      | [(_, w)], rfl => exact ⟨w, rfl⟩
    refine ⟨⟨x, mu, tau, y, sigma⟩, mid, first.imp fun t u applies => ?_, second.imp fun t u applies => ?_⟩
    · obtain ⟨_, known, left, right⟩ := applies
      obtain ⟨w, rfl⟩ := bound known
      exact ⟨left, right⟩
    · obtain ⟨_, known, left, right⟩ := applies
      obtain ⟨w, rfl⟩ := bound known
      exact ⟨left, right⟩

end Script

namespace Hierarchy

variable {h : Hierarchy}

/-- A step at one position is a step of the whole tree. -/
theorem exists_recenters (step : Tree.Rewrites (fun t u => ∃ h : Hierarchy, h.Recenters F t u) t u) :
    ∃ h : Hierarchy, h.Recenters F t u := by
  induction step with
  | here step => exact step
  | @inside op args attrs i t u w operand _ rebuilt ih =>
    obtain ⟨h, mid, first, second⟩ := ih
    have there : (args.set i mid)[i]? = some mid :=
      List.getElem?_set_self (List.getElem?_eq_some_iff.mp operand).1
    refine ⟨h, .app op (args.set i mid) attrs, .inside operand first fun G => .refl _,
      .inside there second fun G => ?_⟩
    rw [List.set_set]
    exact rebuilt G

/-- The value after a step, where `x` occurs nowhere but at the marks. -/
theorem Marked.value_eq (marked : Marked.{k} F h n p t u) (input : h.x = .leaf (.input name))
    (nowhere : t.occurrences name = n) {K : Type k} [Field K] {I : Interpretation K} {ρ : Valuation K}
    (hI : I.Respects F) (arith : I.Arithmetic) (wide : I.value ρ h.tau ≠ 0) :
    I.value ρ u = I.value
      (ρ.withInput name (I.value ρ h.mu + I.value ρ h.tau * ρ.input name)) t := by
  have source := marked.source
  rw [input] at source
  have none : p.occurrences name = 0 := by
    have count := Tree.occurrences_subst name p
    rw [source, nowhere, marked.marks] at count
    exact Nat.left_eq_add.mp ((Nat.add_comm ..).trans count.symm).symm
  have atMark : I.value ρ h.shifted = I.value ρ h.mu + I.value ρ h.tau * ρ.input name := by
    rw [value_shifted arith, input]
    rfl
  have same : (fun _ : UInt32 => I.value (ρ.withInput name (I.value ρ h.shifted))
      (.leaf (.input name))) = (h.atMarks I ρ).var := funext fun _ => Function.update_self ..
  rw [marked.reads K I ρ hI arith wide, ← source, Interpretation.value_subst, ← atMark, same]
  exact (Tree.value_withInput none _).symm

end Hierarchy

namespace Walk

variable {ses ses' : Session} {t u : TermId}

variable (valid : ses.store.Valid) (stored : ses.store.Stored t)
  (ground : (ses.store.tree t).Ground) (filled : (ses.store.tree t).Filled)

include valid stored ground filled

theorem recenterNormal_yields :
    (start (Script.Rule.recenterNormal.build []) t ses).1.Yields
      (fun u => ∃ h : Hierarchy, h.Recenters ses.facts (ses.store.tree t) u)
      (start (Script.Rule.recenterNormal.build []) t ses).2 := by
  refine (start_yields (V := Vocabulary.filled ses.facts)
    (Script.together_stable (Script.hierarchySites_stable ses.facts))
    (Script.recenterNormal_sound ses.facts) rfl ⟨valid, stored, filled⟩ fun σ u step _ => ?_).2
  rw [ground.subst] at step
  exact Hierarchy.exists_recenters (step.imp fun t u => Script.exists_hierarchy)

/-- A result of the rule comes from one density of some `x` that becomes standard and one density around
    `x` that is shifted. If `x` is an input, just two of its occurrences stand for `mu + tau * x`
    afterwards, whatever the others are; if there are no others the step is a change of variable. -/
theorem recenters_of_result (ordered : ses.facts.OrderDensities)
    (result : Result (start (Script.Rule.recenterNormal.build []) t ses).2
      (start (Script.Rule.recenterNormal.build []) t ses).1 u ses') :
    ∃ h : Hierarchy, h.Recenters ses.facts (ses.store.tree t) (ses'.store.tree u) ∧
      ∀ name, h.x = .leaf (.input name) →
        (∃ p, Hierarchy.Marked.{k} ses.facts h 2 p (ses.store.tree t) (ses'.store.tree u)) ∧
        ((ses.store.tree t).occurrences name = 2 → ∀ (K : Type k) [Field K] (I : Interpretation K)
          (ρ : Valuation K), I.Respects ses.facts → I.Arithmetic → I.value ρ h.tau ≠ 0 →
            I.value ρ (ses'.store.tree u) = I.value
              (ρ.withInput name (I.value ρ h.mu + I.value ρ h.tau * ρ.input name))
              (ses.store.tree t)) := by
  obtain ⟨h, mid, first, second⟩ :=
    (result.holds (recenterNormal_yields valid stored ground filled)).2.tree
  refine ⟨h, ⟨mid, first, second⟩, fun name input => ?_⟩
  obtain ⟨p, marked⟩ := Hierarchy.Marked.of_both ordered input first second (.refl mid) ground
  exact ⟨⟨p, marked⟩, fun nowhere K _ I ρ hI arith wide =>
    marked.value_eq input nowhere hI arith wide⟩

omit valid stored ground filled

/-! ## One and two children -/

/-- The density of `x` and those of `y` and `y2` around `x`; then the sum of the first two, and last the
    sum of all three. -/
def densities : Session := .holding ⟨["mul", "add"], ["mul", "add"]⟩
  [.leaf (.input "x"), .leaf (.input "mu"), .leaf (.input "tau"), .leaf (.input "y"),
    .leaf (.input "y2"), .leaf (.input "s"), .app "sub" [⟨0⟩, ⟨1⟩] .unspecified,
    .app "div" [⟨6⟩, ⟨2⟩] .unspecified, .app "square" [⟨7⟩] .unspecified,
    .app "sub" [⟨3⟩, ⟨0⟩] .unspecified, .app "div" [⟨9⟩, ⟨5⟩] .unspecified,
    .app "square" [⟨10⟩] .unspecified, .app "sub" [⟨4⟩, ⟨0⟩] .unspecified,
    .app "div" [⟨12⟩, ⟨5⟩] .unspecified, .app "square" [⟨13⟩] .unspecified,
    .app "add" [⟨8⟩, ⟨11⟩] .unspecified, .app "add" [⟨11⟩, ⟨14⟩] .unspecified,
    .app "add" [⟨16⟩, ⟨8⟩] .unspecified]

/-- The operations on rational numbers. -/
def rationals : Interpretation ℚ where
  op
    | "add", xs => xs.sum
    | "mul", xs => xs.prod
    | "sub", [x, y] => x - y
    | "div", [x, y] => x / y
    | "square", [x] => x * x
    | _, _ => 0
  const _ _ := 0

/-- `x` is 3, drawn around 1 with width 2. -/
def sample : Valuation ℚ where
  var _ := 0
  input
    | "x" => 3
    | "mu" => 1
    | "tau" => 2
    | "s" => 1
    | _ => 0
  unknown _ := 0

/-- The first answer of the walk from a term rewrites different terms, and its output has a value. -/
def comesTo (t : TermId) (turns : Nat) (x : ℚ) : Bool :=
  let walk := start (Script.Rule.recenterNormal.build []) t densities
  match pull Search.turn turns walk.1.search walk.2 with
  | (.result s _, ses) =>
    (s.sites.map fun site => rationals.value sample (s.tree ses.store site.matched)).Nodup &&
      rationals.value sample (s.tree ses.store walk.1.output) == x
  | _ => false

theorem exists_result_of_comesTo {turns : Nat} {x : ℚ} (stored : densities.store.Stored t)
    (ground : (densities.store.tree t).Ground) (filled : (densities.store.tree t).Filled)
    (run : comesTo t turns x = true) : ∃ u ses,
      Result (start (Script.Rule.recenterNormal.build []) t densities).2
        (start (Script.Rule.recenterNormal.build []) t densities).1 u ses ∧
      rationals.value sample (ses.store.tree u) = x := by
  have yields := recenterNormal_yields (by decide +kernel) stored ground filled
  unfold comesTo at run
  dsimp only at run
  split at run
  · rename_i s rest ses pulled
    rw [Bool.and_eq_true, decide_eq_true_eq, beq_iff_eq] at run
    have distinct : (s.sites.map fun site => s.tree ses.store site.matched).Nodup := by
      refine .of_map (rationals.value sample) ?_
      rw [List.map_map]
      exact run.1
    obtain ⟨u, ses', result, tree⟩ := exists_result yields rfl pulled distinct
    exact ⟨u, ses', result, tree ▸ run.2⟩
  · cases run

/-- The density of `x` and that of `y` around `x`. -/
theorem densities_oneChild : densities.store.tree ⟨15⟩ = .app "add"
    [.density (.leaf (.input "x")) (.leaf (.input "mu")) (.leaf (.input "tau")),
      .density (.leaf (.input "y")) (.leaf (.input "x")) (.leaf (.input "s"))] .unspecified := rfl

theorem densities_twoChildren : densities.store.tree ⟨17⟩ = .app "add"
    [.app "add" [.density (.leaf (.input "y")) (.leaf (.input "x")) (.leaf (.input "s")),
        .density (.leaf (.input "y2")) (.leaf (.input "x")) (.leaf (.input "s"))] .unspecified,
      .density (.leaf (.input "x")) (.leaf (.input "mu")) (.leaf (.input "tau"))] .unspecified := rfl

theorem densities_oneChild_ground : (densities.store.tree ⟨15⟩).Ground := by
  rw [densities_oneChild]
  intro v
  simp [Tree.density, Tree.squared]

theorem densities_oneChild_filled : (densities.store.tree ⟨15⟩).Filled := by
  rw [densities_oneChild]
  simp [Tree.density, Tree.squared, Tree.filled_app, Tree.filled_input]

/-- With one child the step is a change of variable. -/
theorem exists_result_oneChild : ∃ u ses,
    Result (start (Script.Rule.recenterNormal.build []) ⟨15⟩ densities).2
      (start (Script.Rule.recenterNormal.build []) ⟨15⟩ densities).1 u ses ∧
    rationals.value sample (ses.store.tree u) = 58 ∧
    ∃ h : Hierarchy, h.Recenters densities.facts (densities.store.tree ⟨15⟩) (ses.store.tree u) ∧
      ∀ name, h.x = .leaf (.input name) →
        (∃ p, Hierarchy.Marked.{0} densities.facts h 2 p (densities.store.tree ⟨15⟩)
          (ses.store.tree u)) ∧
        ((densities.store.tree ⟨15⟩).occurrences name = 2 → ∀ (K : Type) [Field K]
          (I : Interpretation K) (ρ : Valuation K), I.Respects densities.facts → I.Arithmetic →
            I.value ρ h.tau ≠ 0 → I.value ρ (ses.store.tree u) = I.value
              (ρ.withInput name (I.value ρ h.mu + I.value ρ h.tau * ρ.input name))
              (densities.store.tree ⟨15⟩)) := by
  have stored : densities.store.Stored ⟨15⟩ := by decide +kernel
  have run : comesTo ⟨15⟩ 398 58 = true := by decide +kernel
  obtain ⟨u, ses, result, value⟩ :=
    exists_result_of_comesTo stored densities_oneChild_ground densities_oneChild_filled run
  have ordered : densities.facts.OrderDensities := by decide +kernel
  exact ⟨u, ses, result, value, recenters_of_result (by decide +kernel) stored
    densities_oneChild_ground densities_oneChild_filled ordered result⟩

theorem rationals_arithmetic : rationals.Arithmetic where
  add x y := by
    show [x, y].sum = x + y
    rw [List.sum_pair]
  sub _ _ := rfl
  mul x y := by
    show [x, y].prod = x * y
    rw [List.prod_pair]
  div _ _ := rfl
  square _ := rfl

/-- With two children one of them still depends on the `x` that was not shifted, and the step gives
    another model: for `x = 3` its value is not that of the model before for `x = 7`. -/
theorem exists_result_twoChildren : rationals.Arithmetic ∧ rationals.Respects densities.facts ∧
    ∃ u ses, Result (start (Script.Rule.recenterNormal.build []) ⟨17⟩ densities).2
        (start (Script.Rule.recenterNormal.build []) ⟨17⟩ densities).1 u ses ∧
      rationals.value sample (ses.store.tree u) = 67 ∧
      rationals.value (sample.withInput "x" (1 + 2 * 3)) (densities.store.tree ⟨17⟩) = 107 := by
  refine ⟨rationals_arithmetic, ?_, ?_⟩
  · exact Interpretation.respects_arithmetic (fun _ => rfl) fun _ => rfl
  · have stored : densities.store.Stored ⟨17⟩ := by decide +kernel
    have run : comesTo ⟨17⟩ 580 67 = true := by decide +kernel
    have ground : (densities.store.tree ⟨17⟩).Ground := by
      rw [densities_twoChildren]
      intro v
      simp [Tree.density, Tree.squared]
    have filled : (densities.store.tree ⟨17⟩).Filled := by
      rw [densities_twoChildren]
      simp [Tree.density, Tree.squared, Tree.filled_app, Tree.filled_input]
    obtain ⟨u, ses, result, value⟩ := exists_result_of_comesTo stored ground filled run
    exact ⟨u, ses, result, value, by decide +kernel⟩

end Walk

end Regraft
