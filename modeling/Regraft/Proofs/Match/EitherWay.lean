import Regraft.Proofs.Match.Decides
import Regraft.Proofs.Match.Exact

/-
  Matching either way round. Where no variable occurs twice, or one of the two terms is ground, there is an
  answer for two terms just if there is one for them the other way round (`exists_answer_comm`). In
  general there need not be: pairs are matched in the order of the operands on the right, and a product of
  two factors hands out its factors one by one, unless a variable of it has become a product by then
  (`crossedSums_oneWay`).
-/

namespace Regraft

namespace Search

open Regraft.Tree (Linear Equal Joins Matches Plain)

variable {ses : Session} {a b : TermId}

/-- Two plain terms of which one is ground, in a session that has not come to its last variable. -/
structure OneGround (ses : Session) (a b : TermId) : Prop where
  ground : (ses.store.tree a).Ground ∨ (ses.store.tree b).Ground
  plainLeft : Plain ses.facts (ses.store.tree a)
  plainRight : Plain ses.facts (ses.store.tree b)
  tidy : ses.store.Tidy
  roomy : ses.store.Roomy

theorem problem_empty (hv : ses.store.Valid) (ha : ses.store.Stored a) (hb : ses.store.Stored b)
    (ground : (ses.store.tree b).Ground) (plainA : Plain ses.facts (ses.store.tree a))
    (plainB : Plain ses.facts (ses.store.tree b)) : Problem ses .empty a b := by
  have none : ∀ v u, Subst.empty.get? v ≠ some u := fun v u bound => by
    rw [Subst.get?_empty] at bound
    cases bound
  exact ⟨hv, ha, hb, ⟨fun v u bound => absurd bound (none v u), fun v u bound => absurd bound (none v u)⟩,
    rfl, ground, plainA, plainB, fun v u bound => absurd bound (none v u)⟩

/-- With the ground term on the left, there is an answer just if some instance of the other term is equal
    to it. -/
theorem exists_answer_iff_of_ground_left (hv : ses.store.Valid) (ha : ses.store.Stored a)
    (hb : ses.store.Stored b) (h : OneGround ses a b) (ground : (ses.store.tree a).Ground) :
    (∃ s ses', Answer ses (.apply (.modulo a b) .empty) s ses') ↔
      ∃ θ, Equal ses.facts ((ses.store.tree b).subst θ) (ses.store.tree a) := by
  have left := Subst.tree_empty hv a
  have right := Subst.tree_empty hv b
  have facing : Facing ses.facts ses .empty a b :=
    ⟨rfl, .empty hv, rfl, ha, hb, left.symm ▸ ground⟩
  have gives := modulo_gives facing
  rw [ways, readPairs, List.map_singleton, left, right] at gives
  rw [← Tree.exists_matches_iff h.plainLeft ground h.plainRight]
  constructor
  · rintro ⟨s, ses', answer⟩
    obtain ⟨-, θ, matched, -⟩ := gives.answer answer
    exact ⟨θ, matched⟩
  · rintro ⟨θ, matched⟩
    obtain ⟨s, ses', answer, -⟩ := gives.exists_answer matched
    exact ⟨s, ses', answer⟩

theorem exists_answer_comm_of_ground (hv : ses.store.Valid) (ha : ses.store.Stored a)
    (hb : ses.store.Stored b) (h : OneGround ses a b) (ground : (ses.store.tree a).Ground) :
    (∃ s ses', Answer ses (.apply (.modulo a b) .empty) s ses') ↔
      ∃ s ses', Answer ses (.apply (.modulo b a) .empty) s ses' :=
  (exists_answer_iff_of_ground_left hv ha hb h ground).trans
    (problem_empty hv hb ha ground h.plainRight h.plainLeft).exists_answer_iff.symm

/-- Where no variable occurs twice in two terms, or where one of them is ground, there is an answer for them
    just if there is one for them the other way round. -/
theorem exists_answer_comm (hv : ses.store.Valid) (ha : ses.store.Stored a) (hb : ses.store.Stored b)
    (h : Linear [(ses.store.tree a, ses.store.tree b)] ∨ OneGround ses a b) :
    (∃ s ses', Answer ses (.apply (.modulo a b) .empty) s ses') ↔
      ∃ s ses', Answer ses (.apply (.modulo b a) .empty) s ses' := by
  rcases h with linear | one
  · have turned : Linear [(ses.store.tree b, ses.store.tree a)] := fun v =>
      (Nat.add_comm ((ses.store.tree b).varCount v) _).trans_le (linear v)
    have sound := Subst.Sound.empty hv
    rw [← Subst.tree_empty hv, ← Subst.tree_empty hv] at linear turned
    rw [exists_answer_iff_joins sound ha hb rfl linear, exists_answer_iff_joins sound hb ha rfl turned]
    exact Tree.joins_comm
  · rcases one.ground with ground | ground
    · exact exists_answer_comm_of_ground hv ha hb one ground
    · have other : OneGround ses b a :=
        ⟨one.ground.symm, one.plainRight, one.plainLeft, one.tidy, one.roomy⟩
      exact (exists_answer_comm_of_ground hv hb ha other ground).symm

/-- The sums `x + a` and `(y + b) + c`, last. -/
def linearSums : Session := .holding ⟨["add"], ["add"]⟩
  [.var 0, .var 1, .leaf (.input "a"), .leaf (.input "b"), .leaf (.input "c"),
    .app "add" [⟨0⟩, ⟨2⟩] .unspecified, .app "add" [⟨1⟩, ⟨3⟩] .unspecified,
    .app "add" [⟨6⟩, ⟨4⟩] .unspecified]

/-- Either way round, `y` is `a` and `x` is the sum of `b` and `c`. -/
theorem linearSums_comm : linearSums.store.Valid ∧
    Linear [(linearSums.store.tree ⟨5⟩, linearSums.store.tree ⟨7⟩)] ∧
      ((∃ s ses', Answer linearSums (.apply (.modulo ⟨5⟩ ⟨7⟩) .empty) s ses') ↔
        ∃ s ses', Answer linearSums (.apply (.modulo ⟨7⟩ ⟨5⟩) .empty) s ses') := by
  have valid : linearSums.store.Valid := by decide +kernel
  have x := valid.tree_var (show linearSums.store.term? ⟨0⟩ = some (.var 0) by decide +kernel)
  have y := valid.tree_var (show linearSums.store.term? ⟨1⟩ = some (.var 1) by decide +kernel)
  have a := valid.tree_leaf
    (show linearSums.store.term? ⟨2⟩ = some (.leaf (.input "a")) by decide +kernel)
  have b := valid.tree_leaf
    (show linearSums.store.term? ⟨3⟩ = some (.leaf (.input "b")) by decide +kernel)
  have c := valid.tree_leaf
    (show linearSums.store.term? ⟨4⟩ = some (.leaf (.input "c")) by decide +kernel)
  have xa := valid.tree_app (show linearSums.store.term? ⟨5⟩ =
    some (.app "add" [⟨0⟩, ⟨2⟩] .unspecified) by decide +kernel)
  have yb := valid.tree_app (show linearSums.store.term? ⟨6⟩ =
    some (.app "add" [⟨1⟩, ⟨3⟩] .unspecified) by decide +kernel)
  have ybc := valid.tree_app (show linearSums.store.term? ⟨7⟩ =
    some (.app "add" [⟨6⟩, ⟨4⟩] .unspecified) by decide +kernel)
  simp only [List.map_cons, List.map_nil, x, y, a, b, c] at xa yb ybc
  rw [yb] at ybc
  have linear : Linear [(linearSums.store.tree ⟨5⟩, linearSums.store.tree ⟨7⟩)] := by
    intro v
    simp only [xa, ybc, List.map_cons, List.map_nil, List.sum_cons, List.sum_nil, Tree.varCount_app,
      Tree.varCount_var, Tree.varCount_leaf]
    split
    · rename_i isX
      rw [if_neg (by rw [← isX]; decide)]
      decide
    · split <;> decide
  exact ⟨valid, linear, exists_answer_comm valid (by decide +kernel) (by decide +kernel) (.inl linear)⟩

/-! ## One way only -/

/-- The sums `-x + exp (x * e)` and `exp (y * c) + -(c * d)`, last. -/
def crossedSums : Session := .holding ⟨["add", "mul"], ["add", "mul"]⟩
  [.var 0, .var 1, .leaf (.input "c"), .leaf (.input "d"), .leaf (.input "e"),
    .app "neg" [⟨0⟩] .unspecified, .app "mul" [⟨0⟩, ⟨4⟩] .unspecified, .app "exp" [⟨6⟩] .unspecified,
    .app "add" [⟨5⟩, ⟨7⟩] .unspecified, .app "mul" [⟨1⟩, ⟨2⟩] .unspecified,
    .app "exp" [⟨9⟩] .unspecified, .app "mul" [⟨2⟩, ⟨3⟩] .unspecified, .app "neg" [⟨11⟩] .unspecified,
    .app "add" [⟨10⟩, ⟨12⟩] .unspecified]

/-- With the first sum on the right, `x` becomes `c * d` first, and `y` takes `d * e` of the product with
    `e`. With it on the left the products are matched first, when each has two factors. -/
theorem crossedSums_oneWay :
    (∃ s ses', Answer crossedSums (.apply (.modulo ⟨13⟩ ⟨8⟩) .empty) s ses') ∧
      ¬ ∃ s ses', Answer crossedSums (.apply (.modulo ⟨8⟩ ⟨13⟩) .empty) s ses' := by
  have found : (pull Search.turn 19 (.apply (.modulo ⟨13⟩ ⟨8⟩) .empty) crossedSums).1.isResult = true := by
    decide +kernel
  have none : (pull Search.turn 24 (.apply (.modulo ⟨8⟩ ⟨13⟩) .empty) crossedSums).1.isFinished = true := by
    decide +kernel
  exact ⟨exists_answer_of_isResult found, not_exists_answer_of_isFinished none⟩

end Search

end Regraft
