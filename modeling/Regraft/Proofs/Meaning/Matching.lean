import Regraft.Proofs.Match.Sound
import Regraft.Proofs.Meaning.Interpretation
import Regraft.Proofs.Search.Meets

/-
  Matching keeps the meaning of terms: every answer of a match modulo the facts makes the two terms
  equal in every interpretation in which the facts hold.
-/

namespace Regraft

/-- All labels but constants that do not fill their shapes. -/
def Vocabulary.filled (F : Facts) : Vocabulary F where
  has
    | .leaf (.const c) => c.Fills
    | _ => True
  fills _ h := h
  nests _ _ _ _ _ := trivial

namespace Search

variable {ses ses' : Session} {s s' : Subst} {a b : TermId}

/-- Every answer of a match keeps bindings and sites, and the two terms reified under it have the same
    value wherever the facts of the session hold. -/
theorem value_eq_of_modulo {M : Type*} (I : Interpretation M) (ρ : Valuation M)
    (hI : I.Respects ses.facts) (hs : s.Sound ses.store) (ha : ses.store.Stored a)
    (hb : ses.store.Stored b) (filledA : (s.tree ses.store a).Filled)
    (filledB : (s.tree ses.store b).Filled)
    (answer : Answer ses (.apply (.modulo a b) s) s' ses') :
    s.Extends s' ∧ s'.sites = s.sites ∧
      I.value ρ (s'.reified ses'.store a) = I.value ρ (s'.reified ses'.store b) := by
  have ready : Ready (Vocabulary.filled ses.facts) ses s a b :=
    ⟨rfl, hs, ha, hb, filledA, filledB⟩
  obtain ⟨g, matched⟩ := answer.meets fun n => modulo_meets _ n ready
  have sound := matched.advance.sound
  refine ⟨matched.advance.kept, matched.sites, ?_⟩
  rw [sound.reified_eq (g.store.stored ha), sound.reified_eq (g.store.stored hb)]
  exact hI.value_eq (matched.alike (a, b) (List.mem_singleton_self _))

/-! ## Two products -/

/-- The products `x * a` and `b * y`, last. -/
def twoProducts : Session := .holding ⟨["mul"], ["mul"]⟩
  [.var 0, .var 1, .leaf (.input "a"), .leaf (.input "b"), .app "mul" [⟨0⟩, ⟨2⟩] .unspecified,
    .app "mul" [⟨3⟩, ⟨1⟩] .unspecified]

/-- All operators are products of numbers. -/
def products : Interpretation Nat := ⟨fun _ xs => xs.prod, fun _ _ => 1⟩

theorem products_respects (F : Facts) : products.Respects F where
  permuted _ _ _ _ h := h.prod_eq
  folded _ _ _ := ⟨inferInstance, fun _ => rfl⟩

theorem exists_answer_twoProducts : ∃ s ses,
    Answer twoProducts (.apply (.modulo ⟨4⟩ ⟨5⟩) .empty) s ses ∧
      ∀ ρ : Valuation Nat, products.value ρ (s.reified ses.store ⟨4⟩) =
        products.value ρ (s.reified ses.store ⟨5⟩) := by
  have valid : twoProducts.store.Valid := by decide +kernel
  have x := valid.tree_var (show twoProducts.store.term? ⟨0⟩ = some (.var 0) by decide +kernel)
  have y := valid.tree_var (show twoProducts.store.term? ⟨1⟩ = some (.var 1) by decide +kernel)
  have a := valid.tree_leaf
    (show twoProducts.store.term? ⟨2⟩ = some (.leaf (.input "a")) by decide +kernel)
  have b := valid.tree_leaf
    (show twoProducts.store.term? ⟨3⟩ = some (.leaf (.input "b")) by decide +kernel)
  have xa := valid.tree_app (show twoProducts.store.term? ⟨4⟩ =
    some (.app "mul" [⟨0⟩, ⟨2⟩] .unspecified) by decide +kernel)
  have bY := valid.tree_app (show twoProducts.store.term? ⟨5⟩ =
    some (.app "mul" [⟨3⟩, ⟨1⟩] .unspecified) by decide +kernel)
  have sound := Subst.Sound.empty valid
  have found : ((pull Search.turn 9 (.apply (.modulo ⟨4⟩ ⟨5⟩) .empty) twoProducts).1 matches
    .result ..) = true := by decide +kernel
  match pulled : pull Search.turn 9 (.apply (.modulo ⟨4⟩ ⟨5⟩) .empty) twoProducts with
  | (.result s rest, ses) =>
    refine ⟨s, ses, .here pulled, fun ρ => ?_⟩
    refine (value_eq_of_modulo products ρ (products_respects _) sound (by decide +kernel)
      (by decide +kernel) ?_ ?_ (.here pulled)).2.2
    · rw [Subst.tree_empty valid, xa, List.map_cons, List.map_singleton, x, a]
      exact Tree.over_pair trivial (.var 0) (.leaf trivial)
    · rw [Subst.tree_empty valid, bY, List.map_cons, List.map_singleton, b, y]
      exact Tree.over_pair trivial (.leaf trivial) (.var 1)
  | (.finished _, ses) =>
    rw [pulled] at found
    cases found
  | (.outOfTurns _, ses) =>
    rw [pulled] at found
    cases found

end Search

end Regraft
