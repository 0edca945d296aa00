import Regraft.Graph.Terms
import Regraft.Proofs.Meaning.Interpretation
import Regraft.Proofs.Rewriting.Fixpoint
import Regraft.Proofs.Rewriting.Pattern
import Regraft.Script.Library

/-
  The identities of the library keep values. In an interpretation where zero and one are neutral, two
  negations cancel and a square is a product, either side of a rule has the value of the other
  (`identities_sound`).
-/

namespace Regraft

/-- The identities of the library hold. -/
structure Interpretation.Identities {M : Type*} (I : Interpretation M) : Prop where
  add_zero : ∀ x, I.op "add" [x, I.const .scalar [0.0]] = x
  mul_one : ∀ x, I.op "mul" [x, I.const .scalar [1.0]] = x
  sub_zero : ∀ x, I.op "sub" [x, I.const .scalar [0.0]] = x
  div_one : ∀ x, I.op "div" [x, I.const .scalar [1.0]] = x
  neg_neg : ∀ x, I.op "neg" [I.op "neg" [x]] = x
  square : ∀ x, I.op "square" [x] = I.op "mul" [x, x]

/-- A label of the terms of graphs: an input, a constant that fills its shape, an operation by its own
    name, or a bundle of outputs. -/
def operationLabel : Tree.Label → Prop
  | .leaf (.const c) => c.Fills
  | .leaf (.input _) => True
  | .node op _ _ => op = outputsTag ∨ ∃ o, Op.ofName? op = some o ∧ o.name = op

def Vocabulary.operations (F : Facts) : Vocabulary F where
  has := operationLabel
  fills _ h := h
  nests _ _ _ h _ := h

namespace Script

variable {F : Facts} {M : Type*} {I : Interpretation M} {es : List Tree} {t u : Tree}

/-- The operators of the identities. -/
def arithmetic : List String := ["add", "sub", "mul", "div", "neg", "square"]

theorem speaks_arithmetic (F : Facts) : Template.Speaks (Vocabulary.operations F) arithmetic where
  numbers _ := rfl
  operators op mem n attrs := by
    refine Or.inr ?_
    have known : ∀ op ∈ arithmetic, (Op.ofName? op).map Op.name = some op := by decide
    obtain ⟨o, ho, name⟩ := Option.map_eq_some_iff.mp (known op mem)
    exact ⟨o, ho, name⟩

/-- Two trees have one value under every valuation, and the first is no bundle of outputs. -/
def SameValue (I : Interpretation M) (_ : List Tree) (t u : Tree) : Prop :=
  (∃ op, op ≠ outputsTag ∧ t.IsApp op) ∧ ∀ ρ, I.value ρ t = I.value ρ u

theorem sameValue_stable (I : Interpretation M) : Search.Stable (SameValue I) := by
  rintro σ es t u ⟨⟨op, ne, app⟩, same⟩
  refine ⟨⟨op, ne, Tree.isApp_subst app⟩, fun ρ => ?_⟩
  rw [Interpretation.value_subst, Interpretation.value_subst]
  exact same _

/-- A pattern whose sides have one value keeps values, also in a part of a chain. -/
theorem sameValue_of_applies {vars names : List String} {raw : String} {args : List Template}
    {rhs : Template} (hI : I.Respects F) (root : (OpName.normalize raw).name ≠ outputsTag)
    (sides : ∀ trees ρ, I.value ρ ((Template.op raw args).treeIn trees) = I.value ρ (rhs.treeIn trees))
    (h : AppliesInChain F vars names (.op raw args) rhs es t u) : SameValue I es t u := by
  have left : ∀ trees, ((Template.op raw args).treeIn trees).IsApp (OpName.normalize raw).name := by
    intro trees
    rw [Template.treeIn]
    rfl
  rcases h with ⟨bound, -, matched, replaced⟩ | ⟨bound, op, rest, -, app, matched, replaced⟩
  · refine ⟨⟨_, root, matched.isApp_iff.mpr (left _)⟩, fun ρ => ?_⟩
    rw [hI.value_eq matched, sides, hI.value_eq (replaced F)]
  · rw [Template.treeIn] at app
    obtain rfl : _ = op := app
    refine ⟨⟨_, root, matched.isApp_iff.mpr rfl⟩, fun ρ => ?_⟩
    rw [hI.value_eq matched, hI.value_eq (replaced F)]
    simp only [Interpretation.value_app, List.map_cons, sides]

/-! ## The rules -/

theorem value_op {raw : String} (known : raw ∈ arithmetic) (args : List Template)
    (trees : List (String × Tree)) (ρ : Valuation M) :
    I.value ρ ((Template.op raw args).treeIn trees) =
      I.op raw ((Template.treesIn trees args).map (I.value ρ)) := by
  have names : ∀ op ∈ arithmetic, (OpName.normalize op).name = op := by decide
  rw [Template.treeIn, Interpretation.value_app, names raw known]

theorem value_unary {raw : String} (known : raw ∈ arithmetic) (a : Template)
    (trees : List (String × Tree)) (ρ : Valuation M) :
    I.value ρ ((Template.op raw [a]).treeIn trees) = I.op raw [I.value ρ (a.treeIn trees)] := by
  rw [value_op known, Template.treesIn, Template.treesIn, List.map_singleton]

theorem value_binary {raw : String} (known : raw ∈ arithmetic) (a b : Template)
    (trees : List (String × Tree)) (ρ : Valuation M) :
    I.value ρ ((Template.op raw [a, b]).treeIn trees) =
      I.op raw [I.value ρ (a.treeIn trees), I.value ρ (b.treeIn trees)] := by
  rw [value_op known, Template.treesIn, Template.treesIn, Template.treesIn, List.map_cons,
    List.map_singleton]

theorem value_number {x y : Float} (h : canonical (canonical x) = y) (trees : List (String × Tree))
    (ρ : Valuation M) : I.value ρ ((Template.number x).treeIn trees) = I.const .scalar [y] := by
  rw [Template.treeIn, ← h]
  rfl

theorem pattern_keeps {vars : List String} {raw : String} {args : List Template} {rhs : Template}
    (name : String) (hI : I.Respects F) (root : (OpName.normalize raw).name ≠ outputsTag)
    (left : (Template.op raw args).simple arithmetic (patternNames vars []) = true)
    (right : rhs.simple arithmetic (patternNames vars []) = true)
    (sides : ∀ trees ρ, I.value ρ ((Template.op raw args).treeIn trees) = I.value ρ (rhs.treeIn trees)) :
    Search.RelationSound (Vocabulary.operations F) [] (SameValue I)
      ((Rule.pattern name vars (.op raw args) rhs).build []).relate := by
  have sound : Search.RelationSound (Vocabulary.operations F) (([] : Env).map Prod.snd)
      (Applies F vars (([] : Env).map Prod.fst) (.op raw args) rhs) _ :=
    pattern_sound (speaks_arithmetic F) name left right
  rw [Rule.build]
  exact sound.imp fun es t u h => sameValue_of_applies hI root sides (.inl h)

theorem patternInChain_keeps {vars : List String} {raw : String} {args : List Template}
    {rhs : Template} (name : String) (hI : I.Respects F)
    (root : (OpName.normalize raw).name ≠ outputsTag)
    (left : (Template.op raw args).simple arithmetic (patternNames vars []) = true)
    (right : rhs.simple arithmetic (patternNames vars []) = true)
    (sides : ∀ trees ρ, I.value ρ ((Template.op raw args).treeIn trees) = I.value ρ (rhs.treeIn trees)) :
    Search.RelationSound (Vocabulary.operations F) [] (SameValue I)
      ((Rule.patternInChain name vars (.op raw args) rhs).build []).relate := by
  have sound : Search.RelationSound (Vocabulary.operations F) (([] : Env).map Prod.snd)
      (AppliesInChain F vars (([] : Env).map Prod.fst) (.op raw args) rhs) _ :=
    patternInChain_sound (speaks_arithmetic F) name left right
  rw [Rule.build]
  exact sound.imp fun es t u h => sameValue_of_applies hI root sides h

/-- Each of the identities keeps values. -/
theorem identityRules_sound (hI : I.Respects F) (h : I.Identities) :
    ∀ rule ∈ Rule.identityRules, Search.RelationSound (Vocabulary.operations F) [] (SameValue I)
      (rule.build []).relate := by
  have zero : canonical (canonical 0.0) = 0.0 := by decide +kernel
  have one : canonical (canonical 1.0) = 1.0 := by decide +kernel
  unfold Rule.identityRules
  simp only [List.mem_cons, List.not_mem_nil, or_false, forall_eq_or_imp, forall_eq]
  refine ⟨?_, ?_, ?_, ?_, ?_, ?_⟩
  · refine pattern_keeps _ hI (by decide) (by decide) (by decide) fun trees ρ => ?_
    rw [value_binary (by decide), value_number zero, h.add_zero]
  · refine pattern_keeps _ hI (by decide) (by decide) (by decide) fun trees ρ => ?_
    rw [value_binary (by decide), value_number one, h.mul_one]
  · refine pattern_keeps _ hI (by decide) (by decide) (by decide) fun trees ρ => ?_
    rw [value_binary (by decide), value_number zero, h.sub_zero]
  · refine pattern_keeps _ hI (by decide) (by decide) (by decide) fun trees ρ => ?_
    rw [value_binary (by decide), value_number one, h.div_one]
  · refine pattern_keeps _ hI (by decide) (by decide) (by decide) fun trees ρ => ?_
    rw [value_unary (by decide), Template.neg, value_unary (by decide), h.neg_neg]
  · refine patternInChain_keeps _ hI (by decide) (by decide) (by decide) fun trees ρ => ?_
    rw [value_binary (by decide), Template.square, value_unary (by decide), h.square]

theorem buildAll_eq_map (env : Env) (rules : List Rule) :
    Rule.buildAll env rules = rules.map (Rule.build env) := by
  induction rules with
  | nil => rw [Rule.buildAll, List.map_nil]
  | cons rule rest ih => rw [Rule.buildAll, List.map_cons, ih]

/-- The identities together, and each on its own, keep values. -/
theorem identities_sound (hI : I.Respects F) (h : I.Identities) {rule : Rule}
    (mem : rule ∈ Rule.identities :: Rule.identityRules) :
    Search.RelationSound (Vocabulary.operations F) [] (SameValue I) (rule.build []).relate := by
  rcases List.mem_cons.mp mem with rfl | mem
  · rw [Rule.identities, Rule.build, buildAll_eq_map]
    refine Regraft.Rule.any_sound _ fun built mem => ?_
    obtain ⟨rule, known, rfl⟩ := List.mem_map.mp mem
    exact identityRules_sound hI h rule known
  · exact identityRules_sound hI h rule mem

end Script

end Regraft
