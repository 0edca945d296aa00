import Regraft.Proofs.Match.Nesting
import Regraft.Proofs.Rewriting.Descent
import Regraft.Proofs.Script.Sites

/-
  How many steps the identities take. Every result of a walk has fewer leaves and negations than the term
  that it started from (`Script.Rule.identities_start_halts`), so that no steps lead around in a circle, and
  a run without a step limit comes to its end after at most as many steps as there are leaves and negations
  (`Fixpoint.exists_finishes_identities`). It does not matter how many variables have been made: behind the
  last one a new variable may be one that is in use, but ground terms have none.
-/

namespace Regraft

open Regraft.Tree (Pattern Shrinks)
open Regraft.Tree.Pattern (IsIdentity)
open Relation (ReflTransGen TransGen)

/-! ## Patterns of the identities -/

theorem Tree.Pattern.IsIdentity.alone {p : Pattern} (h : IsIdentity p) : Search.Alone p :=
  ⟨fun _ => h.hasVar, h.own, h.plain.1.bare.filled, h.plain.2.bare.filled⟩

namespace Script

variable {ses : Session} {lhs rhs : Template} {p : Pattern}

/-- Templates in one name make a pattern in the two variables that come next. -/
theorem Template.buildPattern_counted (hv : ses.store.Valid) (ops : List String)
    (simple : lhs.simple ops ["witness", "x"] = true ∧ rhs.simple ops ["witness", "x"] = true)
    (eq : Template.pattern 0 ["x"] [1] [] lhs rhs = p) :
    let made := Template.buildPattern [] ["x"] lhs rhs (Session.fresh ses).1 (Session.fresh ses).2
    Search.Counted p ses (Session.fresh ses).1 made ∧ made.2.store.nextVar = ses.store.nextVar + 2 := by
  subst eq
  have l₁ := Session.fresh_later ses
  have hw : (Session.fresh ses).2.store.term? (Session.fresh ses).1 = some (.var ses.store.nextVar) :=
    Store.term?_fresh _
  have next₁ : (Session.fresh ses).2.store.nextVar = ses.store.nextVar + 1 := rfl
  generalize (Session.fresh ses).1 = w at hw ⊢
  generalize (Session.fresh ses).2 = ses₁ at l₁ hw next₁ ⊢
  have l₂ := Session.fresh_later ses₁
  have hx : (Session.fresh ses₁).2.store.term? (Session.fresh ses₁).1 = some (.var ses₁.store.nextVar) :=
    Store.term?_fresh _
  have next₂ : (Session.fresh ses₁).2.store.nextVar = ses₁.store.nextVar + 1 := rfl
  have extended : Env.extend [] ["x"] ses₁ =
    ([("x", (Session.fresh ses₁).1)], (Session.fresh ses₁).2) := rfl
  generalize (Session.fresh ses₁).1 = x at hx extended
  generalize (Session.fresh ses₁).2 = ses₂ at l₂ hx next₂ extended
  have stored : ∀ e ∈ [("witness", w), ("x", x)], ses₂.store.Stored e.2 :=
    List.forall_mem_cons.mpr ⟨l₂.grows.store.stored (Store.stored_of_term? hw),
      List.forall_mem_singleton.mpr (Store.stored_of_term? hx)⟩
  have both := Template.buildPattern_bothBuilt extended ((l₁.trans l₂).grows.store.valid hv) stored
    simple.1 simple.2
  dsimp only
  generalize Template.buildPattern [] ["x"] lhs rhs w ses₁ = made at both ⊢
  have later : ses₂.Later made.2 := both.keeps.later
  have l := (l₁.trans l₂).trans later
  have hv' := l.grows.store.valid hv
  have hw := (l₂.trans later).grows.store.keeps _ _ hw
  have numbers : Env.trees [("witness", w), ("x", x)] .empty made.2.store =
      Template.scope ses.store.nextVar ["x"] [ses.store.nextVar + 1] [] := by
    have var := hv'.tree_var (later.grows.store.keeps _ _ hx)
    rw [next₁] at var
    show [("witness", Subst.empty.tree _ w), ("x", Subst.empty.tree _ x)] = _
    rw [Subst.tree_empty hv', Subst.tree_empty hv', hv'.tree_var hw, var]
    rfl
  have renamed := rename_pattern (ses.store.nextVar + ·) 0 ["x"] [1] [] lhs rhs
  rw [UInt32.add_zero] at renamed
  refine ⟨⟨l, both.left, both.right, ?_, ?_, ?_⟩, ?_⟩
  · show made.2.store.term? w = some (.var (ses.store.nextVar + 0))
    rw [UInt32.add_zero]
    exact hw
  · rw [both.lhs, numbers]
    exact (congrArg Pattern.lhs renamed).symm
  · rw [both.rhs, numbers]
    exact (congrArg Pattern.rhs renamed).symm
  · rw [both.keeps.sameVars.next, next₂, next₁, UInt32.add_assoc]
    rfl

namespace Rule

/-- One of the identities makes a tree of another one. -/
def Cancelled (t u : Tree) : Prop := ∃ p, IsIdentity p ∧ p.Changes .standard t u

theorem pattern_ends_of_isIdentity (identity : IsIdentity p) (name : String) (ops : List String)
    (simple : lhs.simple ops ["witness", "x"] = true ∧ rhs.simple ops ["witness", "x"] = true)
    (eq : Template.pattern 0 ["x"] [1] [] lhs rhs = p) :
    Search.EndsWith .standard Cancelled ((Rule.pattern name ["x"] lhs rhs).build []).relate := by
  rw [Rule.build]
  refine (Search.pattern_ends name identity.alone fun ses hv => ?_).imp
    fun _ _ changes => ⟨p, identity, changes⟩
  exact (Template.buildPattern_counted hv ops simple eq).1

theorem mulSelf_ends : Search.EndsWith .standard Cancelled (mulSelf.build []).relate := by
  rw [mulSelf, Rule.build]
  refine (Search.patternInChain_ends (k := 2) "mul_self" IsIdentity.mulSelf.alone (by decide)
    fun ses hv => ?_).imp ?_
  · exact Template.buildPattern_counted hv ["mul", "square"] (by decide +kernel) rfl
  rintro t u (changes | ⟨op, isApp, -, changes⟩)
  · exact ⟨_, .mulSelf, changes⟩
  · obtain rfl : "mul" = op := isApp
    exact ⟨_, .mulSelfBeside, changes⟩

/-- The rule of all identities ends in ground terms. -/
theorem identities_ends : Search.EndsWith .standard Cancelled (identities.build []).relate := by
  rw [build_identities]
  refine Search.any_ends "identities" (List.forall_mem_map.mpr ?_)
  simp only [identityPatterns, List.forall_mem_cons, List.not_mem_nil, false_imp_iff, implies_true,
    and_true]
  refine ⟨?_, ?_, ?_, ?_, ?_, mulSelf_ends⟩
  · exact pattern_ends_of_isIdentity .addZero _ ["add"] (by decide +kernel) rfl
  · exact pattern_ends_of_isIdentity .mulOne _ ["mul"] (by decide +kernel) rfl
  · exact pattern_ends_of_isIdentity .subZero _ ["sub"] (by decide +kernel) rfl
  · exact pattern_ends_of_isIdentity .divOne _ ["div"] (by decide +kernel) rfl
  · exact pattern_ends_of_isIdentity .negNeg _ ["neg"] (by decide +kernel) rfl

variable {t : TermId} {P : Tree → Prop}

/-- The results of walks of the identities are ground again, and smaller than what they started from. -/
theorem identities_start_halts (facts : ses.facts = .standard)
    (here : Holds (fun u => u.Ground ∧ u.Filled) ses t)
    (step : ∀ u, u.Ground ∧ u.Filled → Shrinks (ses.store.tree t) u → P u) :
    ses.Later (Walk.start (identities.build []) t ses).2 ∧
      (Walk.start (identities.build []) t ses).1.Halts P (Walk.start (identities.build []) t ses).2 := by
  have stay : ∀ t u, Cancelled t u → t.Ground → u.Ground := by
    rintro t u ⟨p, identity, changes⟩
    exact changes.ground fun _ has => .inl (identity.hasVar has)
  refine Regraft.Rule.start_halts stay identities_ends facts here fun u holds rewrites => step u holds ?_
  refine rewrites.shrinks here.tree.1 ?_
  rintro t u ⟨p, identity, changes⟩ ground
  exact identity.shrinks_of_changes ground changes

end Rule

end Script

/-! ## Steps of the identities -/

/-- In some session with the facts, a walk of the rule over a term with one tree has a result with the
    other. -/
def Rule.Leads (rule : Rule) (F : Facts) (t u : Tree) : Prop :=
  ∃ ses a ses' b, ses.facts = F ∧ Holds (· = t) ses a ∧
    Walk.Result (Walk.start rule a ses).2 (Walk.start rule a ses).1 b ses' ∧ ses'.store.tree b = u

namespace Script.Rule

variable {t u : Tree}

theorem shrinks_of_leads (h : (identities.build []).Leads .standard t u) (ht : t.Ground ∧ t.Filled) :
    (u.Ground ∧ u.Filled) ∧ Shrinks t u := by
  obtain ⟨ses, a, ses', b, facts, here, result, rfl⟩ := h
  obtain rfl := here.tree
  obtain ⟨-, halts⟩ := identities_start_halts facts ⟨here.valid, here.stored, ht⟩
    (P := fun u => (u.Ground ∧ u.Filled) ∧ Shrinks (ses.store.tree a) u) fun _ => And.intro
  exact (halts.result result).tree

theorem shrinks_of_transGen (h : TransGen ((identities.build []).Leads .standard) t u)
    (ht : t.Ground ∧ t.Filled) : (u.Ground ∧ u.Filled) ∧ Shrinks t u := by
  induction h with
  | single leads => exact shrinks_of_leads leads ht
  | tail _ leads ih =>
    obtain ⟨hu, first⟩ := ih
    obtain ⟨hw, second⟩ := shrinks_of_leads leads hu
    exact ⟨hw, first.trans second⟩

/-- No steps of the identities lead from a ground tree to itself. -/
theorem not_leads_around (ht : t.Ground ∧ t.Filled) :
    ¬ TransGen ((identities.build []).Leads .standard) t t := fun around =>
  Nat.lt_irrefl _ (shrinks_of_transGen around ht).2.less

end Script.Rule

namespace Fixpoint

open Process (Finishes)

variable {ses : Session} {t : TermId}

/-- Without a step limit, a run of the identities over a ground term comes to its end, whatever its
    operators are applied to. It yields something and no error. What it yields leads no further, and is found
    after at most as many steps as the term has leaves and negations. For the results of a walk have no
    more leaves and no more negations than the term, and fewer of both together, so that no steps lead
    around in a circle. -/
theorem exists_finishes_identities (facts : ses.facts = .standard) (hv : ses.store.Valid)
    (ht : ses.store.Stored t) (ground : (ses.store.tree t).Ground) (filled : (ses.store.tree t).Filled) :
    let rule := Script.Rule.identities.build []
    (∃ rs ses', Finishes turn (start rule none t ses).2 (start rule none t ses).1 (rs.map .ok) ses' ∧
      rs ≠ [] ∧ ∀ r ∈ rs, rule.Rests .standard (ses'.store.tree r.term) ∧
        r.steps ≤ (ses.store.tree t).count .leaves + (ses.store.tree t).count (.uses "neg")) ∧
    (∀ u ses', Walk.Result (Walk.start rule t ses).2 (Walk.start rule t ses).1 u ses' →
      Shrinks (ses.store.tree t) (ses'.store.tree u)) ∧
    ∀ u, ReflTransGen (rule.Leads .standard) (ses.store.tree t) u →
      ¬ TransGen (rule.Leads .standard) u u := by
  intro rule
  have here : Holds (fun u => u.Ground ∧ u.Filled) ses t := ⟨hv, ht, ground, filled⟩
  refine ⟨?_, fun u ses' result => ?_, fun u reaches => ?_⟩
  · let weight (t : Tree) : Nat := t.count .leaves + t.count (.uses "neg")
    have descends : rule.Descends .standard (fun u => u.Ground ∧ u.Filled) weight := fun facts here =>
      Script.Rule.identities_start_halts facts here fun _ holds shrinks => ⟨holds, shrinks.less⟩
    obtain ⟨rs, ses', finishes, some, found⟩ := exists_finishes descends facts here
    refine ⟨rs, ses', finishes, some, fun r mem => ?_⟩
    have settled := (found r mem).tree
    exact ⟨settled.rests, Nat.le_trans (Nat.le_add_right ..) settled.within⟩
  · exact (Script.Rule.shrinks_of_leads ⟨ses, t, ses', u, facts, ⟨hv, ht, rfl⟩, result, rfl⟩ here.tree).2
  · refine Script.Rule.not_leads_around ?_
    rcases Relation.reflTransGen_iff_eq_or_transGen.mp reaches with rfl | leads
    · exact here.tree
    · exact (Script.Rule.shrinks_of_transGen leads here.tree).1

/-- The input `a` negated twice, times one and times `a`, as one product of three operands. -/
def threefold : Session := .holding .standard [.leaf (.input "a"), .app "neg" [⟨0⟩] .unspecified,
  .app "neg" [⟨1⟩] .unspecified, .leaf (.const (.scalar 1.0)),
  .app "mul" [⟨2⟩, ⟨3⟩, ⟨0⟩] .unspecified]

/-- The product has three leaves and two negations. -/
theorem exists_finishes_identities_threefold :
    let rule := Script.Rule.identities.build []
    (∃ rs ses', Finishes turn (start rule none ⟨4⟩ threefold).2 (start rule none ⟨4⟩ threefold).1
      (rs.map .ok) ses' ∧ rs ≠ [] ∧ ∀ r ∈ rs, rule.Rests .standard (ses'.store.tree r.term) ∧ r.steps ≤ 5) ∧
    (∀ u ses', Walk.Result (Walk.start rule ⟨4⟩ threefold).2 (Walk.start rule ⟨4⟩ threefold).1 u ses' →
      Shrinks (threefold.store.tree ⟨4⟩) (ses'.store.tree u)) ∧
    ∀ u, ReflTransGen (rule.Leads .standard) (threefold.store.tree ⟨4⟩) u →
      ¬ TransGen (rule.Leads .standard) u u := by
  have tree : threefold.store.tree ⟨4⟩ = .app "mul" [.app "neg" [.app "neg" [.leaf (.input "a")]
    .unspecified] .unspecified, .leaf (.const (.scalar 1.0)), .leaf (.input "a")] .unspecified := rfl
  have one : (Tree.number 1.0).Filled := (Tree.plain_number (F := .none) 1.0).bare.filled
  have filled : (threefold.store.tree ⟨4⟩).Filled := by
    rw [tree]
    simp [Tree.filled_app, Tree.filled_input, one]
  exact exists_finishes_identities rfl (by decide +kernel) (by decide +kernel)
    (tree ▸ fun v => by simp) filled

end Fixpoint

end Regraft
