import Regraft.Proofs.Match.Lighter
import Regraft.Proofs.Rewriting.Run
import Regraft.Proofs.Script.Makes
import Regraft.Script.Library

/-
  The results of a walk with a rule made of patterns: for every position of a term and every answer of
  the rule for the term there, the term with that answer's output in its place, each once and nothing else
  (`Rule.OfPatterns.exists_exact`).
-/

namespace Regraft

open Regraft.Tree (Pattern Effect)

/-! ## Positions -/

namespace Store

/-- The term at a path of another. -/
inductive At (st : Store) : List Nat → TermId → TermId → Prop
  | here {t : TermId} : At st [] t t
  | inside {op : String} {args : List TermId} {attrs : Attrs} {i : Nat} {path : List Nat}
      {t u x : TermId} (app : st.term? t = some (.app op args attrs)) (operand : args[i]? = some u)
      (below : At st path u x) : At st (i :: path) t x

/-- The term `x` at a path is replaced by `y`. Applications on the path keep their operators, their
    other operands and their attributes. -/
inductive Replaces (st : Store) (x y : TermId) : List Nat → TermId → TermId → Prop
  | here : Replaces st x y [] x y
  | inside {op : String} {args : List TermId} {attrs : Attrs} {i : Nat} {path : List Nat}
      {t u t' u' : TermId} (app : st.term? t = some (.app op args attrs))
      (operand : args[i]? = some u) (below : Replaces st x y path u u')
      (rebuilt : st.term? t' = some (.app op (args.set i u') attrs)) :
      Replaces st x y (i :: path) t t'

variable {st st' : Store} {t t' x y : TermId} {path : List Nat} {X Y : Tree}

/-- Nothing is put below a term when the store grows. -/
theorem At.of_grows (h : st'.At path t x) (hv : st.Valid) (ht : st.Stored t) (g : st.Grows st') :
    st.At path t x := by
  induction h with
  | here => exact .here
  | inside app operand _ ih =>
    obtain ⟨y, hy⟩ := term?_of_stored ht
    obtain rfl := Option.some.inj ((g.keeps _ _ hy).symm.trans app)
    exact .inside hy operand (ih (hv.stored hy (List.mem_of_getElem? operand)))

theorem At.ground (h : st.At path t x) (hv : st.Valid) (ground : (st.tree t).Ground) :
    (st.tree x).Ground := by
  induction h with
  | here => exact ground
  | inside app operand _ ih =>
    rw [hv.tree_app app] at ground
    exact ih (ground.of_mem (List.mem_map_of_mem (List.mem_of_getElem? operand)))

theorem At.stored (h : st.At path t x) (hv : st.Valid) (ht : st.Stored t) : st.Stored x := by
  induction h with
  | here => exact ht
  | inside app operand _ ih => exact ih (hv.stored app (List.mem_of_getElem? operand))

/-- Replacing is read off the trees. -/
theorem Valid.exists_replaces (hv : st.Valid) (ht : st.Stored t) (ht' : st.Stored t')
    (h : Tree.Replaces X Y path (st.tree t) (st.tree t')) :
    ∃ x y, st.At path t x ∧ st.Replaces x y path t t' ∧ st.tree x = X ∧ st.tree y = Y := by
  generalize eq : st.tree t = T at h
  generalize eq' : st.tree t' = T' at h
  induction h generalizing t t' with
  | here => exact ⟨t, t', .here, .here, eq, eq'⟩
  | @inside op ts attrs i path U U' operand below ih =>
    obtain ⟨args, app, rfl⟩ := hv.term?_of_tree_app eq
    obtain ⟨args', app', same⟩ := hv.term?_of_tree_app eq'
    rw [List.getElem?_map, Option.map_eq_some_iff] at operand
    obtain ⟨u, hu, rfl⟩ := operand
    have storedU := hv.stored app (List.mem_of_getElem? hu)
    obtain ⟨lt, -⟩ := List.getElem?_eq_some_iff.mp hu
    have length : args'.length = args.length := by
      simpa using (congrArg List.length same).symm
    obtain ⟨u', hu'⟩ : ∃ u', args'[i]? = some u' := ⟨_, List.getElem?_eq_getElem (length ▸ lt)⟩
    have at' : ∀ j : Nat, ((args.map st.tree).set i U')[j]? = (args'[j]?).map st.tree := by
      intro j
      rw [same, List.getElem?_map]
    have here : st.tree u' = U' := by
      have := at' i
      rw [List.getElem?_set_self (by rwa [List.length_map]), hu'] at this
      exact (Option.some.inj this).symm
    have others : args' = args.set i u' := by
      refine List.ext_getElem? fun j => ?_
      by_cases eq : i = j
      · rw [← eq, hu', List.getElem?_set_self lt]
      · have := at' j
        rw [List.getElem?_set_ne eq, List.getElem?_map] at this
        rw [List.getElem?_set_ne eq]
        match h : args[j]?, h' : args'[j]? with
        | none, none => rfl
        | none, some _ =>
          rw [h, h'] at this
          cases this
        | some _, none =>
          rw [h, h'] at this
          cases this
        | some w, some w' =>
          rw [h, h'] at this
          exact congrArg some (hv.eq_of_tree_eq (hv.stored app' (List.mem_of_getElem? h'))
            (hv.stored app (List.mem_of_getElem? h)) (Option.some.inj this).symm)
    obtain ⟨x, y, there, replaces, eqX, eqY⟩ :=
      ih storedU (hv.stored app' (List.mem_of_getElem? hu')) rfl here
    exact ⟨x, y, .inside app hu there, .inside app hu replaces (others ▸ app'), eqX, eqY⟩

/-- What is replaced in a tree is the tree of a term. -/
theorem Valid.exists_at {T : Tree} (hv : st.Valid) (h : Tree.Replaces X Y path (st.tree t) T) :
    ∃ x, st.At path t x ∧ st.tree x = X := by
  generalize eq : st.tree t = T' at h
  induction h generalizing t with
  | here => exact ⟨t, .here, eq⟩
  | inside operand _ ih =>
    obtain ⟨args, app, rfl⟩ := hv.term?_of_tree_app eq
    rw [List.getElem?_map, Option.map_eq_some_iff] at operand
    obtain ⟨u, hu, rfl⟩ := operand
    obtain ⟨x, there, eq⟩ := ih rfl
    exact ⟨x, .inside app hu there, eq⟩

theorem At.exists_replaces (h : st.At path t x) (hv : st.Valid) (Y : Tree) :
    ∃ T, Tree.Replaces (st.tree x) Y path (st.tree t) T := by
  induction h with
  | here => exact ⟨Y, .here⟩
  | inside app operand _ ih =>
    obtain ⟨T, replaces⟩ := ih
    rw [hv.tree_app app]
    refine ⟨_, .inside ?_ replaces⟩
    rw [List.getElem?_map, operand]
    rfl

/-- The place of a replaced term is told by the path. -/
theorem At.unique {z : TermId} (h : st.At path t x) (h' : st.At path t z) : x = z := by
  induction h with
  | here =>
    cases h'
    rfl
  | inside app operand _ ih =>
    cases h' with
    | inside app' operand' below' =>
      cases app.symm.trans app'
      cases operand.symm.trans operand'
      exact ih below'

end Store

/-! ## A rule on its own -/

variable {ses : Session} {rule : Rule} {t x : TermId} {u : Tree} {R : Tree → Set Effect}
  {outer : UInt32 → Prop}

/-- A rule takes a term to a tree: an answer from the empty substitution on, with a new variable for
    the output, reads the output as that. -/
def Rule.Derives (rule : Rule) (ses : Session) (x : TermId) (u : Tree) : Prop :=
  let output := Session.fresh ses
  let goal := rule.relate x output.1 output.2
  ∃ s ses', Search.Answer goal.2 (.apply goal.1 .empty) s ses' ∧ s.reified ses'.store output.1 = u

/-- The last variable is not reached, neither by a walk over a term nor by the rule on its own. -/
structure Rule.Room (rule : Rule) (ses : Session) (t : TermId) : Prop where
  walk : ∀ n, (rule.walk t n ses).2.store.Roomy
  alone : ∀ x, (rule.relate x (Session.fresh ses).1 (Session.fresh ses).2).2.store.Roomy

/-- What a rule derives are the results of its effects. -/
theorem Search.Relates.derives_iff (h : Relates True ses outer Tree.var rule.relate R)
    (hv : ses.store.Valid) (tidy : ses.store.Tidy) (hx : ses.store.Stored x)
    (ground : (ses.store.tree x).Ground)
    (room : (rule.relate x (Session.fresh ses).1 (Session.fresh ses).2).2.store.Roomy) :
    rule.Derives ses x u ↔ ∃ e ∈ R (ses.store.tree x), u = e.result := by
  unfold Rule.Derives
  dsimp only
  have l := Session.fresh_later ses
  have var : (Session.fresh ses).2.store.term? (Session.fresh ses).1 =
    some (.var ses.store.nextVar) := Store.term?_fresh _
  generalize (Session.fresh ses).1 = output at var room ⊢
  generalize (Session.fresh ses).2 = ses₁ at l var room ⊢
  have hv₁ := l.grows.store.valid hv
  have same := l.grows.store.tree_eq hv hx
  have outside : ¬ outer ses.store.nextVar := fun mem => tidy.not_knows_fresh (h.known _ mem)
  have spot : Search.Spot ses.facts ses₁ .empty x output ses.store.nextVar :=
    ⟨l.grows.facts, .empty hv₁, rfl, Subst.within_empty _, l.grows.store.stored hx,
      by rw [Subst.tree_empty hv₁, same]; exact ground, var, Subst.get?_empty _⟩
  obtain ⟨later, gives⟩ := h.gives l spot outside fun w _ => Subst.image_of_unbound (Subst.get?_empty w)
  have tidy₁ := l.tidy tidy (.of_grows later.grows.store room)
  have gives := gives tidy₁ room
  rw [Subst.tree_empty hv₁, same] at gives
  have read : ∀ {ses' s e}, e ∈ R (ses.store.tree x) → Affecting ses₁.store .empty ses.store.nextVar ses' s e →
      s.reified ses'.store output = e.result := by
    intro ses' s e mem solved
    have stored := Store.stored_of_term? var
    rw [solved.sound.reified_eq (solved.grows.stored stored), solved.tree_eq spot.sound stored,
      spot.sound.tree_var var, Subst.image_of_unbound spot.unbound, Tree.subst_var,
      (h.confined _ ground e mem).output_self outside]
  constructor
  · rintro ⟨s, ses', answer, rfl⟩
    obtain ⟨-, e, mem, solved⟩ := gives.answer answer
    exact ⟨e, mem, read mem solved⟩
  · rintro ⟨e, mem, rfl⟩
    obtain ⟨s, ses', answer, solved⟩ := gives.exists_answer mem
    exact ⟨s, ses', answer, read mem solved⟩

/-! ## Walks -/

/-- Some terms are what a rule makes of a term: at each position all that it derives there, put in the
    place of the term that was there, each once and nothing else. -/
structure Rule.Exact (rule : Rule) (ses : Session) (t : TermId) (results : List TermId)
    (ses' : Session) : Prop where
  once : results.Nodup
  sound : ∀ w ∈ results, ∃ path x y, ses.store.At path t x ∧ ses'.store.Replaces x y path t w ∧
    rule.Derives ses x (ses'.store.tree y)
  complete : ∀ path x u, ses.store.At path t x → rule.Derives ses x u →
    ∃ w ∈ results, ∃ y, ses'.store.Replaces x y path t w ∧ ses'.store.tree y = u

/-- A single site is consistent. -/
theorem Walk.consistent_single (p : Tree × Tree) : Tree.Consistent [p] := by
  intro q hq r hr _
  rw [List.mem_singleton.mp hq, List.mem_singleton.mp hr]

theorem Store.Conflict.not_consistent {st : Store} {d : List (Tree × Tree)} {t u w : TermId}
    (h : st.Conflict d t u w) (hv : st.Valid) : ¬ Tree.Consistent d := fun consistent =>
  h.ne (hv.eq_of_tree_eq h.stored.2.1 h.stored.2.2 (consistent _ h.first _ h.second rfl))

/-- A walk with a rule that records no sites of its own comes to its end without an error, and its results
    are what the rule makes of the term. -/
theorem Search.Relates.walks_exactly (h : Search.Relates True ses outer Tree.var rule.relate R)
    (plain : ∀ t, ∀ e ∈ R t, e.sites = []) (hv : ses.store.Valid) (tidy : ses.store.Tidy)
    (ht : ses.store.Stored t) (ground : (ses.store.tree t).Ground) (room : rule.Room ses t) :
    ∃ n results, (rule.walk t n ses).1 = (results.map .ok, true) ∧
      rule.Exact ses t results (rule.walk t n ses).2 := by
  obtain ⟨n, g, finished, reported⟩ := Rule.exists_reported h hv tidy ht ground room.walk
  refine ⟨n, ?_⟩
  generalize rule.walk t n ses = walked at g finished reported ⊢
  obtain ⟨⟨rs, done⟩, ses'⟩ := walked
  obtain rfl : done = true := finished
  change ses.Grows ses' at g
  change Walk.Reported _ [] ses' rs at reported
  have hv' := g.store.valid hv
  have same := g.store.tree_eq hv ht
  have told : ∀ e ∈ Tree.anywhere R (ses.store.tree t), ∀ r, ses'.Reports e r →
      ∃ w, r = .ok w ∧ ses'.store.Stored w ∧ ses'.store.tree w = e.result := by
    rintro ⟨binds, result, sites⟩ ⟨path, X, e, mem, -, -, rfl⟩ r reports
    cases r with
    | ok w => exact ⟨w, rfl, reports.2⟩
    | error r =>
      obtain ⟨_, _, _, -, conflict⟩ := reports
      refine absurd ?_ (conflict.not_consistent hv')
      rw [plain X e mem]
      exact Walk.consistent_single _
  have derives : ∀ {path x}, ses.store.At path t x → ∀ u,
      rule.Derives ses x u ↔ ∃ e ∈ R (ses.store.tree x), u = e.result := fun there u =>
    h.derives_iff hv tidy (there.stored hv ht) (there.ground hv ground) (room.alone _)
  have all : rs ∈ Set.range (List.map (Except.ok : TermId → Except RewriteError TermId)) := by
    rw [Set.range_list_map]
    intro r hr
    obtain ⟨e, mem, reports⟩ := reported.each r hr
    obtain ⟨w, rfl, -⟩ := told e mem r reports
    exact ⟨w, rfl⟩
  obtain ⟨results, rfl⟩ := all
  refine ⟨results, rfl, ?_, ?_, ?_⟩
  · have once := reported.once
    rwa [List.filterMap_map, show Except.toOption ∘ Except.ok = (some : TermId → Option TermId) from rfl,
      List.filterMap_some] at once
  · intro w hw
    obtain ⟨e, mem, reports⟩ := reported.each _ (List.mem_map_of_mem hw)
    obtain ⟨_, eq, stored, tree⟩ := told e mem _ reports
    cases eq
    obtain ⟨path, X, e', mem', replaces, -, -⟩ := mem
    rw [← same, ← tree] at replaces
    obtain ⟨x, y, there, replaced, rfl, result⟩ :=
      hv'.exists_replaces (g.store.stored ht) stored replaces
    have there := there.of_grows hv ht g.store
    refine ⟨path, x, y, there, replaced, (derives there _).mpr ⟨e', ?_, result⟩⟩
    rwa [g.store.tree_eq hv (there.stored hv ht)] at mem'
  · intro path x u there derived
    obtain ⟨e', mem', rfl⟩ := (derives there u).mp derived
    obtain ⟨T, replaces⟩ := there.exists_replaces hv e'.result
    have mem : (⟨e'.binds, T, e'.sites ++ [(ses.store.tree x, e'.result)]⟩ : Effect) ∈
        Tree.anywhere R (ses.store.tree t) := ⟨path, _, e', mem', replaces, rfl, rfl⟩
    obtain ⟨r, hr, reports⟩ := (reported.all _ mem).resolve_right (by simp)
    obtain ⟨w, rfl, stored, tree⟩ := told _ mem r reports
    have hw : w ∈ results := by simpa using hr
    change ses'.store.tree w = T at tree
    rw [← same, ← tree] at replaces
    obtain ⟨x', y, there', replaced, -, result⟩ :=
      hv'.exists_replaces (g.store.stored ht) stored replaces
    obtain rfl := (there'.of_grows hv ht g.store).unique there
    exact ⟨w, hw, y, replaced, result⟩

/-! ## Rules made of patterns -/

namespace Tree.Pattern

variable {F : Facts} {p : Pattern} {σ : UInt32 → Tree} {t : Tree}

/-- The witness is the tree that was matched, to the last detail. -/
theorem Binds.witness (h : p.Binds F t σ) (ground : t.Ground) : σ p.witness = t := by
  obtain ⟨τ, matched, agree, rfl⟩ := h
  by_cases has : p.lhs.HasVar p.witness
  · rw [Tree.andThen, matched.eq_of_agree has (agree has)]
    exact ground.subst _
  · rw [Tree.andThen, matched.eq_var (List.forall_mem_singleton.mpr has), subst_var, only_self]

theorem inst_var (p : Pattern) : p.inst .var = p := by rw [inst, subst_id, subst_id]

end Tree.Pattern

/-- A walk with a rule made of patterns comes to its end without an error. Its results are what the
    rule makes of the term, and each comes from a pattern, with the matched term for the witness. -/
theorem Rule.OfPatterns.exists_exact {ps : Set Pattern} (h : rule.OfPatterns ses ses.store.Knows ps)
    (hv : ses.store.Valid) (tidy : ses.store.Tidy) (ht : ses.store.Stored t)
    (ground : (ses.store.tree t).Ground) (room : rule.Room ses t) :
    (∃ n results, (rule.walk t n ses).1 = (results.map .ok, true) ∧
      rule.Exact ses t results (rule.walk t n ses).2) ∧
    ∀ path x u, ses.store.At path t x → rule.Derives ses x u → ∃ p ∈ ps, ∃ σ,
      p.Binds ses.facts (ses.store.tree x) σ ∧ u = p.rhs.subst σ ∧ σ p.witness = ses.store.tree x := by
  have relates := h.relates (E := Tree.var) (fun _ => id) fun _ => .inl rfl
  simp only [Pattern.inst_var] at relates
  refine ⟨relates.walks_exactly ?_ hv tidy ht ground room, fun path x u there derived => ?_⟩
  · intro t e he
    simp only [Set.mem_iUnion, exists_prop] at he
    obtain ⟨p, -, σ, -, rfl⟩ := he
    rfl
  · have ground := there.ground hv ground
    obtain ⟨e, he, rfl⟩ :=
      (relates.derives_iff hv tidy (there.stored hv ht) ground (room.alone x)).mp derived
    simp only [Set.mem_iUnion, exists_prop] at he
    obtain ⟨p, hp, σ, binds, rfl⟩ := he
    exact ⟨p, hp, σ, binds, rfl, binds.witness ground⟩

/-! ## A term negated three times -/

/-- The input `a`, negated once, twice and three times. -/
def threeNegations : Session := .holding .none [.leaf (.input "a"), .app "neg" [⟨0⟩] .unspecified,
  .app "neg" [⟨1⟩] .unspecified, .app "neg" [⟨2⟩] .unspecified]

/-- What is negated twice becomes what it was. -/
def doubleNegation : Pattern :=
  Script.Template.pattern 0 ["x"] [1] [] (.neg (.neg (.ref "x"))) (.ref "x")

theorem negNeg_ofPatterns : (Script.Rule.negNeg.build []).OfPatterns threeNegations
    threeNegations.store.Knows {doubleNegation} := by
  have lhs : (Script.Template.neg (.neg (.ref "x"))).simple ["neg"] ["witness", "x"] = true := by
    decide +kernel
  refine .pattern "neg_neg" (Script.Template.buildPattern_makes (by decide +kernel)
    nofun (fun _ => id) lhs (by decide +kernel) rfl (by decide)
    (List.forall_mem_cons.mpr ⟨by decide +kernel, List.forall_mem_singleton.mpr (by decide +kernel)⟩)) ?_
  intro v hv
  simp [doubleNegation, Script.Template.pattern, Script.Template.treeIn, Script.Template.treesIn,
    Script.Template.scope, Script.Template.neg] at hv ⊢
  exact .inl hv

/-- What a pattern stores does not depend on the term that it is matched with. -/
theorem Rule.pattern_relate_session (name : String) (build : TermId → SessionM (TermId × TermId))
    (x output : TermId) (ses : Session) : ((Rule.pattern name build).relate x output ses).2 =
      (build (Session.fresh ses).1 (Session.fresh ses).2).2 := rfl

/-- Two negations can be cancelled at two positions, with one result. -/
theorem exists_exact_threeNegations :
    ((Script.Rule.negNeg.build []).walk ⟨3⟩ 42 threeNegations).1 = ([.ok ⟨1⟩], true) ∧
    (∃ n results, ((Script.Rule.negNeg.build []).walk ⟨3⟩ n threeNegations).1 =
        (results.map .ok, true) ∧ (Script.Rule.negNeg.build []).Exact threeNegations ⟨3⟩ results
          ((Script.Rule.negNeg.build []).walk ⟨3⟩ n threeNegations).2) ∧
    ∀ path x u, threeNegations.store.At path ⟨3⟩ x →
      (Script.Rule.negNeg.build []).Derives threeNegations x u → ∃ p ∈ ({doubleNegation} : Set Pattern),
        ∃ σ, p.Binds threeNegations.facts (threeNegations.store.tree x) σ ∧ u = p.rhs.subst σ ∧
          σ p.witness = threeNegations.store.tree x := by
  have ground : (threeNegations.store.tree ⟨3⟩).Ground := by
    have tree : threeNegations.store.tree ⟨3⟩ = .app "neg" [.app "neg" [.app "neg"
      [.leaf (.input "a")] .unspecified] .unspecified] .unspecified := rfl
    rw [tree]
    intro v
    simp
  have ends : Walk.endsRoomy 42 (Walk.start (Script.Rule.negNeg.build []) ⟨3⟩ threeNegations).1
      (Walk.start (Script.Rule.negNeg.build []) ⟨3⟩ threeNegations).2 = true := by decide +kernel
  have room : (Script.Rule.negNeg.build []).Room threeNegations ⟨3⟩ := by
    refine ⟨Walk.roomy_of_endsRoomy ends, fun x => ?_⟩
    have made : ((Script.Rule.negNeg.build []).relate x (Session.fresh threeNegations).1
        (Session.fresh threeNegations).2).2 = _ := Rule.pattern_relate_session "neg_neg"
      (Script.Template.buildPattern [] ["x"] (.neg (.neg (.ref "x"))) (.ref "x")) _ _ _
    rw [made]
    decide +kernel
  exact ⟨by decide +kernel, negNeg_ofPatterns.exists_exact (by decide +kernel) (by decide +kernel)
    (by decide +kernel) ground room⟩

/-! ## Behind the last variable -/

/-- The terms `a`, `-a` and `exp (-a)`, and two variables, one of them close to the last. -/
def fewVariables : Session := (Session.onStore (Store.var 0xFFFFFFFC)
  (Session.onStore (Store.var 0) (.holding .none [.leaf (.input "a"), .app "neg" [⟨0⟩] .unspecified,
    .app "exp" [⟨1⟩] .unspecified])).2).2

/-- What is negated is squared, where the first variable stands for it. -/
def squareNegated : Rule :=
  (Script.Rule.pattern "square_negated" [] (.neg (.ref "x")) (.square (.ref "x"))).build [("x", ⟨3⟩)]

theorem squareNegated_ofPatterns : squareNegated.OfPatterns fewVariables fewVariables.store.Knows
    {⟨1, .app "neg" [.var 0] .unspecified, .app "square" [.var 0] .unspecified⟩} := by
  have x : fewVariables.store.tree ⟨3⟩ = .var 0 := rfl
  have valid : fewVariables.store.Valid := by decide +kernel
  have lhs : (Script.Template.neg (.ref "x")).simple ["neg", "square"] ["witness", "x"] = true := by
    decide +kernel
  have makes : Search.Makes fewVariables fewVariables.store.Knows
      (Script.Template.buildPattern [("x", ⟨3⟩)] [] (.neg (.ref "x")) (.square (.ref "x")))
      (Script.Template.pattern 1 [] [] _ _ _) :=
    Script.Template.buildPattern_makes valid
      (List.forall_mem_singleton.mpr ⟨by decide +kernel, fun v hv => by
        rw [x, Tree.hasVar_var] at hv
        subst hv
        decide +kernel⟩) (fun _ => id) lhs (by decide +kernel) rfl (by decide)
      (List.forall_mem_singleton.mpr (by decide +kernel))
  have made : Script.Template.pattern 1 [] [] (Script.Env.trees [("x", ⟨3⟩)] .empty fewVariables.store)
      (.neg (.ref "x")) (.square (.ref "x")) =
        ⟨1, .app "neg" [.var 0] .unspecified, .app "square" [.var 0] .unspecified⟩ := rfl
  rw [made] at makes
  exact .pattern "square_negated" makes fun v hv => .inl (by simpa using hv)

/-- The tree is the square of the input `a`. -/
def isSquareOfInput : Tree → Bool
  | .app op [.leaf (.input name)] attrs => op = "square" && name = "a" && attrs = .unspecified
  | _ => false

theorem eq_of_isSquareOfInput {t : Tree} (h : isSquareOfInput t = true) :
    t = .app "square" [.leaf (.input "a")] .unspecified := by
  unfold isSquareOfInput at h
  split at h
  · simp only [Bool.and_eq_true, decide_eq_true_eq] at h
    obtain ⟨⟨rfl, rfl⟩, rfl⟩ := h
    rfl
  · cases h

/-- The variables that the walk makes for an operand start over with the first one, which stands for
    something else. The walk has no result, although the rule applies to the operand. -/
theorem exists_derives_fewVariables :
    squareNegated.OfPatterns fewVariables fewVariables.store.Knows
      {⟨1, .app "neg" [.var 0] .unspecified, .app "square" [.var 0] .unspecified⟩} ∧
    (squareNegated.walk ⟨2⟩ 40 fewVariables).1 = ([], true) ∧
    fewVariables.store.At [0] ⟨2⟩ ⟨1⟩ ∧
    squareNegated.Derives fewVariables ⟨1⟩ (.app "square" [.leaf (.input "a")] .unspecified) := by
  refine ⟨squareNegated_ofPatterns, by decide +kernel, ?_, ?_⟩
  · exact .inside (show fewVariables.store.term? ⟨2⟩ = some (.app "exp" [⟨1⟩] .unspecified) by
      decide +kernel) rfl .here
  · have run : (match pull Search.turn 30 (.apply (squareNegated.relate ⟨1⟩ ⟨5⟩
        (Session.fresh fewVariables).2).1 .empty) (squareNegated.relate ⟨1⟩ ⟨5⟩
          (Session.fresh fewVariables).2).2 with
        | (.result s _, ses) => isSquareOfInput (s.reified ses.store ⟨5⟩)
        | _ => false) = true := by decide +kernel
    split at run
    · rename_i s rest ses pulled
      exact ⟨s, ses, .here pulled, eq_of_isSquareOfInput run⟩
    · cases run

end Regraft
