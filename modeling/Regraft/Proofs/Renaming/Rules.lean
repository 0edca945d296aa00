import Regraft.Proofs.Renaming.Goals

/-
  Rules that are made alike relate twins alike: patterns, in a chain or not (`pattern_relates`,
  `patternInChain_relates`), alternatives (`any_relates`), and sites that are rewritten together under a
  condition (`correlated_relates`). That the right session grows on the way, and so has room if it has in
  the end, is known of each rule by itself (`Rule.Builds`).
-/

namespace Regraft

/-- An application is no variable. -/
theorem Store.Roomy.of_app {st : Store} {op : String} {args : List TermId} {attrs : Attrs}
    (h : (Store.app op args attrs st).2.Roomy) : st.Roomy := fun known =>
  h (((Store.app_sameVars op args attrs).knows _).mpr known)

namespace Renaming

variable {ρ : Renaming} {p q : Sides} {t t' u u' w w' l l' r r' : TermId} {rule rule' : Rule}
  {rules rules' : List Rule}

/-- Rules that relate twins alike. The one on the right is built of elementary goals. -/
structure Rules (ρ : Renaming) (p : Sides) (rule rule' : Rule) : Prop where
  relates : ρ.Relates p rule.relate rule'.relate
  builds : rule'.Builds Tree.anyLabel p.right

theorem Rules.grow (h : ρ.Rules p rule rule') (g : p.Grow q) : ρ.Rules q rule rule' :=
  ⟨h.relates.grow g, h.builds.grows g.right⟩

theorem rules_grow (h : List.Forall₂ (ρ.Rules p) rules rules') (g : p.Grow q) :
    List.Forall₂ (ρ.Rules q) rules rules' := h.imp fun _ _ h => h.grow g

theorem rules_build (h : List.Forall₂ (ρ.Rules p) rules rules') :
    ∀ rule ∈ rules', rule.Builds Tree.anyLabel p.right := by
  induction h with
  | nil => exact nofun
  | cons first _ ih => exact List.forall_mem_cons.mpr ⟨first.builds, ih⟩

/-- Stored terms of the right session. -/
theorem Same.holds (h : ρ.Same p t t') (agree : ρ.Agree p) :
    p.right.store.Holds Tree.anyLabel t' := .of_stored agree.stores.right h.stored_right

/-! ## Patterns -/

theorem exactly_goals (ht : ρ.Same p t t') (hu : ρ.Same p u u') (hw : ρ.Same p w w')
    (hl : ρ.Same p l l') (hr : ρ.Same p r r') :
    ρ.Goals p (Rule.exactly t u w l r) (Rule.exactly t' u' w' l' r') :=
  conj_goals (.cons (modulo_goals ht hl) (.cons (eq_goals hw ht) (.cons (eq_goals hu hr) .nil)))

/-- Patterns and replacements that are made alike of twin witnesses. -/
def Makes (ρ : Renaming) (p : Sides) (build build' : TermId → SessionM (TermId × TermId)) : Prop :=
  ∀ q w w', p.Grow q → ρ.Same q w w' → ρ.Acts q ρ.SamePair (build w) (build' w')

variable {build build' : TermId → SessionM (TermId × TermId)}

theorem pattern_relates (name : String) (h : ρ.Makes p build build')
    (makes : Rule.Makes Tree.anyLabel p.right build') :
    ρ.Relates p (Rule.pattern name build).relate (Rule.pattern name build').relate := by
  intro q t t' u u' g ht hu agree
  have builds := Rule.pattern_builds name makes q.right t' u' g.right (ht.holds agree) (hu.holds agree)
  refine fresh_acts.bind ?_ (fun q₁ w w' g₁ hw => ?_) agree
  · obtain ⟨g', -, -⟩ := makes _ _ (g.right.trans (Session.fresh_grows q.right))
      (Rule.fresh_holds agree.stores.right)
    exact g'
  · refine (h q₁ w w' (g.trans g₁) hw).bind (.refl _) fun q₂ pair pair' g₂ same => Steady.acts ?_
    have later := g₁.trans g₂
    exact .pure (exactly_goals (ht.grow later) (hu.grow later) (hw.grow g₂) same.1 same.2)

theorem chainOperator_eq (agree : ρ.Agree p) (hl : ρ.Same p l l') :
    Rule.chainOperator p.right l' = Rule.chainOperator p.left l := by
  unfold Rule.chainOperator
  rw [agree.facts]
  rcases hl.app? with ⟨left, right⟩ | ⟨op, args, args', attrs, left, right, -⟩ <;> rw [left, right]

theorem chainGoal_acts (ht : ρ.Same p t t') (hu : ρ.Same p u u') (hw : ρ.Same p w w')
    (hl : ρ.Same p l l') (hr : ρ.Same p r r') :
    ρ.Acts p ρ.Goals (Script.chainGoal t u w l r) (Script.chainGoal t' u' w' l' r') := by
  intro agree room
  have whole := exactly_goals ht hu hw hl hr
  rw [Script.chainGoal_apply, chainOperator_eq agree hl] at room
  rw [Script.chainGoal_apply, Script.chainGoal_apply, chainOperator_eq agree hl]
  cases chain : Rule.chainOperator p.left l with
  | none => exact ⟨agree, .refl p, whole⟩
  | some op =>
    rw [chain] at room
    have pair : ∀ {q x x' y y'}, ρ.Same q x x' → ρ.Same q y y' → ρ.Steady q ρ.Same
        (Session.onStore (Store.app op [x, y] .unspecified))
        (Session.onStore (Store.app op [x', y'] .unspecified)) := fun hx hy =>
      app_steady (.cons hx (.cons hy .nil)) op .unspecified
    dsimp only [Session.onStore_apply] at room
    have before : (Session.fresh p.right).2.store.Roomy := .of_app (.of_app room)
    obtain ⟨agree₁, g₁, hrest⟩ := fresh_acts agree before
    obtain ⟨agree₂, g₂, hx⟩ := pair (hl.grow g₁) hrest agree₁
    obtain ⟨agree₃, g₃, hy⟩ := pair (hr.grow (g₁.trans g₂)) (hrest.grow g₂) agree₂
    have g := (g₁.trans g₂).trans g₃
    refine ⟨agree₃, g, disj_goals (.cons (whole.grow g) (.cons ?_ .nil))⟩
    exact exactly_goals (ht.grow g) (hu.grow g) (hw.grow g) (hx.grow g₃) hy

theorem patternInChain_relates (name : String) (h : ρ.Makes p build build')
    (makes : Rule.Makes Tree.anyLabel p.right build') :
    ρ.Relates p (Rule.patternInChain name build).relate
      (Rule.patternInChain name build').relate := by
  intro q t t' u u' g ht hu agree
  have unary : ∀ ses w', q.right.Grows ses → ses.store.Holds Tree.anyLabel w' →
      ses.Grows (build' w' ses).2 ∧ (build' w' ses).2.Grows (Script.chainGoal t' u' w'
        (build' w' ses).1.1 (build' w' ses).1.2 (build' w' ses).2).2 := by
    intro ses w' g' hw
    obtain ⟨made, hl, hr⟩ := makes ses w' (g.right.trans g') hw
    have later := (g'.trans made).store
    exact ⟨made, (Rule.chainGoal_built (fun _ _ _ _ _ => trivial) ((ht.holds agree).grows later)
      ((hu.holds agree).grows later) (hw.grows made.store) hl hr).1⟩
  suffices acts : ρ.Acts q ρ.Goals
      (Session.fresh >>= fun w => build w >>= fun pair => Script.chainGoal t u w pair.1 pair.2)
      (Session.fresh >>= fun w => build' w >>= fun pair => Script.chainGoal t' u' w pair.1 pair.2) from
    acts agree
  refine fresh_acts.bind ?_ fun q₁ w w' g₁ hw agree₁ => ?_
  · obtain ⟨made, chained⟩ := unary _ _ (Session.fresh_grows q.right)
      (Rule.fresh_holds agree.stores.right)
    exact made.trans chained
  · obtain ⟨-, chained⟩ := unary q₁.right w' g₁.right (hw.holds agree₁)
    refine (h q₁ w w' (g.trans g₁) hw).bind chained (fun q₂ pair pair' g₂ same => ?_) agree₁
    have later := g₁.trans g₂
    exact chainGoal_acts (ht.grow later) (hu.grow later) (hw.grow g₂) same.1 same.2

/-! ## Alternatives -/

theorem relateAll_acts (h : List.Forall₂ (ρ.Rules p) rules rules') (ht : ρ.Same p t t')
    (hu : ρ.Same p u u') : ρ.Acts p (fun q => List.Forall₂ (ρ.Goals q)) (Rule.relateAll t u rules)
      (Rule.relateAll t' u' rules') := by
  induction rules generalizing rules' p with
  | nil =>
    cases h
    exact Steady.acts (.pure .nil)
  | cons rule rest ih =>
    cases h with | @cons _ rule' _ rest' first others => ?_
    intro agree
    obtain ⟨g, -⟩ := first.builds p.right t' u' (.refl _) (ht.holds agree) (hu.holds agree)
    refine (first.relates p t t' u u' (.refl p) ht hu).bind ?_ (fun q goal goal' g' goals => ?_) agree
    · exact (Rule.relateAll_built (fun rule mem => (rules_build others rule mem).grows g)
        ((ht.holds agree).grows g.store) ((hu.holds agree).grows g.store)).1
    · refine (ih (rules_grow others g') (ht.grow g') (hu.grow g')).bind (.refl _)
        fun r _ _ g'' later => Steady.acts (.pure (.cons (goals.grow g'') later))

theorem any_relates (name : String) (h : List.Forall₂ (ρ.Rules p) rules rules') :
    ρ.Relates p (Rule.any name rules).relate (Rule.any name rules').relate := by
  intro q t t' u u' g ht hu
  exact (relateAll_acts (rules_grow h g) ht hu).bind (.refl _)
    fun r _ _ _ goals => Steady.acts (.pure (disj_goals goals))

/-! ## Sites -/

theorem sitesFrom_acts (h : List.Forall₂ (ρ.Rules p) rules rules') (ht : ρ.Same p t t')
    (hu : ρ.Same p u u') : ρ.Acts p (fun q => List.Forall₂ (ρ.Goals q)) (Goal.sitesFrom t u rules)
      (Goal.sitesFrom t' u' rules') := by
  induction rules generalizing rules' p t t' with
  | nil =>
    cases h
    exact Steady.acts (.pure .nil)
  | cons rule rest ih =>
    cases h with | cons first others => ?_
    cases others with
    | nil => exact Steady.acts (.pure (.cons (anywhere_goals first.relates ht hu) .nil))
    | cons second others =>
      refine fresh_acts.bind Search.sitesFrom_links.1 fun q v v' g hv => ?_
      have here := anywhere_goals (first.relates.grow g) (ht.grow g) hv
      exact (ih (rules_grow (.cons second others) g) hv (hu.grow g)).bind (.refl _)
        fun r _ _ g' later => Steady.acts (.pure (.cons (here.grow g') later))

theorem sites_goals (agree : ρ.Agree p) (h : List.Forall₂ (ρ.Rules p) rules rules')
    (ht : ρ.Same p t t') (hu : ρ.Same p u u') :
    ρ.Goals p (.sites rules t u) (.sites rules' t' u') := by
  cases h with
  | nil => exact eq_goals ht hu
  | @cons rule rule' rest rest' first others =>
    have all := List.Forall₂.cons first others
    show ρ.Goals p (.defer (Goal.sitesFrom t u (rule :: rest) >>= fun goals => pure (.conj goals)))
      (.defer (Goal.sitesFrom t' u' (rule' :: rest') >>= fun goals => pure (.conj goals)))
    refine defer_goals (fun q g => ?_) fun ses g => ?_
    · exact (sitesFrom_acts (rules_grow all g) (ht.grow g) (hu.grow g)).bind (.refl _)
        fun r _ _ _ goals => Steady.acts (.pure (conj_goals goals))
    · obtain ⟨g', links⟩ := @Search.sitesFrom_links ses u' t' rule' rest'
      have later := g.trans g'
      have held := (ht.holds agree).grows later.store
      refine ⟨g', .conj (Goal.links_built held.valid links (fun rule mem => ?_) held
        ((hu.holds agree).grows later.store))⟩
      exact (rules_build all rule mem).grows later

/-- Sites and a condition that are made alike. -/
theorem correlated_relates (name : String) {build build' : SessionM (List Rule × Goal)}
    (h : ∀ q, p.Grow q → ρ.Acts q (fun q x x' => List.Forall₂ (ρ.Rules q) x.1 x'.1 ∧
      ρ.Goals q x.2 x'.2) build build') :
    ρ.Relates p (Rule.correlated name build).relate (Rule.correlated name build').relate := by
  intro q t t' u u' g ht hu
  refine (h q g).bind (.refl _) fun r _ _ g' made => Steady.acts fun agree => ?_
  refine ⟨agree, .refl r, conj_goals (.cons ?_ (.cons made.2 .nil))⟩
  exact sites_goals agree made.1 (ht.grow g') (hu.grow g')

end Renaming

end Regraft
