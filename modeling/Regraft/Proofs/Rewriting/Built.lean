import Regraft.Proofs.Rewriting.Evolves

/-
  Rules whose goals are built of elementary ones (`Rule.Builds`): patterns, in a chain or not,
  alternatives and correlated sites of such rules, wherever in a term they are tried.
-/

namespace Regraft

open Goal (Built)

variable {has : Tree.Label → Prop} {ses ses' : Session} {a b : TermId}

/-- The goals of a rule are built of elementary ones, in sessions later than `ses`. -/
def Rule.Builds (has : Tree.Label → Prop) (ses : Session) (rule : Rule) : Prop :=
  ∀ ses' t u, ses.Grows ses' → ses'.store.Holds has t → ses'.store.Holds has u →
    ses'.Grows (rule.relate t u ses').2 ∧ Built has (rule.relate t u ses').2 (rule.relate t u ses').1

theorem Rule.Builds.grows {rule : Rule} (h : rule.Builds has ses) (g : ses.Grows ses') :
    rule.Builds has ses' := fun ses'' t u g' => h ses'' t u (g.trans g')

namespace Goal

/-! ## Rewriting somewhere -/

theorem rewriteAnywhere_built {rule : Rule} (h : rule.Builds has ses) (ha : ses.store.Holds has a)
    (hb : ses.store.Holds has b) : Built has ses (.rewriteAnywhere rule a b) :=
  .anywhere (fun ses' t u g ht hu => (h ses' t u g ht hu).1)
    (fun ses' t u g ht hu => (h ses' t u g ht hu).2) ha hb

/-- The goals that link one site to the next. -/
theorem links_built {rules : List Rule} {goals : List Goal} (hv : ses.store.Valid)
    (links : Search.Links ses.store b rules a goals) (each : ∀ rule ∈ rules, rule.Builds has ses)
    (ha : ses.store.Holds has a) (hb : ses.store.Holds has b) : ∀ g ∈ goals, Built has ses g := by
  induction links with
  | last =>
    exact List.forall_mem_singleton.mpr
      (rewriteAnywhere_built (each _ (List.mem_singleton_self _)) ha hb)
  | next var _ ih =>
    rw [List.forall_mem_cons] at each
    have there : ses.store.Holds has _ := .of_var hv var
    exact List.forall_mem_cons.mpr ⟨rewriteAnywhere_built each.1 ha there, ih each.2 there⟩

theorem sites_built {rules : List Rule} (each : ∀ rule ∈ rules, rule.Builds has ses)
    (ha : ses.store.Holds has a) (hb : ses.store.Holds has b) : Built has ses (.sites rules a b) := by
  match rules with
  | [] => exact .eq ha hb
  | rule :: rest =>
    show Built has ses (.defer (Goal.conj <$> sitesFrom a b (rule :: rest)))
    refine .defer (fun ses' _ => Search.sitesFrom_links.1) fun ses' g => ?_
    obtain ⟨g', links⟩ := @Search.sitesFrom_links ses' b a rule rest
    have later := g.trans g'
    have held := ha.grows later.store
    exact .conj (links_built held.valid links (fun rule mem => (each rule mem).grows later) held
      (hb.grows later.store))

end Goal

/-! ## Rules -/

namespace Rule

variable {w l r : TermId}

theorem exactly_built (ha : ses.store.Holds has a) (hb : ses.store.Holds has b)
    (hw : ses.store.Holds has w) (hl : ses.store.Holds has l) (hr : ses.store.Holds has r) :
    Built has ses (exactly a b w l r) := by
  refine .conj ?_
  simp only [List.mem_cons, List.not_mem_nil, or_false, forall_eq_or_imp, forall_eq]
  exact ⟨.modulo ha hl, .eq hw ha, .eq hb hr⟩

/-- The making of a pattern and its replacement only adds terms over the labels. -/
def Makes (has : Tree.Label → Prop) (ses : Session) (build : TermId → SessionM (TermId × TermId)) :
    Prop :=
  ∀ ses' w, ses.Grows ses' → ses'.store.Holds has w → ses'.Grows (build w ses').2 ∧
    (build w ses').2.store.Holds has (build w ses').1.1 ∧
      (build w ses').2.store.Holds has (build w ses').1.2

variable {build : TermId → SessionM (TermId × TermId)}

theorem fresh_holds (hv : ses.store.Valid) :
    (Session.fresh ses).2.store.Holds has (Session.fresh ses).1 :=
  .of_var ((Session.fresh_grows ses).store.valid hv) (Store.term?_fresh _)

theorem pattern_builds (name : String) (h : Makes has ses build) :
    (pattern name build).Builds has ses := by
  intro ses' t u g ht hu
  have g₁ := Session.fresh_grows ses'
  have hw : (Session.fresh ses').2.store.Holds has _ := fresh_holds ht.valid
  show ses'.Grows (build (Session.fresh ses').1 (Session.fresh ses').2).2 ∧ Built has
    (build (Session.fresh ses').1 (Session.fresh ses').2).2
    (exactly t u (Session.fresh ses').1 (build (Session.fresh ses').1 (Session.fresh ses').2).1.1
      (build (Session.fresh ses').1 (Session.fresh ses').2).1.2)
  obtain ⟨g₂, hl, hr⟩ := h _ _ (g.trans g₁) hw
  have g' := (g₁.trans g₂).store
  exact ⟨g₁.trans g₂, exactly_built (ht.grows g') (hu.grows g') (hw.grows g₂.store) hl hr⟩

/-- A term beside the rest of a chain. -/
theorem pair_holds {op : String} (plain : has (.node op 2 .unspecified))
    (ht : ses.store.Holds has a) (hu : ses.store.Holds has b) :
    ses.Grows (Session.onStore (Store.app op [a, b] .unspecified) ses).2 ∧
      (Session.onStore (Store.app op [a, b] .unspecified) ses).2.store.Holds has
        (Session.onStore (Store.app op [a, b] .unspecified) ses).1 := by
  have g := Script.pair_grows op ht.stored hu.stored
  have made : (Session.onStore (Store.app op [a, b] .unspecified) ses).2.store.term?
    (Session.onStore (Store.app op [a, b] .unspecified) ses).1 = _ := Store.term?_app ..
  generalize Session.onStore (Store.app op [a, b] .unspecified) ses = p at g made ⊢
  have valid := g.store.valid ht.valid
  refine ⟨g, valid, Store.stored_of_term? made, ?_⟩
  rw [valid.tree_app made, List.map_cons, List.map_singleton]
  exact Tree.over_pair plain (ht.grows g.store).labels (hu.grows g.store).labels

theorem chainGoal_built (groups : Search.Groups ses.facts has) (ha : ses.store.Holds has a)
    (hb : ses.store.Holds has b) (hw : ses.store.Holds has w) (hl : ses.store.Holds has l)
    (hr : ses.store.Holds has r) : ses.Grows (Script.chainGoal a b w l r ses).2 ∧
      Built has (Script.chainGoal a b w l r ses).2 (Script.chainGoal a b w l r ses).1 := by
  have whole := exactly_built ha hb hw hl hr
  rw [Script.chainGoal_apply]
  split
  · exact ⟨.refl ses, whole⟩
  · rename_i op isChain
    obtain ⟨chain, args, attrs, root⟩ := Script.chainOperator_eq_some isChain
    have label := hl.labels
    rw [hl.valid.tree_app root, Tree.over_app] at label
    have plain := groups _ _ _ label.1 chain
    have g₁ := Session.fresh_grows ses
    have rest : (Session.fresh ses).2.store.Holds has _ := fresh_holds hl.valid
    dsimp only
    generalize Session.fresh ses = fresh at g₁ rest ⊢
    obtain ⟨g₂, left⟩ := pair_holds plain (hl.grows g₁.store) rest
    generalize Session.onStore (Store.app op [l, fresh.1] .unspecified) fresh.2 = first
      at g₂ left ⊢
    obtain ⟨g₃, right⟩ := pair_holds plain (hr.grows (g₁.trans g₂).store) (rest.grows g₂.store)
    generalize Session.onStore (Store.app op [r, fresh.1] .unspecified) first.2 = second
      at g₃ right ⊢
    have g := (g₁.trans g₂).trans g₃
    refine ⟨g, .disj ?_⟩
    simp only [List.mem_cons, List.not_mem_nil, or_false, forall_eq_or_imp, forall_eq]
    exact ⟨whole.grows g, exactly_built (ha.grows g.store) (hb.grows g.store) (hw.grows g.store)
      (left.grows g₃.store) right⟩

theorem patternInChain_builds (name : String) (groups : Search.Groups ses.facts has)
    (h : Makes has ses build) : (patternInChain name build).Builds has ses := by
  intro ses' t u g ht hu
  have g₁ := Session.fresh_grows ses'
  have hw : (Session.fresh ses').2.store.Holds has _ := fresh_holds ht.valid
  rw [Script.patternInChain_relate]
  obtain ⟨g₂, hl, hr⟩ := h _ _ (g.trans g₁) hw
  have g' := g₁.trans g₂
  obtain ⟨g₃, built⟩ := chainGoal_built ((g.trans g').facts ▸ groups) (ht.grows g'.store)
    (hu.grows g'.store) (hw.grows g₂.store) hl hr
  exact ⟨g'.trans g₃, built⟩

theorem relateAll_built {rules : List Rule} (each : ∀ rule ∈ rules, rule.Builds has ses)
    (ha : ses.store.Holds has a) (hb : ses.store.Holds has b) :
    ses.Grows (relateAll a b rules ses).2 ∧
      ∀ goal ∈ (relateAll a b rules ses).1, Built has (relateAll a b rules ses).2 goal := by
  induction rules generalizing ses with
  | nil => exact ⟨.refl ses, nofun⟩
  | cons rule rest ih =>
    rw [List.forall_mem_cons] at each
    obtain ⟨g, built⟩ := each.1 ses a b (.refl ses) ha hb
    obtain ⟨g', later⟩ := ih (fun rule mem => (each.2 rule mem).grows g) (ha.grows g.store)
      (hb.grows g.store)
    refine ⟨g.trans g', ?_⟩
    show ∀ goal ∈ (rule.relate a b ses).1 :: (relateAll a b rest (rule.relate a b ses).2).1,
      Built has (relateAll a b rest (rule.relate a b ses).2).2 goal
    exact List.forall_mem_cons.mpr ⟨built.grows g', later⟩

theorem any_builds (name : String) {rules : List Rule} (each : ∀ rule ∈ rules, rule.Builds has ses) :
    (any name rules).Builds has ses := by
  intro ses' t u g ht hu
  obtain ⟨g', built⟩ := relateAll_built (fun rule mem => (each rule mem).grows g) ht hu
  exact ⟨g', .disj built⟩

theorem correlated_builds (name : String) {build : SessionM (List Rule × Goal)}
    (h : ∀ ses', ses.Grows ses' → ses'.store.Valid → ses'.Grows (build ses').2 ∧
      (∀ rule ∈ (build ses').1.1, rule.Builds has (build ses').2) ∧
        Built has (build ses').2 (build ses').1.2) : (correlated name build).Builds has ses := by
  intro ses' t u g ht hu
  obtain ⟨g', sites, guard⟩ := h ses' g ht.valid
  show ses'.Grows (build ses').2 ∧ Built has (build ses').2
    (.conj [.sites (build ses').1.1 t u, (build ses').1.2])
  refine ⟨g', .conj ?_⟩
  simp only [List.mem_cons, List.not_mem_nil, or_false, forall_eq_or_imp, forall_eq]
  exact ⟨Goal.sites_built sites (ht.grows g'.store) (hu.grows g'.store), guard⟩

end Rule

end Regraft
