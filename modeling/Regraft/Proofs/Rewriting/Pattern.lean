import Regraft.Proofs.Match.Sound
import Regraft.Proofs.Rewriting.Anywhere
import Regraft.Proofs.Script.Template

/-
  What the rules that scripts describe relate. A pattern relates a tree that is alike the pattern,
  among some trees for its names, to the replacement among the same trees (`pattern_sound`); in a chain
  it may also take a part and keep the rest (`patternInChain_sound`); any of several rules relates what
  one of them does (`any_sound`).
-/

namespace Regraft

open Search

variable {F : Facts} {V : Vocabulary F} {Q : Session → Subst → Prop} {n : Nat}
  {ses ses' : Session} {st : Store} {s s' : Subst} {a b w l r : TermId} {env : List TermId}
  {R R' : List Tree → Tree → Tree → Prop} {relate : Relation}

namespace Search

theorem Related.imp (hR : ∀ es t u, R es t u → R' es t u) (h : Related V env R st s a b ses' s') :
    Related V env R' st s a b ses' s' := ⟨h.advance, h.sites, hR _ _ _ h.rel⟩

theorem RelationSound.imp (hR : ∀ es t u, R es t u → R' es t u) (h : RelationSound V env R relate) :
    RelationSound V env R' relate := by
  intro n ses s a b place ses' g
  obtain ⟨g', related⟩ := h n place ses' g
  exact ⟨g', related.imp fun ses'' s' => Related.imp hR⟩

/-- Nothing is required of the sites, and the earlier ones are kept. -/
theorem sitesStored_of_eq (g : st.Grows ses.store) (sites : s'.sites = s.sites)
    (h : s.SitesStored st) : s'.SitesStored ses.store := by
  intro site hsite
  rw [sites] at hsite
  exact ⟨g.stored (h site hsite).1, g.stored (h site hsite).2⟩

end Search

/-! ## Goals -/

namespace Goal

theorem disj_meets {goals : List Goal} (h : ∀ g ∈ goals, ∀ n, MeetsFor Q n ses (.apply g s)) :
    MeetsFor Q n ses (.apply (.disj goals) s) := by
  match goals with
  | [] =>
    cases n with
    | zero => trivial
    | succ n => exact .apply fun ses' g => ⟨.refl ses', .empty⟩
  | [g] => exact h g (.head _) n
  | g :: g' :: rest =>
    cases n with
    | zero => trivial
    | succ n =>
      refine .apply fun ses' grows => ⟨.refl ses', ?_⟩
      show MeetsFor Q n ses' (union ((g :: g' :: rest).map fun g => .apply g s))
      refine .union fun branch mem => ?_
      obtain ⟨goal, hgoal, rfl⟩ := List.mem_map.mp mem
      exact (h goal hgoal n).grows grows

end Goal

/-- What the answers of a pattern satisfy. -/
structure Matching (V : Vocabulary F) (st : Store) (s : Subst) (a b w l r : TermId) (ses' : Session)
    (s' : Subst) : Prop where
  advance : Subst.Advance V.has st s ses'.store s'
  sites : s'.sites = s.sites
  matched : Tree.Alike F (s'.tree ses'.store a) (s'.tree ses'.store l)
  witness : ∀ G, Tree.Alike G (s'.tree ses'.store w) (s'.tree ses'.store a)
  replaced : ∀ G, Tree.Alike G (s'.tree ses'.store b) (s'.tree ses'.store r)

/-- A term that is stored, with labels of the vocabulary. -/
structure Stands (V : Vocabulary F) (st : Store) (s : Subst) (t : TermId) : Prop where
  stored : st.Stored t
  labels : (s.tree st t).Over V.has

theorem Stands.advance {t : TermId} (h : Stands V st s t)
    (adv : Subst.Advance V.has st s ses'.store s') : Stands V ses'.store s' t :=
  ⟨adv.grows.stored h.stored, adv.labels t h.stored h.labels⟩

/-- Any two terms that stand at a place of a search make a place. -/
theorem Ready.of_stands {t u : TermId} (h : Ready V ses s a b) (ht : Stands V ses.store s t)
    (hu : Stands V ses.store s u) : Ready V ses s t u :=
  ⟨h.facts, h.sound, ht.stored, hu.stored, ht.labels, hu.labels⟩

theorem Ready.standsLeft (h : Ready V ses s a b) : Stands V ses.store s a := ⟨h.left, h.overLeft⟩

theorem Ready.standsRight (h : Ready V ses s a b) : Stands V ses.store s b := ⟨h.right, h.overRight⟩

/-- The pattern matches, then the witness is the input and the output the replacement. -/
theorem Rule.exactly_meets (h : Ready V ses s a b) (hw : Stands V ses.store s w)
    (hl : Stands V ses.store s l) (hr : Stands V ses.store s r) :
    MeetsFor (Matching V ses.store s a b w l r) n ses (.apply (Rule.exactly a b w l r) s) := by
  cases n with
  | zero => trivial
  | succ n =>
    refine .apply fun ses' g => ⟨.refl ses', ?_⟩
    show MeetsFor _ n ses' (bind (bind (.apply (.modulo a l) s) (.eq w a)) (.eq b r))
    have start : Subst.Advance V.has ses.store s ses'.store s := .of_grows h.sound g.store
    have ready := h.grows g
    have both : MeetsFor (fun ses₂ s₂ => Subst.Advance V.has ses.store s ses₂.store s₂ ∧
        s₂.sites = s.sites ∧ Tree.Alike F (s₂.tree ses₂.store a) (s₂.tree ses₂.store l) ∧
        ∀ G, Tree.Alike G (s₂.tree ses₂.store w) (s₂.tree ses₂.store a)) n ses'
        (bind (.apply (.modulo a l) s) (.eq w a)) := by
      refine (modulo_meets V n (ready.of_stands ready.standsLeft (hl.advance start))).bind ?_
      intro ses₁ s₁ g₁ matched
      have ready₁ := ready.advance g₁ matched.advance
      have stands := ((hw.advance start).advance matched.advance)
      refine (Goal.eq_meets (ready₁.of_stands stands ready₁.standsLeft)).imp ?_
      intro ses₂ s₂ equated
      refine ⟨(start.trans matched.advance).trans equated.advance,
        equated.sites.trans matched.sites, ?_, equated.alike⟩
      exact equated.advance.alike ready₁.sound ready₁.left
        ((hl.advance start).advance matched.advance).stored
        (matched.alike (a, l) (List.mem_singleton_self _))
    refine both.bind fun ses₂ s₂ g₂ ⟨adv, sites, matched, witness⟩ => ?_
    have ready₂ := h.advance (g.trans g₂) adv
    refine (Goal.eq_meets (ready₂.of_stands ready₂.standsRight (hr.advance adv))).imp ?_
    intro ses₃ s₃ equated
    refine ⟨adv.trans equated.advance, equated.sites.trans sites, ?_, fun G => ?_, equated.alike⟩
    · exact equated.advance.alike ready₂.sound ready₂.left (hl.advance adv).stored matched
    · exact equated.advance.alike ready₂.sound (hw.advance adv).stored ready₂.left (witness G)

/-! ## Patterns -/

namespace Script

/-- A tree is alike a pattern, and the other is its replacement, among some trees for the names. -/
def Applies (F : Facts) (vars names : List String) (lhs rhs : Template) (es : List Tree)
    (t u : Tree) : Prop :=
  ∃ bound : List (String × Tree), bound.map Prod.fst = "witness" :: vars.reverse ∧
    Tree.Alike F t (lhs.treeIn (bound ++ names.zip es)) ∧
    ∀ G, Tree.Alike G u (rhs.treeIn (bound ++ names.zip es))

/-- The same for a part of a chain whose rest is kept. -/
def AppliesToPart (F : Facts) (vars names : List String) (lhs rhs : Template) (es : List Tree)
    (t u : Tree) : Prop :=
  ∃ (bound : List (String × Tree)) (op : String) (rest : Tree),
    bound.map Prod.fst = "witness" :: vars.reverse ∧
    (lhs.treeIn (bound ++ names.zip es)).IsApp op ∧
    Tree.Alike F t (.app op [lhs.treeIn (bound ++ names.zip es), rest] .unspecified) ∧
    ∀ G, Tree.Alike G u (.app op [rhs.treeIn (bound ++ names.zip es), rest] .unspecified)

/-- A pattern applies to all of a tree or to a part of a chain. -/
def AppliesInChain (F : Facts) (vars names : List String) (lhs rhs : Template) (es : List Tree)
    (t u : Tree) : Prop :=
  Applies F vars names lhs rhs es t u ∨ AppliesToPart F vars names lhs rhs es t u

variable {ops vars names : List String} {lhs rhs : Template} {outer : Env}

theorem substAll_append_zip (σ : UInt32 → Tree) (bound : List (String × Tree)) (es : List Tree) :
    Template.substAll σ (bound ++ names.zip es) =
      Template.substAll σ bound ++ names.zip (es.map (Tree.subst σ)) := by
  unfold Template.substAll
  rw [List.map_append, List.zip_map_right]
  rfl

theorem map_fst_substAll (σ : UInt32 → Tree) (bound : List (String × Tree)) :
    (Template.substAll σ bound).map Prod.fst = bound.map Prod.fst := by
  unfold Template.substAll
  rw [List.map_map]
  rfl

theorem applies_stable : Stable (Applies F vars names lhs rhs) := by
  rintro σ es t u ⟨bound, known, left, right⟩
  refine ⟨Template.substAll σ bound, (map_fst_substAll σ bound).trans known, ?_, fun G => ?_⟩
  · rw [← substAll_append_zip, ← Template.treeIn_subst]
    exact left.subst σ
  · rw [← substAll_append_zip, ← Template.treeIn_subst]
    exact (right G).subst σ

/-- A pattern and its replacement are built: both stand in the store from now on. -/
structure Prepared (V : Vocabulary F) (outer : Env) (vars : List String) (lhs rhs : Template)
    (s : Subst) (w : TermId) (ses : Session) (r : (TermId × TermId) × Session) : Prop where
  grows : ses.Grows r.2
  witness : Stands V r.2.store s w
  left : Stands V r.2.store s r.1.1
  right : Stands V r.2.store s r.1.2
  trees : ∃ bound : Env, bound.map Prod.fst = "witness" :: vars.reverse ∧
    ∀ st, r.2.store.Grows st → ∀ s : Subst, s.Sound st →
      s.tree st r.1.1 = lhs.treeIn ((bound ++ outer).trees s st) ∧
      s.tree st r.1.2 = rhs.treeIn ((bound ++ outer).trees s st)

/-- The names of a pattern. -/
abbrev patternNames (vars names : List String) : List String := "witness" :: vars.reverse ++ names

theorem prepared (hV : Template.Speaks V ops)
    (left : lhs.simple ops (patternNames vars (outer.map Prod.fst)) = true)
    (right : rhs.simple ops (patternNames vars (outer.map Prod.fst)) = true)
    (h : Place V (outer.map Prod.snd) ses s a b) (hw : Stands V ses.store s w) :
    Prepared V outer vars lhs rhs s w ses (Template.buildPattern outer vars lhs rhs w ses) := by
  obtain ⟨news, extended, known, g, new⟩ := Env.extend_spec outer vars ses
  have place := h.grows g
  have witness := hw.advance (Subst.Advance.of_grows h.ready.sound g.store)
  generalize made : outer.extend vars ses = extension at extended g new place witness
  obtain ⟨all, ses₁⟩ := extension
  obtain rfl : all = news ++ outer := extended
  let env : Env := ("witness", w) :: news ++ outer
  have pattern : Template.buildPattern outer vars lhs rhs w ses =
      (((lhs.build env ses₁).1, (rhs.build env (lhs.build env ses₁).2).1),
        (rhs.build env (lhs.build env ses₁).2).2) := by
    show (((lhs.build (("witness", w) :: (outer.extend vars ses).1) (outer.extend vars ses).2).1, _),
      _) = _
    rw [made]
    rfl
  have names : env.map Prod.fst = patternNames vars (outer.map Prod.fst) := by
    rw [patternNames, ← known, List.map_append, List.map_cons]
  have stands : ∀ e ∈ env, Stands V ses₁.store s e.2 := by
    intro e he
    rcases List.mem_cons.mp he with rfl | he
    · exact witness
    · rcases List.mem_append.mp he with he | he
      · obtain ⟨v, hv⟩ := new e he
        exact ⟨Store.stored_of_term? hv, place.over_var hv⟩
      · have mem := List.mem_map_of_mem (f := Prod.snd) he
        exact ⟨place.stored _ mem, place.labels _ mem⟩
  have first := Template.build_built (fun e he => (stands e he).stored) (names ▸ left)
  have second := Template.build_built
    (fun e he => first.grows.store.stored (stands e he).stored) (names ▸ right)
  have first := first.later second.grows
  rw [pattern]
  have adv : Subst.Advance V.has ses₁.store s (rhs.build env (lhs.build env ses₁).2).2.store s :=
    .of_grows place.ready.sound first.grows.store
  have later : ∀ e ∈ env.trees s (rhs.build env (lhs.build env ses₁).2).2.store,
      e.2.Over V.has := by
    intro e he
    obtain ⟨e, mem, rfl⟩ := List.mem_map.mp he
    exact ((stands e mem).advance adv).labels
  have trees : ∀ st : Store, (env.trees s st).map Prod.fst = env.map Prod.fst := by
    intro st
    unfold Env.trees
    rw [List.map_map]
    rfl
  refine ⟨g.trans first.grows, witness.advance adv, ⟨first.stored, ?_⟩, ⟨second.stored, ?_⟩,
    ("witness", w) :: news, ?_, fun st g' s' hs => ⟨first.tree st g' s' hs, second.tree st g' s' hs⟩⟩
  · rw [first.tree _ (.refl _) s adv.sound]
    exact Template.treeIn_over hV later (by rw [trees, names]; exact left)
  · rw [second.tree _ (.refl _) s adv.sound]
    exact Template.treeIn_over hV later (by rw [trees, names]; exact right)
  · rw [List.map_cons, known]

/-- The trees of a prepared pattern are those of its templates. -/
theorem Prepared.exists_bound {r : (TermId × TermId) × Session}
    (h : Prepared V outer vars lhs rhs s w ses r) (g : r.2.store.Grows st) (hs : s'.Sound st) :
    ∃ bound : List (String × Tree), bound.map Prod.fst = "witness" :: vars.reverse ∧
      s'.tree st r.1.1 =
        lhs.treeIn (bound ++ (outer.map Prod.fst).zip ((outer.map Prod.snd).map (s'.tree st))) ∧
      s'.tree st r.1.2 =
        rhs.treeIn (bound ++ (outer.map Prod.fst).zip ((outer.map Prod.snd).map (s'.tree st))) := by
  obtain ⟨bound, known, trees⟩ := h.trees
  have split : (bound ++ outer).trees s' st = bound.trees s' st ++
      (outer.map Prod.fst).zip ((outer.map Prod.snd).map (s'.tree st)) := by
    rw [← Env.trees_eq_zip]
    unfold Env.trees
    rw [List.map_append]
  refine ⟨bound.trees s' st, ?_, split ▸ trees st g s' hs⟩
  rw [Env.trees_eq_zip, List.map_fst_zip (by simp)]
  exact known

/-- Every answer of a prepared pattern applies it. -/
theorem Prepared.related {r : (TermId × TermId) × Session}
    (h : Prepared V outer vars lhs rhs s w ses r)
    (matching : Matching V r.2.store s a b w r.1.1 r.1.2 ses' s') :
    Related V (outer.map Prod.snd) (Applies F vars (outer.map Prod.fst) lhs rhs) r.2.store s a b
      ses' s' := by
  have adv := matching.advance
  obtain ⟨bound, known, left, right⟩ := h.exists_bound adv.grows adv.sound
  exact ⟨adv, sitesStored_of_eq adv.grows matching.sites, bound, known, left ▸ matching.matched,
    fun G => right ▸ matching.replaced G⟩

/-- A rule made of a pattern relates what the pattern applies to. -/
theorem pattern_sound (hV : Template.Speaks V ops) (name : String)
    (left : lhs.simple ops (patternNames vars (outer.map Prod.fst)) = true)
    (right : rhs.simple ops (patternNames vars (outer.map Prod.fst)) = true) :
    RelationSound V (outer.map Prod.snd) (Applies F vars (outer.map Prod.fst) lhs rhs)
      (Regraft.Rule.pattern name (Template.buildPattern outer vars lhs rhs)).relate := by
  intro n ses s a b place ses' g
  have g₁ := Session.fresh_grows ses'
  have var : (Session.fresh ses').2.store.term? (Session.fresh ses').1 = _ := Store.term?_fresh _
  show ses'.Grows (Template.buildPattern outer vars lhs rhs (Session.fresh ses').1
      (Session.fresh ses').2).2 ∧
    MeetsFor _ n (Template.buildPattern outer vars lhs rhs (Session.fresh ses').1
      (Session.fresh ses').2).2
      (.apply (Regraft.Rule.exactly a b (Session.fresh ses').1
        (Template.buildPattern outer vars lhs rhs (Session.fresh ses').1 (Session.fresh ses').2).1.1
        (Template.buildPattern outer vars lhs rhs (Session.fresh ses').1 (Session.fresh ses').2).1.2) s)
  generalize (Session.fresh ses').1 = w at var ⊢
  generalize (Session.fresh ses').2 = ses₁ at var g₁ ⊢
  have place₁ := place.grows (g.trans g₁)
  have ready := prepared hV left right place₁ ⟨Store.stored_of_term? var, place₁.over_var var⟩
  generalize Template.buildPattern outer vars lhs rhs w ses₁ = r at ready ⊢
  have place₂ := place₁.grows ready.grows
  refine ⟨g₁.trans ready.grows, ?_⟩
  refine (Rule.exactly_meets place₂.ready ready.witness ready.left ready.right).imp ?_
  intro ses₃ s₃ matching
  exact (ready.related matching).of_grows place.ready.sound ((g.trans g₁).trans ready.grows)

theorem chainOperator_eq_some {t : TermId} {op : String}
    (h : Regraft.Rule.chainOperator ses t = some op) :
    ses.facts.isChain op = true ∧ ∃ args attrs, ses.store.term? t = some (.app op args attrs) := by
  unfold Regraft.Rule.chainOperator at h
  split at h
  · rename_i f args attrs happ
    split at h
    · rename_i chain
      cases h
      exact ⟨chain, args, attrs, Store.app?_eq_some_iff.mp happ⟩
    · cases h
  · cases h

/-- The longer pattern of a chain operator and what it becomes, beside the rest of the chain. -/
theorem chain_meets {op : String} {rest l r : TermId} {pair : (TermId × TermId) × Session}
    (h : Prepared V outer vars lhs rhs s w ses pair) (ready : Ready V pair.2 s a b)
    (g : pair.2.Grows ses') (chain : F.isChain op = true) {args : List TermId} {attrs : Attrs}
    (root : pair.2.store.term? pair.1.1 = some (.app op args attrs))
    (hrest : Stands V ses'.store s rest)
    (left : ses'.store.term? l = some (.app op [pair.1.1, rest] .unspecified))
    (right : ses'.store.term? r = some (.app op [pair.1.2, rest] .unspecified)) :
    MeetsFor (Related V (outer.map Prod.snd) (AppliesToPart F vars (outer.map Prod.fst) lhs rhs)
      pair.2.store s a b) n ses' (.apply (Regraft.Rule.exactly a b w l r) s) := by
  have adv : Subst.Advance V.has pair.2.store s ses'.store s := .of_grows ready.sound g.store
  have label := h.left.labels
  rw [ready.sound.tree_app root, Tree.over_app] at label
  have plain := V.nests _ _ _ label.1 chain
  have stands : ∀ {t u : TermId}, Stands V ses'.store s u →
      ses'.store.term? t = some (.app op [u, rest] .unspecified) → Stands V ses'.store s t := by
    intro t u hu ht
    refine ⟨Store.stored_of_term? ht, ?_⟩
    rw [adv.sound.tree_app ht]
    exact Tree.over_pair plain hu.labels hrest.labels
  refine (Rule.exactly_meets (ready.grows g) (h.witness.advance adv)
    (stands (h.left.advance adv) left) (stands (h.right.advance adv) right)).imp ?_
  intro ses₃ s₃ matching
  have adv₃ := matching.advance
  obtain ⟨bound, known, eqLeft, eqRight⟩ := h.exists_bound (adv.grows.trans adv₃.grows) adv₃.sound
  have isApp : (s₃.tree ses₃.store pair.1.1).IsApp op := by
    rw [adv₃.sound.tree_app ((adv.grows.trans adv₃.grows).keeps _ _ root)]
    rfl
  have matched := matching.matched
  have replaced := matching.replaced
  rw [adv₃.sound.tree_app (adv₃.grows.keeps _ _ left), List.map_cons, List.map_singleton,
    eqLeft] at matched
  simp only [adv₃.sound.tree_app (adv₃.grows.keeps _ _ right), List.map_cons, List.map_nil,
    eqRight] at replaced
  refine ⟨adv.trans adv₃, fun hsites => ?_, bound, op, _, known, eqLeft ▸ isApp, matched, replaced⟩
  exact sitesStored_of_eq (adv.grows.trans adv₃.grows) matching.sites hsites

/-- The goal of a pattern and its replacement that have been built, also in a chain. -/
def chainGoal (a b w l r : TermId) : SessionM Regraft.Goal := do
  match Regraft.Rule.chainOperator (← get) l with
  | none => return Regraft.Rule.exactly a b w l r
  | some op =>
    let rest ← Session.fresh
    let l' ← Session.onStore (Store.app op [l, rest] .unspecified)
    let r' ← Session.onStore (Store.app op [r, rest] .unspecified)
    return .disj [Regraft.Rule.exactly a b w l r, Regraft.Rule.exactly a b w l' r']

theorem patternInChain_relate (name : String) (build : TermId → SessionM (TermId × TermId))
    (a b : TermId) (ses : Session) :
    (Regraft.Rule.patternInChain name build).relate a b ses =
      chainGoal a b (Session.fresh ses).1 (build (Session.fresh ses).1 (Session.fresh ses).2).1.1
        (build (Session.fresh ses).1 (Session.fresh ses).2).1.2
        (build (Session.fresh ses).1 (Session.fresh ses).2).2 := rfl

theorem chainGoal_apply (a b w l r : TermId) (ses : Session) :
    chainGoal a b w l r ses = match Regraft.Rule.chainOperator ses l with
      | none => (Regraft.Rule.exactly a b w l r, ses)
      | some op =>
        let fresh := Session.fresh ses
        let left := Session.onStore (Store.app op [l, fresh.1] .unspecified) fresh.2
        let right := Session.onStore (Store.app op [r, fresh.1] .unspecified) left.2
        (.disj [Regraft.Rule.exactly a b w l r, Regraft.Rule.exactly a b w left.1 right.1],
          right.2) := by
  show (match Regraft.Rule.chainOperator ses l with
    | none => _
    | some op => _ : SessionM Regraft.Goal) ses = _
  cases Regraft.Rule.chainOperator ses l <;> rfl

theorem pair_grows {t u : TermId} (op : String) (ht : ses.store.Stored t) (hu : ses.store.Stored u) :
    ses.Grows (Session.onStore (Store.app op [t, u] .unspecified) ses).2 := by
  refine Session.onStore_grows (Store.app_grows ?_)
  simp only [List.mem_cons, List.not_mem_nil, or_false, forall_eq_or_imp, forall_eq]
  exact ⟨ht, hu⟩

theorem chainGoal_meets {pair : (TermId × TermId) × Session}
    (h : Prepared V outer vars lhs rhs s w ses pair)
    (place : Place V (outer.map Prod.snd) pair.2 s a b) :
    pair.2.Grows (chainGoal a b w pair.1.1 pair.1.2 pair.2).2 ∧
      MeetsFor (Related V (outer.map Prod.snd) (AppliesInChain F vars (outer.map Prod.fst) lhs rhs)
        pair.2.store s a b) n (chainGoal a b w pair.1.1 pair.1.2 pair.2).2
        (.apply (chainGoal a b w pair.1.1 pair.1.2 pair.2).1 s) := by
  have ready := place.ready
  have whole : ∀ n, MeetsFor (Related V (outer.map Prod.snd)
      (AppliesInChain F vars (outer.map Prod.fst) lhs rhs) pair.2.store s a b) n pair.2
      (.apply (Regraft.Rule.exactly a b w pair.1.1 pair.1.2) s) := fun n =>
    (Rule.exactly_meets ready h.witness h.left h.right).imp fun ses' s' matching =>
      (h.related matching).imp fun _ _ _ => Or.inl
  rw [chainGoal_apply]
  split
  · exact ⟨.refl _, whole n⟩
  · rename_i op isChain
    dsimp only
    obtain ⟨chain, args, attrs, root⟩ := chainOperator_eq_some isChain
    rw [ready.facts] at chain
    have g₁ := Session.fresh_grows pair.2
    have var : (Session.fresh pair.2).2.store.term? (Session.fresh pair.2).1 = _ :=
      Store.term?_fresh _
    generalize Session.fresh pair.2 = fresh at g₁ var ⊢
    obtain ⟨rest, ses₁⟩ := fresh
    have storedRest := Store.stored_of_term? var
    have g₂ := pair_grows op (g₁.store.stored h.left.stored) storedRest
    have left : (Session.onStore (Store.app op [pair.1.1, rest] .unspecified) ses₁).2.store.term?
      (Session.onStore (Store.app op [pair.1.1, rest] .unspecified) ses₁).1 = _ := Store.term?_app ..
    generalize Session.onStore (Store.app op [pair.1.1, rest] .unspecified) ses₁ = first
      at g₂ left ⊢
    have g₃ := pair_grows op ((g₁.trans g₂).store.stored h.right.stored) (g₂.store.stored storedRest)
    have right : (Session.onStore (Store.app op [pair.1.2, rest] .unspecified) first.2).2.store.term?
      (Session.onStore (Store.app op [pair.1.2, rest] .unspecified) first.2).1 = _ :=
        Store.term?_app ..
    generalize Session.onStore (Store.app op [pair.1.2, rest] .unspecified) first.2 = second
      at g₃ right ⊢
    have g := (g₁.trans g₂).trans g₃
    have standsRest : Stands V second.2.store s rest :=
      ⟨(g₂.trans g₃).store.stored storedRest, (place.grows g).over_var ((g₂.trans g₃).store.keeps _ _ var)⟩
    refine ⟨g, Goal.disj_meets fun goal mem n => ?_⟩
    simp only [List.mem_cons, List.not_mem_nil, or_false] at mem
    rcases mem with rfl | rfl
    · exact (whole n).grows g
    · refine (chain_meets h ready g chain root standsRest (g₃.store.keeps _ _ left) right).imp ?_
      intro ses' s' related
      exact related.imp fun _ _ _ => Or.inr

/-- A rule made of a pattern in a chain relates what the pattern applies to, in a chain or not. -/
theorem patternInChain_sound (hV : Template.Speaks V ops) (name : String)
    (left : lhs.simple ops (patternNames vars (outer.map Prod.fst)) = true)
    (right : rhs.simple ops (patternNames vars (outer.map Prod.fst)) = true) :
    RelationSound V (outer.map Prod.snd) (AppliesInChain F vars (outer.map Prod.fst) lhs rhs)
      (Regraft.Rule.patternInChain name (Template.buildPattern outer vars lhs rhs)).relate := by
  intro n ses s a b place ses' g
  have g₁ := Session.fresh_grows ses'
  have var : (Session.fresh ses').2.store.term? (Session.fresh ses').1 = _ := Store.term?_fresh _
  rw [patternInChain_relate]
  generalize (Session.fresh ses').1 = w at var ⊢
  generalize (Session.fresh ses').2 = ses₁ at var g₁ ⊢
  have place₁ := place.grows (g.trans g₁)
  have ready := prepared hV left right place₁ ⟨Store.stored_of_term? var, place₁.over_var var⟩
  generalize Template.buildPattern outer vars lhs rhs w ses₁ = pair at ready ⊢
  obtain ⟨g₂, meets⟩ := chainGoal_meets (n := n) ready (place₁.grows ready.grows)
  refine ⟨(g₁.trans ready.grows).trans g₂, meets.imp fun ses'' s' related => ?_⟩
  exact related.of_grows place.ready.sound ((g.trans g₁).trans ready.grows)

end Script

/-! ## Alternatives -/

namespace Rule

/-- The goals of rules one after the other, each in the session that the earlier ones leave. -/
theorem relateAll_meets {rules : List Rule} (h : ∀ rule ∈ rules, RelationSound V env R rule.relate)
    (place : Place V env ses s a b) (g : ses.Grows ses') :
    ses'.Grows (relateAll a b rules ses').2 ∧ ∀ goal ∈ (relateAll a b rules ses').1, ∀ n,
      MeetsFor (Related V env R ses.store s a b) n (relateAll a b rules ses').2 (.apply goal s) := by
  induction rules generalizing ses' with
  | nil => exact ⟨.refl ses', nofun⟩
  | cons rule rest ih =>
    rw [List.forall_mem_cons] at h
    have first := fun n => h.1 n place ses' g
    obtain ⟨g', later⟩ := ih h.2 (g.trans (first 0).1)
    show ses'.Grows (relateAll a b rest (rule.relate a b ses').2).2 ∧
      ∀ goal ∈ (rule.relate a b ses').1 :: (relateAll a b rest (rule.relate a b ses').2).1, ∀ n, _
    rw [List.forall_mem_cons]
    exact ⟨(first 0).1.trans g', fun n => (first n).2.grows g', later⟩

/-- Any of some rules relates what they all relate. -/
theorem any_sound (name : String) {rules : List Rule}
    (h : ∀ rule ∈ rules, RelationSound V env R rule.relate) :
    RelationSound V env R (Rule.any name rules).relate := by
  intro n ses s a b place ses' g
  obtain ⟨g', meets⟩ := relateAll_meets h place g
  exact ⟨g', Goal.disj_meets meets⟩

end Rule

end Regraft
