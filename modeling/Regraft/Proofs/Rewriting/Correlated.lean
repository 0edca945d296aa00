import Regraft.Proofs.Rewriting.Pattern

/-
  Rules that rewrite several sites in one step. The goals of the sites are linked by variables, each site
  being looked for in what the one before gave (`Links`); so an answer relates the trees by all sites
  one after the other, with one choice of trees for the names that the sites share
  (`correlated_sound`). The condition on them keeps all bindings.
-/

namespace Regraft

open Search

variable {F : Facts} {V : Vocabulary F} {Q : Session → Subst → Prop} {n : Nat}
  {ses ses' ses'' : Session} {st : Store} {s s' s'' : Subst} {a b cur : TermId} {env : List TermId}
  {R R' : List Tree → Tree → Tree → Prop} {done Rs : List (List Tree → Tree → Tree → Prop)}

namespace Tree

/-- Relations applied one after the other, each at one position of what the one before gave. -/
def RewritesAll : List (Tree → Tree → Prop) → Tree → Tree → Prop
  | [], t, u => t = u
  | R :: rest, t, u => ∃ mid, Rewrites R t mid ∧ RewritesAll rest mid u

theorem RewritesAll.snoc {Rs : List (Tree → Tree → Prop)} {R : Tree → Tree → Prop} {t mid u : Tree}
    (h : RewritesAll Rs t mid) (last : Rewrites R mid u) : RewritesAll (Rs ++ [R]) t u := by
  induction Rs generalizing t with
  | nil =>
    obtain rfl : t = mid := h
    exact ⟨u, last, rfl⟩
  | cons R rest ih =>
    obtain ⟨next, first, h⟩ := h
    exact ⟨next, first, ih h⟩

end Tree

namespace Search

/-- The relations of some sites one after the other, among one choice of further trees. -/
def Sites (Rs : List (List Tree → Tree → Tree → Prop)) (es : List Tree) : Tree → Tree → Prop :=
  Tree.RewritesAll (Rs.map fun R => R es)

theorem sites_stable (h : ∀ R ∈ Rs, Stable R) : Stable (Sites Rs) := by
  intro σ es t u related
  induction Rs generalizing t with
  | nil => exact congrArg _ related
  | cons R rest ih =>
    rw [List.forall_mem_cons] at h
    obtain ⟨mid, first, related⟩ := related
    exact ⟨mid.subst σ, first.subst fun t u => h.1 σ es t u, ih h.2 mid related⟩

/-- One relation after the other, where the first lasts under further bindings. -/
theorem Related.snoc {m : TermId} (stable : Stable (Sites done))
    (stored : ∀ e ∈ a :: m :: env, st.Stored e) (h : Related V env (Sites done) st s a m ses' s')
    (last : Related V env (fun es => Tree.Rewrites (R es)) ses'.store s' m b ses'' s'') :
    Related V env (Sites (done ++ [R])) st s a b ses'' s'' := by
  have tree : ∀ e ∈ a :: m :: env,
      s''.tree ses''.store e = (s'.tree ses'.store e).subst (s''.image ses''.store) := fun e he =>
    last.advance.tree_eq h.advance.sound (h.advance.grows.stored (stored e he))
  refine ⟨h.advance.trans last.advance, fun sites => last.sites (h.sites sites), ?_⟩
  have first := stable (s''.image ses''.store) _ _ _ h.rel
  rw [List.map_map, ← tree a (.head _), ← tree m (.tail _ (.head _))] at first
  have names : env.map (Tree.subst (s''.image ses''.store) ∘ s'.tree ses'.store) =
      env.map (s''.tree ses''.store) :=
    List.map_congr_left fun e he => (tree e (.tail _ (.tail _ he))).symm
  rw [names] at first
  unfold Sites at first ⊢
  rw [List.map_append]
  exact first.snoc last.rel

/-- A way to go on into a goal from answers that satisfy `P`. -/
def Feeds (feed : Goal → Search) (P : Session → Subst → Prop) (ses : Session) : Prop :=
  ∀ {Q : Session → Subst → Prop} {n : Nat} {goal : Goal},
    (∀ ses' s', ses.Grows ses' → P ses' s' → MeetsFor Q n ses' (.apply goal s')) →
      MeetsFor Q n ses (feed goal)

theorem feeds_apply {P : Session → Subst → Prop} (h : P ses s) : Feeds (.apply · s) P ses :=
  fun meets => meets ses s (.refl ses) h

theorem feeds_bind {P : Session → Subst → Prop} {inner : Search}
    (h : ∀ n, MeetsFor P n ses inner) : Feeds (.bind inner) P ses := fun meets => (h _).bind meets

/-- The goals that link a term to the last output, one for each rule. -/
inductive Links (st : Store) (b : TermId) : List Rule → TermId → List Goal → Prop
  | last {rule : Rule} {cur : TermId} : Links st b [rule] cur [.anywhere rule.relate cur b]
  | next {rule : Rule} {rest : List Rule} {cur next : TermId} {v : UInt32} {goals : List Goal}
      (var : st.term? next = some (.var v)) (links : Links st b rest next goals) :
      Links st b (rule :: rest) cur (.anywhere rule.relate cur next :: goals)

theorem sitesFrom_links {rule : Rule} {rest : List Rule} :
    ses.Grows (Goal.sitesFrom cur b (rule :: rest) ses).2 ∧
      Links (Goal.sitesFrom cur b (rule :: rest) ses).2.store b (rule :: rest) cur
        (Goal.sitesFrom cur b (rule :: rest) ses).1 := by
  induction rest generalizing rule cur ses with
  | nil => exact ⟨.refl ses, .last⟩
  | cons other rest ih =>
    have var : (Session.fresh ses).2.store.term? (Session.fresh ses).1 = _ := Store.term?_fresh _
    obtain ⟨g, links⟩ := @ih (Session.fresh ses).2 (Session.fresh ses).1 other
    exact ⟨(Session.fresh_grows ses).trans g, .next (g.store.keeps _ _ var) links⟩

/-- A rule lasts under further bindings and relates what `R` says. -/
structure SiteSound (V : Vocabulary F) (env : List TermId) (rule : Rule)
    (R : List Tree → Tree → Tree → Prop) : Prop where
  stable : Stable R
  sound : RelationSound V env R rule.relate

/-- One more site is rewritten, in what the sites before gave. -/
theorem Feeds.site {rule : Rule} {feed : Goal → Search} {out : TermId} (stable : ∀ R ∈ done, Stable R)
    (site : SiteSound V env rule R) (place : Place V env ses s a out) (here : Stands V ses.store s cur)
    (feeds : Feeds feed (Related V env (Sites done) ses.store s a cur) ses) (n : Nat) :
    MeetsFor (Related V env (Sites (done ++ [R])) ses.store s a out) n ses
      (feed (.anywhere rule.relate cur out)) := by
  refine feeds fun ses' s' g related => ?_
  have stored : ∀ e ∈ a :: cur :: env, ses.store.Stored e := by
    rintro e (_ | ⟨_, _ | ⟨_, mem⟩⟩)
    · exact place.ready.left
    · exact here.stored
    · exact place.stored e mem
  have between : Place V env ses s cur out :=
    ⟨place.ready.of_stands here place.ready.standsRight, place.images, place.stored, place.labels⟩
  refine (anywhere_meets site.stable site.sound n (between.advance g related.advance)).imp ?_
  exact fun ses'' s'' last => related.snoc (sites_stable stable) stored last

/-- The goals that are linked rewrite all sites. -/
theorem Links.meets {rules : List Rule} {goals : List Goal} {feed : Goal → Search}
    (links : Links ses.store b rules cur goals) (stable : ∀ R ∈ done, Stable R)
    (sites : List.Forall₂ (SiteSound V env) rules Rs) (place : Place V env ses s a b)
    (here : Stands V ses.store s cur)
    (feeds : Feeds feed (Related V env (Sites done) ses.store s a cur) ses) :
    ∃ first rest, goals = first :: rest ∧
      ∀ n, MeetsFor (Related V env (Sites (done ++ Rs)) ses.store s a b) n ses
        (rest.foldl .bind (feed first)) := by
  induction links generalizing feed done Rs with
  | last =>
    obtain ⟨R, others, site, rest, rfl⟩ := List.forall₂_cons_left_iff.mp sites
    obtain rfl : others = [] := List.forall₂_nil_left_iff.mp rest
    exact ⟨_, _, rfl, feeds.site stable site place here⟩
  | @next rule _ cur next v goals var _ ih =>
    obtain ⟨R, others, site, sites', rfl⟩ := List.forall₂_cons_left_iff.mp sites
    have there : Stands V ses.store s next := ⟨Store.stored_of_term? var, place.over_var var⟩
    have toNext : Place V env ses s a next :=
      ⟨place.ready.of_stands place.ready.standsLeft there, place.images, place.stored, place.labels⟩
    have both : ∀ R' ∈ done ++ [R], Stable R' := by
      intro R' mem
      rcases List.mem_append.mp mem with mem | mem
      · exact stable R' mem
      · exact List.mem_singleton.mp mem ▸ site.stable
    obtain ⟨second, rest, rfl, meets⟩ :=
      ih both sites' there (feeds_bind (feeds.site stable site toNext here))
    refine ⟨_, _, rfl, fun n => ?_⟩
    rw [List.append_assoc, List.singleton_append] at meets
    exact meets n

end Search

/-! ## Goals -/

namespace Goal

theorem conj_meets {first : Goal} {rest : List Goal}
    (h : ∀ n, MeetsFor Q n ses (rest.foldl .bind (.apply first s))) (n : Nat) :
    MeetsFor Q n ses (.apply (.conj (first :: rest)) s) := by
  match rest with
  | [] => exact h n
  | second :: rest =>
    cases n with
    | zero => trivial
    | succ n => exact .apply fun ses' g => ⟨.refl ses', (h n).grows g⟩

theorem defer_meets {build : SessionM Goal}
    (h : ∀ ses', ses.Grows ses' → ses'.Grows (build ses').2 ∧
      ∀ n, MeetsFor Q n (build ses').2 (.apply (build ses').1 s)) (n : Nat) :
    MeetsFor Q n ses (.apply (.defer build) s) := by
  cases n with
  | zero => trivial
  | succ n =>
    refine .apply fun ses' g => ?_
    obtain ⟨g', meets⟩ := h ses' g
    obtain ⟨g'', later⟩ := meets (n + 1) _ (.refl _)
    exact ⟨g'.trans g'', later⟩

/-- Every site is rewritten in the result of the one before. -/
theorem sites_meets {rule : Rule} {rest : List Rule}
    (sites : List.Forall₂ (SiteSound V env) (rule :: rest) Rs) (place : Place V env ses s a b) (n : Nat) :
    MeetsFor (Related V env (Sites Rs) ses.store s a b) n ses
      (.apply (.sites (rule :: rest) a b) s) := by
  show MeetsFor _ n ses (.apply (.defer (Goal.conj <$> sitesFrom a b (rule :: rest))) s)
  refine defer_meets (fun ses' g => ?_) n
  obtain ⟨g', links⟩ := @sitesFrom_links ses' b a rule rest
  have place' := place.grows (g.trans g')
  have start : Related V env (Sites []) (Goal.sitesFrom a b (rule :: rest) ses').2.store s a a
      (Goal.sitesFrom a b (rule :: rest) ses').2 s := ⟨.refl place'.ready.sound, id, rfl⟩
  have none : ∀ R ∈ ([] : List (List Tree → Tree → Tree → Prop)), Stable R := nofun
  obtain ⟨first, others, goals, meets⟩ :=
    links.meets none sites place' place'.ready.standsLeft (feeds_apply start)
  refine ⟨g', fun n => ?_⟩
  show MeetsFor _ n _ (.apply (.conj (Goal.sitesFrom a b (rule :: rest) ses').1) s)
  rw [goals]
  refine conj_meets (fun n => (meets n).imp fun ses'' s' related => ?_) n
  exact related.of_grows place.ready.sound (g.trans g')

/-- A disequality keeps all bindings and sites. -/
theorem neq_meets (x y : TermId) :
    MeetsFor (fun ses' s' => ses.Grows ses' ∧ s'.bindings = s.bindings ∧ s'.sites = s.sites) n ses
      (.apply (.neq x y) s) := by
  cases n with
  | zero => trivial
  | succ n =>
    refine .apply fun ses' g => ?_
    rw [neq_apply]
    cases distinct : s.requireDistinct ses'.store x y with
    | none => exact ⟨Session.count_grows _ ses', .empty⟩
    | some t =>
      refine ⟨.refl ses', .unit fun ses'' g' => ⟨g.trans g', ?_⟩⟩
      unfold Subst.requireDistinct at distinct
      split at distinct
      · cases distinct
        exact ⟨rfl, rfl⟩
      · cases distinct
      · cases distinct
        unfold Subst.addConstraint
        split <;> exact ⟨rfl, rfl⟩

end Goal

/-! ## Rules -/

namespace Script

variable {ops vars : List String} {outer : Env} {x y : Template} {rule : Rule} {rest : List Rule}

/-- The sites of a rule one after the other, with new trees for the names that it lists. -/
def Together (vars : List String) (Rs : List (List Tree → Tree → Tree → Prop)) (es : List Tree)
    (t u : Tree) : Prop :=
  ∃ new : List Tree, new.length = vars.length ∧ Sites Rs (new ++ es) t u

theorem together_stable (h : ∀ R ∈ Rs, Stable R) : Stable (Together vars Rs) := by
  rintro σ es t u ⟨new, known, related⟩
  refine ⟨new.map (Tree.subst σ), (List.length_map _).trans known, ?_⟩
  rw [← List.map_append]
  exact sites_stable h σ _ t u related

/-- The names are made first, then the goal of the sites and the condition on them. -/
theorem relate_correlated {name : String} {guard : Script.Goal} {env : Env} {ses₁ : Session}
    (made : outer.extend vars ses = (env, ses₁)) :
    ((Rule.correlated name vars (rule :: rest) guard).build outer).relate a b ses =
      (.conj [.sites (Rule.buildAll env (rule :: rest)) a b, (guard.build env ses₁).1],
        (guard.build env ses₁).2) := by
  rw [Rule.build]
  show (Regraft.Goal.conj [.sites (Rule.buildAll (outer.extend vars ses).1 (rule :: rest)) a b,
      (guard.build (outer.extend vars ses).1 (outer.extend vars ses).2).1],
    (guard.build (outer.extend vars ses).1 (outer.extend vars ses).2).2) = _
  rw [made]

/-- New names stand for variables, which take any tree. -/
theorem place_extended {news : Env} (place : Place V (outer.map Prod.snd) ses s a b)
    (new : ∀ e ∈ news, ∃ v, ses.store.term? e.2 = some (.var v)) :
    Place V ((news ++ outer).map Prod.snd) ses s a b := by
  have each : ∀ e ∈ (news ++ outer).map Prod.snd,
      ses.store.Stored e ∧ (s.tree ses.store e).Over V.has := by
    intro e he
    rw [List.map_append, List.mem_append] at he
    rcases he with he | he
    · obtain ⟨e, mem, rfl⟩ := List.mem_map.mp he
      obtain ⟨v, hv⟩ := new e mem
      exact ⟨Store.stored_of_term? hv, place.over_var hv⟩
    · exact ⟨place.stored e he, place.labels e he⟩
  exact ⟨place.ready, place.images, fun e he => (each e he).1, fun e he => (each e he).2⟩

/-- A rule for several sites rewrites each in the result of the one before. -/
theorem correlated_sound (outer : Env) (vars : List String) (name : String)
    (sites : ∀ env : Env, env.map Prod.fst = vars.reverse ++ outer.map Prod.fst →
      List.Forall₂ (SiteSound V (env.map Prod.snd)) (Rule.buildAll env (rule :: rest)) Rs)
    (hx : x.simple ops (vars.reverse ++ outer.map Prod.fst) = true)
    (hy : y.simple ops (vars.reverse ++ outer.map Prod.fst) = true) :
    RelationSound V (outer.map Prod.snd) (Together vars Rs)
      ((Rule.correlated name vars (rule :: rest) (.neq x y)).build outer).relate := by
  intro n ses s a b place ses' g
  obtain ⟨news, extended, names, g₁, new⟩ := Env.extend_spec outer vars ses'
  generalize made : outer.extend vars ses' = extension at extended g₁ new
  obtain ⟨env, ses₁⟩ := extension
  obtain rfl : env = news ++ outer := extended
  have known : (news ++ outer).map Prod.fst = vars.reverse ++ outer.map Prod.fst := by
    rw [List.map_append, names]
  have place₁ := place_extended (place.grows (g.trans g₁)) new
  have stored : ∀ e ∈ news ++ outer, ses₁.store.Stored e.2 := fun e he =>
    place₁.stored _ (List.mem_map_of_mem he)
  have left := Template.build_built stored (known ▸ hx)
  have right := Template.build_built (fun e he => left.grows.store.stored (stored e he)) (known ▸ hy)
  rw [relate_correlated made, Goal.build_neq]
  have g₂ := left.grows.trans right.grows
  have inner := place₁.grows g₂
  generalize (y.build (news ++ outer) (x.build (news ++ outer) ses₁).2).2 = ses₂ at g₂ inner ⊢
  refine ⟨g₁.trans g₂, ?_⟩
  have sites' := sites _ known
  rw [Rule.buildAll] at sites' ⊢
  dsimp only
  refine Regraft.Goal.conj_meets (fun n => ?_) n
  refine (Regraft.Goal.sites_meets sites' inner n).bind fun ses₃ s₃ g₃ related => ?_
  refine (Regraft.Goal.neq_meets _ _).imp fun ses₄ s₄ ⟨g₄, bindings, kept⟩ => ?_
  have kept₂ : ∀ e ∈ a :: b :: (news ++ outer).map Prod.snd, ses₂.store.Stored e := by
    rintro e (_ | ⟨_, _ | ⟨_, mem⟩⟩)
    · exact inner.ready.left
    · exact inner.ready.right
    · exact inner.stored e mem
  have after := related.of_bindings g₄ kept₂ bindings.symm fun stored site mem => by
    rw [kept] at mem
    exact ⟨g₄.store.stored (stored site mem).1, g₄.store.stored (stored site mem).2⟩
  have result := after.of_grows place.ready.sound ((g.trans g₁).trans g₂)
  refine ⟨result.advance, result.sites, (news.map Prod.snd).map (s₄.tree ses₄.store), ?_, ?_⟩
  · rw [List.length_map, List.length_map, ← List.length_map (f := Prod.fst), names,
      List.length_reverse]
  · rw [← List.map_append, ← List.map_append]
    exact result.rel

end Script

end Regraft
