import Regraft.Proofs.Meaning.Matching
import Regraft.Proofs.Rewriting.Shrinking
import Regraft.Proofs.Search.Evolves
import Regraft.Proofs.Search.Halts

/-
  Rules whose searches come to an end in ground terms. `Search.EndsWith F R relate` says that a relation ends
  there, whatever variables are made meanwhile, and that what it answers is related by `R` to what it was
  asked for. Patterns do so (`pattern_ends`), also in chains (`patternInChain_ends`), and so do alternatives
  of rules that do (`any_ends`). If results are ground again, then rewriting at one position comes to an end
  as well (`anywhere_halts`). Nothing is said of which answers there are, so that it does not matter whether a
  new variable has really not been in use.
-/

namespace Regraft

open Regraft.Tree (Matches Pattern)

/-- Terms that are given can be looked at together. -/
theorem Ready.of_given {F : Facts} {V : Vocabulary F} {ses : Session} {s : Subst} {a b : TermId}
    (facts : ses.facts = F) (hs : s.Sound ses.store) (left : Subst.Given V.has ses.store s a)
    (right : Subst.Given V.has ses.store s b) : Ready V ses s a b :=
  ⟨facts, hs, left.stored, right.stored, left.labels, right.labels⟩

namespace Search

variable {L : Session → Session → Prop} {F : Facts} {V : Vocabulary F} {Q : Session → Subst → Prop}
  {must : Prop} {n k : Nat} {ses ses' ses'' : Session} {st : Store} {s s' : Subst} {a b w l r : TermId}
  {R R' : Tree → Tree → Prop} {p : Pattern} {search : Search}

/-! ## Goals -/

section

variable [Session.Course L]

open Session (Course)

/-- An equation ends, with its sides alike. -/
theorem eq_halts (h : Ready V ses s a b) :
    Halts L (Equated V ses.store s a b) False ses (.apply (.eq a b) s) := by
  have ends : Halts L (fun _ _ => True) False ses (.apply (.eq a b) s) := by
    refine .apply fun ses' _ => ?_
    show L ses' (unify a b s ses').2 ∧ Halts L _ False (unify a b s ses').2 (unify a b s ses').1
    rw [unify_apply]
    split
    · exact ⟨Course.of_keeps (Session.count_keeps _ ses'), .empty id⟩
    · refine ⟨Course.of_keeps (Session.count_keeps _ ses'), ?_⟩
      exact (Halts.unit fun _ _ => trivial).imp (fun _ _ => id) id
  exact (ends.and_meets fun n => Goal.eq_meets h).imp (fun _ _ both => both.2) id

/-- A site is recorded. -/
theorem site_halts (hQ : ∀ ses', L ses ses' → Q ses' (s.addSite ⟨a, b⟩)) :
    Halts L Q must ses (.apply (.site a b) s) := by
  refine .apply fun ses' k => ?_
  have count : L ses' _ := Course.of_keeps (Session.count_keeps Counters.countRuleMatch ses')
  exact ⟨count, .unit fun ses'' k' => hQ ses'' (Course.trans k (Course.trans count k'))⟩

/-- Alternatives end if each of them does. -/
theorem disj_halts {goals : List Goal} (h : ∀ g ∈ goals, Halts L Q False ses (.apply g s)) :
    Halts L Q False ses (.apply (.disj goals) s) := by
  match goals with
  | [] => exact .apply fun ses' _ => ⟨Course.refl ses', .empty id⟩
  | [g] => exact h g (.head _)
  | g :: g' :: rest =>
    refine .apply fun ses' k => ⟨Course.refl ses', Halts.later ?_ k⟩
    exact Halts.union (List.forall_mem_map.mpr h)

end

/-! ## Places to start from -/

/-- A ground term whose constants fill their shapes, and a term for what it is related to. -/
structure Outset (F : Facts) (ses : Session) (a b : TermId) : Prop where
  ready : Ready (Vocabulary.filled F) ses .empty a b
  ground : (Subst.empty.tree ses.store a).Ground

namespace Outset

theorem grows (h : Outset F ses a b) (g : ses.Grows ses') : Outset F ses' a b where
  ready := h.ready.grows g
  ground := by
    rw [h.ready.sound.tree_grows g.store h.ready.left]
    exact h.ground

theorem left (h : Outset F ses a b) : Subst.Given (Vocabulary.filled F).has ses.store .empty a :=
  ⟨h.ready.left, h.ready.overLeft⟩

theorem right (h : Outset F ses a b) : Subst.Given (Vocabulary.filled F).has ses.store .empty b :=
  ⟨h.ready.right, h.ready.overRight⟩

theorem facing (h : Outset F ses a b) (hl : ses.store.Stored l) : Facing F ses .empty a l :=
  ⟨h.ready.facts, h.ready.sound, rfl, h.ready.left, hl, h.ground⟩

end Outset

/-- What the answers of a relation satisfy: it holds of the trees, and some sites are recorded. -/
structure Replaced (F : Facts) (n : Nat) (R : Tree → Tree → Prop) (st : Store) (a b : TermId)
    (ses' : Session) (s' : Subst) : Prop where
  advance : Subst.Advance (Vocabulary.filled F).has st .empty ses'.store s'
  length : s'.sites.length = n
  sites : s'.SitesStored ses'.store
  related : R (Subst.empty.tree st a) (s'.tree ses'.store b)

theorem Replaced.imp (h : Replaced F n R st a b ses' s') (imp : ∀ t u, R t u → R' t u) :
    Replaced F n R' st a b ses' s' := ⟨h.advance, h.length, h.sites, imp _ _ h.related⟩

theorem Halts.replaced (h : Halts L (Replaced F n R st a b) must ses search) (imp : ∀ t u, R t u → R' t u) :
    Halts L (Replaced F n R' st a b) must ses search := h.imp (fun _ _ replaced => replaced.imp imp) id

/-- What is related from a later store on is related from the earlier one. -/
theorem Replaced.of_grows (h : Replaced F n R ses'.store a b ses'' s') (hv : ses.store.Valid)
    (ha : ses.store.Stored a) (g : ses.Grows ses') : Replaced F n R ses.store a b ses'' s' where
  advance := (Subst.Advance.of_grows (.empty hv) g.store).trans h.advance
  length := h.length
  sites := h.sites
  related := by
    rw [← (Subst.Sound.empty hv).tree_grows g.store ha]
    exact h.related

/-- In ground terms, a relation between terms comes to an end with answers that stand for a relation
    between trees. -/
def EndsWith (F : Facts) (R : Tree → Tree → Prop) (relate : Relation) : Prop :=
  ∀ ses a b, Outset F ses a b → ses.Later (relate a b ses).2 ∧
    Halts Session.Later (Replaced F 0 R ses.store a b) False (relate a b ses).2
      (.apply (relate a b ses).1 .empty)

/-! ## Patterns -/

/-- A pattern has been matched, and its replacement has become what it is then. -/
structure Instanced (F : Facts) (st : Store) (a l r : TermId) (τ : UInt32 → Tree) (ses' : Session)
    (s' : Subst) : Prop where
  matched : Matches F [(Subst.empty.tree st a, Subst.empty.tree st l)] τ
  advance : Subst.Advance (Vocabulary.filled F).has st .empty ses'.store s'
  sites : s'.sites = []
  stored : st.Stored r
  result : s'.tree ses'.store r = (Subst.empty.tree st r).subst τ
  ground : (s'.tree ses'.store r).Ground

/-- Further equations leave the result as it is. -/
theorem Instanced.equated {τ : UInt32 → Tree} {x y : TermId} (h : Instanced F st a l r τ ses' s')
    (eq : Equated (Vocabulary.filled F) ses'.store s' x y ses'' s'') :
    Instanced F st a l r τ ses'' s'' := by
  have same : s''.tree ses''.store r = s'.tree ses'.store r :=
    eq.advance.tree_of_ground h.advance.sound (h.advance.grows.stored h.stored) h.ground
  exact ⟨h.matched, h.advance.trans eq.advance, eq.sites.trans h.sites, h.stored,
    same.trans h.result, same ▸ h.ground⟩

/-- A pattern that is matched exactly comes to an end, with its replacement as the result. -/
theorem exactly_halts (h : Outset F ses a b) (hw : Subst.Given (Vocabulary.filled F).has ses.store .empty w)
    (hl : Subst.Given (Vocabulary.filled F).has ses.store .empty l)
    (hr : Subst.Given (Vocabulary.filled F).has ses.store .empty r)
    (closed : ∀ v, (Subst.empty.tree ses.store r).HasVar v → (Subst.empty.tree ses.store l).HasVar v) :
    Halts Session.Later (Replaced F 0 (fun t u => ∃ τ, Matches F [(t, Subst.empty.tree ses.store l)] τ ∧
      ∀ G, Tree.Alike G u ((Subst.empty.tree ses.store r).subst τ)) ses.store a b) False ses
      (.apply (Rule.exactly a b w l r) .empty) := by
  have hs := h.ready.sound
  refine .apply fun ses₁ l₁ => ⟨.refl ses₁, Halts.later ?_ l₁⟩
  show Halts _ _ False ses (.bind (.bind (.apply (.modulo a l) .empty) (.eq w a)) (.eq b r))
  have first : Halts Session.Later (fun ses' s' => ∃ τ, Instanced F ses.store a l r τ ses' s') False ses
      (.apply (.modulo a l) .empty) := by
    have ready : Ready (Vocabulary.filled F) ses .empty a l := .of_given h.ready.facts hs h.left hl
    refine ((modulo_gives (h.facing hl.stored)).halts.and_meets fun n => modulo_meets _ n ready).imp ?_ id
    rintro ses' s' ⟨⟨τ, matched, solved⟩, met⟩
    have result := solved.tree_eq hs hr.stored
    refine ⟨τ, matched, met.advance, met.sites, hr.stored, result, fun v has => ?_⟩
    rw [result, Tree.hasVar_subst] at has
    obtain ⟨x, hx, has⟩ := has
    exact Matches.ground matched (.head _) (closed x hx) v has
  have ready : ∀ {ses' s' x y τ}, ses.Later ses' → Instanced F ses.store a l r τ ses' s' →
      Subst.Given (Vocabulary.filled F).has ses.store .empty x →
      Subst.Given (Vocabulary.filled F).has ses.store .empty y →
      Ready (Vocabulary.filled F) ses' s' x y := fun l' made hx hy =>
    have hx := hx.advance made.advance
    have hy := hy.advance made.advance
    .of_given (l'.grows.facts.trans h.ready.facts) made.advance.sound hx hy
  have second : Halts Session.Later (fun ses' s' => ∃ τ, Instanced F ses.store a l r τ ses' s') False ses
      (.bind (.apply (.modulo a l) .empty) (.eq w a)) := by
    refine first.bind_ends fun ses' s' l' ⟨τ, made⟩ => ?_
    exact (eq_halts (ready l' made hw h.left)).imp (fun _ _ eq => ⟨τ, made.equated eq⟩) id
  refine second.bind_ends fun ses' s' l' ⟨τ, made⟩ => ?_
  refine (eq_halts (ready l' made h.right hr)).imp (fun ses'' s'' eq => ?_) id
  have last := made.equated eq
  refine ⟨last.advance, by rw [last.sites]; rfl, ?_, τ, last.matched, fun G => ?_⟩
  · intro site hsite
    rw [last.sites] at hsite
    cases hsite
  · rw [← last.result]
    exact eq.alike G

/-- A pattern has been made, with its variables counted on from the next new one. -/
structure Counted (p : Pattern) (ses : Session) (w : TermId) (pair : (TermId × TermId) × Session) :
    Prop where
  later : ses.Later pair.2
  left : pair.2.store.Stored pair.1.1
  right : pair.2.store.Stored pair.1.2
  witness : pair.2.store.term? w = some (.var (ses.store.nextVar + p.witness))
  lhs : pair.2.store.tree pair.1.1 = p.lhs.rename (ses.store.nextVar + ·)
  rhs : pair.2.store.tree pair.1.2 = p.rhs.rename (ses.store.nextVar + ·)

/-- A pattern that can be used on its own: the replacement has only variables of the pattern, the witness is
    not in it, and constants fill their shapes. -/
structure Alone (p : Pattern) : Prop where
  closed : ∀ v, p.rhs.HasVar v → p.lhs.HasVar v
  own : ¬ p.lhs.HasVar p.witness
  filled : p.lhs.Filled ∧ p.rhs.Filled

variable {pair : (TermId × TermId) × Session}

/-- The pattern that has been made comes to an end, with what the pattern makes of the tree. -/
theorem Counted.halts (h : Counted p ses w pair) (alone : Alone p) (outset : Outset F ses a b) :
    Halts Session.Later (Replaced F 0 (p.Changes F) ses.store a b) False pair.2
      (.apply (Rule.exactly a b w pair.1.1 pair.1.2) .empty) := by
  have g := h.later.grows
  have later := outset.grows g
  have valid := later.ready.sound.valid
  have inj : Function.Injective (ses.store.nextVar + ·) := fun _ _ => (UInt32.add_right_inj _).mp
  have filled : ∀ {t : Tree}, t.Filled → (t.rename (ses.store.nextVar + ·)).Filled := fun ht =>
    Tree.over_subst ht fun v _ => .var _
  have given : ∀ {u : TermId} {t : Tree}, pair.2.store.Stored u → pair.2.store.tree u = t → t.Filled →
      Subst.Given (Vocabulary.filled F).has pair.2.store .empty u := fun stored eq ht =>
    ⟨stored, by rw [Subst.tree_empty valid, eq]; exact ht⟩
  have witness := given (Store.stored_of_term? h.witness) (valid.tree_var h.witness) (.var _)
  have left := given h.left h.lhs (filled alone.filled.1)
  have right := given h.right h.rhs (filled alone.filled.2)
  have halts := exactly_halts later witness left right (by
    intro v has
    rw [Subst.tree_empty valid, h.rhs, Tree.hasVar_rename] at has
    rw [Subst.tree_empty valid, h.lhs, Tree.hasVar_rename]
    obtain ⟨x, has, eq⟩ := has
    exact ⟨x, alone.closed x has, eq⟩)
  rw [Subst.tree_empty valid, Subst.tree_empty valid, h.lhs, h.rhs] at halts
  refine halts.imp (fun ses' s' replaced => ?_) id
  refine (replaced.imp ?_).of_grows outset.ready.sound.valid outset.ready.left g
  rintro t u ⟨τ, matched, alike⟩
  have own : ¬ (p.rename (ses.store.nextVar + ·)).lhs.HasVar (p.rename (ses.store.nextVar + ·)).witness := by
    intro has
    obtain ⟨v, has, eq⟩ := Tree.hasVar_rename.mp has
    exact alone.own (inj eq ▸ has)
  refine Pattern.Changes.of_rename ⟨_, .of_matches matched own, fun G => ?_⟩ inj.injOn
    fun v has => .inl (alone.closed v has)
  have same : (p.rhs.rename (ses.store.nextVar + ·)).subst (Tree.andThen τ
      (Tree.only (ses.store.nextVar + p.witness) t)) = (p.rhs.rename (ses.store.nextVar + ·)).subst τ := by
    refine Tree.subst_congr fun v has => ?_
    obtain ⟨x, inner, rfl⟩ := Tree.hasVar_rename.mp has
    refine (matched.ground (.head _) ?_).subst _
    exact Tree.hasVar_rename.mpr ⟨x, alone.closed x inner, rfl⟩
  show Tree.Alike G u ((p.rhs.rename (ses.store.nextVar + ·)).subst _)
  rw [Pattern.rename, same]
  exact alike G

/-! ## Rules -/

variable {build : TermId → SessionM (TermId × TermId)} {relate : Relation}

theorem EndsWith.imp (h : EndsWith F R relate) (imp : ∀ t u, R t u → R' t u) : EndsWith F R' relate :=
  fun ses a b outset => ⟨(h ses a b outset).1, (h ses a b outset).2.replaced imp⟩

/-- A rule made of a pattern comes to an end. -/
theorem pattern_ends (name : String) (alone : Alone p) (counts : ∀ ses : Session, ses.store.Valid →
      Counted p ses (Session.fresh ses).1 (build (Session.fresh ses).1 (Session.fresh ses).2)) :
    EndsWith F (p.Changes F) (Rule.pattern name build).relate := fun ses _ _ outset =>
  have made := counts ses outset.ready.sound.valid
  ⟨made.later, made.halts alone outset⟩

theorem Alone.beside {op : String} {k : UInt32} (h : Alone p) (ne : p.witness ≠ k) :
    Alone (p.beside op k) where
  closed v has := by
    simp only [Pattern.beside, Tree.hasVar_app, List.mem_cons, List.not_mem_nil, or_false,
      exists_eq_or_imp, exists_eq_left] at has ⊢
    exact has.imp_left (h.closed v)
  own has := by
    simp only [Pattern.beside, Tree.hasVar_app, List.mem_cons, List.not_mem_nil, or_false,
      exists_eq_or_imp, exists_eq_left, Tree.hasVar_var] at has
    exact has.elim h.own ne
  filled := ⟨Tree.over_pair trivial h.filled.1 (.var k), Tree.over_pair trivial h.filled.2 (.var k)⟩

/-- The pattern with the rest of a chain beside it has been made, with the next variable for the rest. -/
theorem Counted.withRest {k : UInt32} (h : Counted p ses w pair) (hv : ses.store.Valid)
    (next : pair.2.store.nextVar = ses.store.nextVar + k) (op : String) :
    Counted (p.beside op k) ses w (Search.withRest op pair) := by
  obtain ⟨later, rest, var, left, right⟩ := withRest_spec op h.left h.right
  have hv' := (h.later.trans later).grows.store.valid hv
  have trees : ∀ {u : TermId}, pair.2.store.Stored u →
      (Search.withRest op pair).2.store.tree u = pair.2.store.tree u := fun stored =>
    later.grows.store.tree_eq (h.later.grows.store.valid hv) stored
  refine ⟨h.later.trans later, Store.stored_of_term? left, Store.stored_of_term? right,
    later.grows.store.keeps _ _ h.witness, ?_, ?_⟩
  · rw [hv'.tree_app left, List.map_cons, List.map_singleton, hv'.tree_var var, trees h.left, h.lhs, next,
      Pattern.beside, Tree.rename_app]
    rfl
  · rw [hv'.tree_app right, List.map_cons, List.map_singleton, hv'.tree_var var, trees h.right, h.rhs, next,
      Pattern.beside, Tree.rename_app]
    rfl

/-- What a pattern makes of a tree, or of a part of a longer chain. -/
def ChangesInChain (F : Facts) (p : Pattern) (k : UInt32) (t u : Tree) : Prop :=
  p.Changes F t u ∨ ∃ op, p.lhs.IsApp op ∧ F.isChain op = true ∧ (p.beside op k).Changes F t u

/-- A rule made of a pattern in a chain comes to an end. -/
theorem patternInChain_ends {k : UInt32} (name : String) (alone : Alone p) (ne : p.witness ≠ k)
    (counts : ∀ ses : Session, ses.store.Valid →
      Counted p ses (Session.fresh ses).1 (build (Session.fresh ses).1 (Session.fresh ses).2) ∧
        (build (Session.fresh ses).1 (Session.fresh ses).2).2.store.nextVar = ses.store.nextVar + k) :
    EndsWith F (ChangesInChain F p k) (Rule.patternInChain name build).relate := by
  intro ses a b outset
  have hv := outset.ready.sound.valid
  obtain ⟨made, next⟩ := counts ses hv
  rw [Script.patternInChain_relate, Script.chainGoal_apply]
  generalize (Session.fresh ses).1 = w at made next ⊢
  generalize build w (Session.fresh ses).2 = pair at made next ⊢
  have whole : Halts _ (Replaced F 0 (ChangesInChain F p k) ses.store a b) False _ _ :=
    (made.halts alone outset).replaced fun _ _ => .inl
  split
  · exact ⟨made.later, whole⟩
  · rename_i op some
    obtain ⟨isApp, chain⟩ := isApp_of_chainOperator (made.later.grows.store.valid hv) made.lhs some
    rw [made.later.grows.facts.trans outset.ready.facts] at chain
    have later := (withRest_spec op made.left made.right).1
    have part : Halts _ (Replaced F 0 (ChangesInChain F p k) ses.store a b) False _ _ :=
      ((made.withRest hv next op).halts (alone.beside ne) outset).replaced
        fun _ _ changes => .inr ⟨op, isApp, chain, changes⟩
    refine ⟨made.later.trans later, ?_⟩
    show Halts _ _ False (Search.withRest op pair).2 (.apply (.disj [_, Rule.exactly a b w
      (Search.withRest op pair).1.1 (Search.withRest op pair).1.2]) .empty)
    refine disj_halts (List.forall_mem_cons.mpr ⟨whole.later later, List.forall_mem_singleton.mpr part⟩)

/-- The goals of rules that come to an end all do. -/
theorem relateAll_halts {rules : List Rule} (h : ∀ rule ∈ rules, EndsWith F R rule.relate)
    (outset : Outset F ses a b) : ses.Later (Rule.relateAll a b rules ses).2 ∧
      ∀ g ∈ (Rule.relateAll a b rules ses).1, Halts Session.Later (Replaced F 0 R ses.store a b) False
        (Rule.relateAll a b rules ses).2 (.apply g .empty) := by
  induction rules generalizing ses with
  | nil => exact ⟨.refl ses, fun _ hg => absurd hg List.not_mem_nil⟩
  | cons rule rest ih =>
    rw [List.forall_mem_cons] at h
    obtain ⟨l, first⟩ := h.1 ses a b outset
    obtain ⟨l', others⟩ := ih h.2 (outset.grows l.grows)
    show ses.Later (Rule.relateAll a b rest (rule.relate a b ses).2).2 ∧
      ∀ g ∈ (rule.relate a b ses).1 :: (Rule.relateAll a b rest (rule.relate a b ses).2).1, Halts _ _ False
        (Rule.relateAll a b rest (rule.relate a b ses).2).2 (.apply g .empty)
    refine ⟨l.trans l', List.forall_mem_cons.mpr ⟨first.later l', fun g hg => ?_⟩⟩
    refine (others g hg).imp (fun _ _ replaced => ?_) id
    exact replaced.of_grows outset.ready.sound.valid outset.ready.left l.grows

/-- Any of some rules that come to an end does. -/
theorem any_ends (name : String) {rules : List Rule} (h : ∀ rule ∈ rules, EndsWith F R rule.relate) :
    EndsWith F R (Rule.any name rules).relate := by
  intro ses a b outset
  obtain ⟨later, goals⟩ := relateAll_halts h outset
  exact ⟨later, disj_halts goals⟩

/-! ## Rewriting at one position -/

/-- A site is recorded where a rule has been used. -/
theorem Replaced.site (h : Replaced F n R st a b ses' s') (ha : st.Stored a) (hb : st.Stored b)
    (g : ses'.Grows ses'') :
    Replaced F (n + 1) (Tree.Rewrites R) st a b ses'' (s'.addSite ⟨a, b⟩) where
  advance := (h.advance.trans (.of_grows h.advance.sound g.store)).congr rfl
  length := by
    show (s'.sites ++ [_]).length = n + 1
    rw [List.length_append, h.length]
    rfl
  sites site hsite := by
    rcases List.mem_append.mp hsite with hsite | hsite
    · exact ⟨g.store.stored (h.sites site hsite).1, g.store.stored (h.sites site hsite).2⟩
    · rw [List.mem_singleton.mp hsite]
      have stored := (h.advance.grows.trans g.store)
      exact ⟨stored.stored ha, stored.stored hb⟩
  related := by
    have same : s'.bindings = (s'.addSite ⟨a, b⟩).bindings := rfl
    rw [(h.advance.sound.grows g.store).tree_congr same,
      h.advance.sound.tree_grows g.store (h.advance.grows.stored hb)]
    exact .here h.related

theorem atRoot_halts (hr : EndsWith F R relate) (h : Outset F ses a b) :
    ses.Later (atRoot relate a b .empty ses).2 ∧
      Halts Session.Later (Replaced F 1 (Tree.Rewrites R) ses.store a b) False
        (atRoot relate a b .empty ses).2 (atRoot relate a b .empty ses).1 := by
  obtain ⟨l, halts⟩ := hr ses a b h
  refine ⟨l, ?_⟩
  show Halts _ _ False _ (.bind (.apply (relate a b ses).1 .empty) (.site a b))
  refine halts.bind_ends fun ses' s' l' replaced => site_halts fun ses'' l'' => ?_
  exact replaced.site h.ready.left h.ready.right l''.grows

variable {op : String} {args : List TermId} {attrs : Attrs} {i : Nat} {x y : TermId} {v : UInt32}

/-- An operand is rewritten to `y`, and the term is equal to the application built around it. -/
theorem rebuilt_halts (stay : ∀ t u, R t u → t.Ground → u.Ground) (h : Outset F ses a b)
    (ha : ses.store.term? (Subst.empty.deref ses.store a) = some (.app op args attrs))
    (hx : args[i]? = some x) (hy : ses.store.term? y = some (.var v))
    (hw : ses.store.term? w = some (.app op (args.set i y) attrs))
    (ih : Outset F ses x y → Halts Session.Later (Replaced F 1 (Tree.Rewrites R) ses.store x y) False ses
      (.apply (.anywhere relate x y) .empty)) :
    Halts Session.Later (Replaced F 1 (Tree.Rewrites R) ses.store a b) False ses
      (bind (.apply (.anywhere relate x y) .empty) (.eq b w)) := by
  have hs := h.ready.sound
  have tree := hs.tree_of_app ha
  have ground := h.ground
  have labels := h.left.labels
  rw [tree] at ground labels
  rw [Tree.over_app] at labels
  have overs : ∀ u ∈ args, (Subst.empty.tree ses.store u).Over (Vocabulary.filled F).has := fun u hu =>
    labels.2 _ (List.mem_map_of_mem hu)
  have mem := List.mem_of_getElem? hx
  have storedY := Store.stored_of_term? hy
  have overY : (Subst.empty.tree ses.store y).Over (Vocabulary.filled F).has := by
    rw [Subst.tree_empty hs.valid, hs.valid.tree_var hy]
    exact .var v
  have groundX : (Subst.empty.tree ses.store x).Ground := ground.of_mem (List.mem_map_of_mem mem)
  have operand : Outset F ses x y :=
    ⟨.of_given h.ready.facts hs ⟨hs.valid.stored ha mem, overs x mem⟩ ⟨storedY, overY⟩, groundX⟩
  have result : Subst.Given (Vocabulary.filled F).has ses.store .empty w := by
    refine ⟨Store.stored_of_term? hw, ?_⟩
    rw [hs.tree_app hw, Tree.over_app]
    refine ⟨trivial, List.forall_mem_map.mpr fun u hu => ?_⟩
    rcases List.mem_or_eq_of_mem_set hu with hu | rfl
    · exact overs u hu
    · exact overY
  refine (ih operand).bind_ends fun ses' s' l below => ?_
  have ready : Ready (Vocabulary.filled F) ses' s' b w :=
    .of_given (l.grows.facts.trans h.ready.facts) below.advance.sound (h.right.advance below.advance)
      (result.advance below.advance)
  refine (eq_halts ready).imp (fun ses'' s'' equated => ?_) id
  have adv := below.advance.trans equated.advance
  -- The operands are ground and stay as they are, and so does the result in place of one of them.
  have kept : ∀ u ∈ args, s''.tree ses''.store u = Subst.empty.tree ses.store u := fun u hu =>
    adv.tree_of_ground hs (hs.valid.stored ha hu) (ground.of_mem (List.mem_map_of_mem hu))
  have groundY : (s'.tree ses'.store y).Ground := below.related.ground groundX stay
  have keptY : s''.tree ses''.store y = s'.tree ses'.store y :=
    equated.advance.tree_of_ground below.advance.sound (below.advance.grows.stored storedY) groundY
  refine ⟨adv, by rw [equated.sites, below.length], fun site hsite => ?_, ?_⟩
  · rw [equated.sites] at hsite
    have stored := below.sites site hsite
    exact ⟨equated.advance.grows.stored stored.1, equated.advance.grows.stored stored.2⟩
  · rw [tree]
    refine .inside (i := i) (by rw [List.getElem?_map, hx]; rfl) below.related fun G => ?_
    have alike := equated.alike G
    rwa [adv.sound.tree_app (adv.grows.keeps _ _ hw), List.map_set, keptY, List.map_congr_left kept] at alike

/-- One operand is rewritten, and the application is built anew around its result. -/
theorem inOperand_halts (stay : ∀ t u, R t u → t.Ground → u.Ground) (h : Outset F ses a b)
    (ha : ses.store.term? (Subst.empty.deref ses.store a) = some (.app op args attrs))
    (hx : args[i]? = some x)
    (ih : ∀ {ses' y}, ses.Later ses' → Outset F ses' x y → Halts Session.Later
      (Replaced F 1 (Tree.Rewrites R) ses'.store x y) False ses' (.apply (.anywhere relate x y) .empty)) :
    ses.Later (inOperand relate op args attrs b i x .empty ses).2 ∧
      Halts Session.Later (Replaced F 1 (Tree.Rewrites R) ses.store a b) False
        (inOperand relate op args attrs b i x .empty ses).2
        (inOperand relate op args attrs b i x .empty ses).1 := by
  have hs := h.ready.sound
  obtain ⟨y, w, ses', eq, l, hy, hw⟩ :=
    inOperand_spec relate attrs b i x .empty fun u => hs.valid.stored ha
  rw [eq]
  have ha' := l.grows.store.keeps _ _ ha
  rw [← hs.deref_grows l.grows.store h.ready.left] at ha'
  exact ⟨l, (rebuilt_halts stay (h.grows l.grows) ha' hx hy hw (ih l)).imp
    (fun _ _ replaced => replaced.of_grows hs.valid h.ready.left l.grows) id⟩

theorem belowRoot_halts (stay : ∀ t u, R t u → t.Ground → u.Ground) (h : Outset F ses a b)
    (ih : ∀ {ses' x y}, Outset F ses' x y →
      (Subst.empty.tree ses'.store x).size < (Subst.empty.tree ses.store a).size →
      Halts Session.Later (Replaced F 1 (Tree.Rewrites R) ses'.store x y) False ses'
        (.apply (.anywhere relate x y) .empty)) :
    ses.Later (belowRoot relate a b .empty ses).2 ∧
      Halts Session.Later (Replaced F 1 (Tree.Rewrites R) ses.store a b) False
        (belowRoot relate a b .empty ses).2 (belowRoot relate a b .empty ses).1 := by
  have hs := h.ready.sound
  unfold belowRoot
  split
  · exact ⟨.refl ses, .empty id⟩
  · rename_i op args attrs found
    have ha := Store.app?_eq_some_iff.mp found
    refine ⟨.refl ses, Halts.union (List.forall_mem_map.mpr fun ⟨x, i⟩ hx => .suspend fun ses' l => ?_)⟩
    have hx : args[i]? = some x := List.mem_zipIdx_iff_getElem?.mp hx
    have mem := List.mem_of_getElem? hx
    have ha' := l.grows.store.keeps _ _ ha
    rw [← hs.deref_grows l.grows.store h.ready.left] at ha'
    have below : ∀ {ses'' y}, ses'.Later ses'' → Outset F ses'' x y → Halts Session.Later
        (Replaced F 1 (Tree.Rewrites R) ses''.store x y) False ses'' (.apply (.anywhere relate x y) .empty) := by
      intro ses'' y l' outset
      refine ih outset ?_
      rw [hs.tree_grows (l.trans l').grows.store (hs.valid.stored ha mem), hs.tree_of_app ha]
      exact Tree.size_lt (List.mem_map_of_mem mem)
    obtain ⟨l', halts⟩ := inOperand_halts stay (h.grows l.grows) ha' hx below
    exact ⟨l', halts.imp (fun _ _ replaced => replaced.of_grows hs.valid h.ready.left l.grows) id⟩

/-- Rewriting at one position of a ground term comes to an end. -/
theorem anywhere_halts (stay : ∀ t u, R t u → t.Ground → u.Ground) (hr : EndsWith F R relate)
    (h : Outset F ses a b) : Halts Session.Later (Replaced F 1 (Tree.Rewrites R) ses.store a b) False ses
      (.apply (.anywhere relate a b) .empty) := by
  generalize eq : Subst.empty.tree ses.store a = t
  induction t using Tree.size_induct generalizing ses a b with
  | step t ih =>
    subst eq
    have hs := h.ready.sound
    refine .apply fun ses' l => ?_
    show ses'.Later (anywhere relate a b .empty ses').2 ∧ Halts _ _ False (anywhere relate a b .empty ses').2
      (anywhere relate a b .empty ses').1
    unfold anywhere
    split
    · exact ⟨.refl ses', .empty id⟩
    refine ⟨.refl ses', ?_⟩
    have root : Halts Session.Later (Replaced F 1 (Tree.Rewrites R) ses.store a b) False ses'
        (.suspend (atRoot relate a b .empty)) := .suspend fun ses₁ l₁ => by
      have g := (l.trans l₁).grows
      obtain ⟨l₂, halts⟩ := atRoot_halts hr (h.grows g)
      exact ⟨l₂, halts.imp (fun _ _ replaced => replaced.of_grows hs.valid h.ready.left g) id⟩
    have below : Halts Session.Later (Replaced F 1 (Tree.Rewrites R) ses.store a b) False ses'
        (.suspend (belowRoot relate a b .empty)) := .suspend fun ses₁ l₁ => by
      have g := (l.trans l₁).grows
      have same := hs.tree_grows g.store h.ready.left
      obtain ⟨l₂, halts⟩ := belowRoot_halts stay (h.grows g) fun outset lt => ih _ (same ▸ lt) outset rfl
      exact ⟨l₂, halts.imp (fun _ _ replaced => replaced.of_grows hs.valid h.ready.left g) id⟩
    exact (root.plus below).imp (fun _ _ => id) or_self_iff.mpr

end Search

end Regraft
