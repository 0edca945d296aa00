import Regraft.Proofs.Match.Chain
import Regraft.Proofs.Match.Toward
import Regraft.Proofs.Renaming.Chain
import Regraft.Proofs.Renaming.Search
import Regraft.Proofs.Search.Goal

/-
  Matching twins modulo the facts goes in step on both sides (`modulo_steps`): the same orders and the same
  ways to hand operands out are tried one after the other. The bound on how far a matcher goes down at
  once is another on each side, but it is never met, since a term is entered at once only through the
  only operand of another (`Enough`).
-/

namespace Regraft

namespace Renaming

variable {ρ : Renaming} {p q : Sides} {n : Nat} {s s' : Subst} {t t' a a' b b' : TermId} {op : String}
  {m m' : Search.Matcher}

/-! ## Unification -/

theorem mismatch_steady : ρ.Steady p (ρ.Lockstep n) Search.mismatch Search.mismatch :=
  (count_steady _).then fun _ _ _ _ _ => .pure .empty

theorem unify_steady (hs : ρ.SameSubst p s s') (ha : ρ.Same p a a') (hb : ρ.Same p b b') :
    ρ.Steady p (ρ.Lockstep n) (Search.unify a b s) (Search.unify a' b' s') := by
  intro agree
  have unified := unify_substs hs ha hb
  rw [Search.unify_apply, Search.unify_apply]
  generalize s.unify p.left.store a b = x at unified ⊢
  generalize s'.unify p.right.store a' b' = x' at unified ⊢
  cases unified with
  | none => exact mismatch_steady agree
  | @some u u' unified =>
    obtain ⟨agree', grow, -⟩ := count_steady (p := p) Counters.countUnification agree
    exact ⟨agree', grow, .unit (SameSubst.grow unified grow)⟩

/-! ## Matching pairs -/

/-- Matching goals of twins go in step. -/
def ModuloSteps (ρ : Renaming) (n : Nat) : Prop :=
  ∀ {p a a' b b'}, ρ.Same p a a' → ρ.Same p b b' → ρ.GoalSteps n p (.modulo a b) (.modulo a' b')

/-- Matchers set up searches that go in step for two pairs. -/
def MatcherSteps (ρ : Renaming) (n : Nat) (p : Sides) (s s' : Subst) (m m' : Search.Matcher)
    (x x' : TermId × TermId) : Prop :=
  ∀ q, p.Grow q → ρ.Steady q (ρ.Lockstep n) (m x.1 x.2 s) (m' x'.1 x'.2 s')

/-- Both terms of a pair have twins. -/
abbrev SamePair (ρ : Renaming) (p : Sides) : TermId × TermId → TermId × TermId → Prop :=
  ρ.Pairs p.left.store p.right.store

theorem matchPairs_steady (hg : ρ.ModuloSteps n) {pairs pairs' : List (TermId × TermId)}
    (hs : ρ.SameSubst p s s') (same : List.Forall₂ (ρ.SamePair p) pairs pairs')
    (single : ∀ x x', pairs = [x] → pairs' = [x'] → ρ.MatcherSteps n p s s' m m' x x') :
    ρ.Steady p (ρ.Lockstep n) (Search.matchPairs m s pairs) (Search.matchPairs m' s' pairs') := by
  have goals : ∀ {x x' : TermId × TermId}, ρ.SamePair p x x' →
      ρ.GoalSteps n p (.modulo x.1 x.2) (.modulo x'.1 x'.2) := fun same => hg same.1 same.2
  cases same with
  | nil => exact .pure (.unit hs)
  | @cons x x' rest rest' first others => cases others with
    | nil => exact single x x' rfl rfl p (.refl p)
    | cons second others =>
      refine .pure (.through (goals first) (.cons (goals second) ?_) hs)
      rw [List.forall₂_map_left_iff, List.forall₂_map_right_iff]
      exact others.imp fun _ _ same => goals same

/-! ## Orders -/

theorem permuted_steps (hg : ρ.ModuloSteps n) {R : TermId → TermId → Prop}
    {xs xs' ys ys' : List TermId} (left : List.Forall₂ R xs xs')
    (same : ∀ {x x'}, R x x' → ρ.Same p x x') (right : ρ.Sames p ys ys')
    (hm : ∀ {x x' y y'}, R x x' → ρ.Same p y y' → ρ.MatcherSteps n p s s' m m' (x, y) (x', y'))
    (hs : ρ.SameSubst p s s') (orders : Orders) :
    ρ.Lockstep n p (.permuted m orders xs ys s) (.permuted m' orders xs' ys' s') := by
  generalize hk : orders.left = k
  induction k using Nat.strongRecOn generalizing orders with
  | ind k ih =>
    rw [Search.permuted, Search.permuted]
    split
    · exact .empty
    · rename_i order later next
      have rest := ih _ (hk ▸ Orders.left_lt_of_next? next) later rfl
      refine (Lockstep.suspend fun q g => ?_).pred
      have pairs := zip_rel (picked_rel left order) right
      have here : ρ.Steady q (ρ.Lockstep n)
          (Search.matchPairs m s ((order.filterMap (xs[·]?)).zip ys))
          (Search.matchPairs m' s' ((order.filterMap (xs'[·]?)).zip ys')) := by
        refine matchPairs_steady hg (hs.grow g) (pairs.imp fun _ _ h => ?_) fun x x' eq eq' => ?_
        · exact ⟨Same.grow (same h.1) g, Same.grow h.2 g⟩
        · rw [eq, eq'] at pairs
          cases pairs with
          | cons h => exact fun r g' => hm h.1 h.2 r (g.trans g')
      refine Steady.acts (here.map (f := (Search.plus · (.suspend fun ses => (.permuted m later xs ys s, ses))))
        (g := (Search.plus · (.suspend fun ses => (.permuted m' later xs' ys' s', ses))))
        fun r _ _ g' here => here.plus ?_)
      exact (Lockstep.suspend fun r' g'' => Steady.acts
        (.pure (rest.grow ((g.trans g').trans g'')))).pred

/-! ## Groups -/

theorem zip_eq_singleton {xs ys : List TermId} {x : TermId × TermId} (length : xs.length = ys.length)
    (h : xs.zip ys = [x]) : xs = [x.1] ∧ ys = [x.2] := by
  match xs, ys with
  | [], [] => cases h
  | [a], [b] =>
    cases h
    exact ⟨rfl, rfl⟩
  | _ :: _ :: _, _ :: _ :: _ => cases h

theorem grouped_steps (hg : ρ.ModuloSteps n) {short short' : List TermId} {long long' : Chain}
    (shorts : ρ.Sames p short short')
    (longs : ρ.Chains p.left.store p.right.store long long')
    (single : ∀ u u', short = [u] → short' = [u'] → ∀ q t t', p.Grow q → ρ.Same q t t' →
      ρ.MatcherSteps n q s s' m m' (u, t) (u', t') ∧ ρ.MatcherSteps n q s s' m m' (t, u) (t', u'))
    (hs : ρ.SameSubst p s s') (shortFirst : Bool) (groupings : Groupings) :
    ρ.Lockstep n p (.grouped m op short long shortFirst groupings s)
      (.grouped m' op short' long' shortFirst groupings s') := by
  generalize hk : groupings.left = k
  induction k using Nat.strongRecOn generalizing groupings with
  | ind k ih =>
    rw [Search.grouped, Search.grouped]
    split
    · exact .empty
    · rename_i assignment later next
      have rest := ih _ (hk ▸ Groupings.left_lt_of_next? next) later rfl
      refine (Lockstep.suspend fun q g agree _ => ?_).pred
      have made := onStore_steady (p := q) (R := fun q q' => Option.Rel (List.Forall₂ (ρ.Twins q q')))
        (f := Search.groups op long assignment (List.range short.length))
        (g := Search.groups op long' assignment (List.range short'.length))
        (fun agrees => shorts.length_eq ▸ groups_made agrees
          (longs.grows g.left.store g.right.store) assignment _) agree
      have count : ∀ ts, (Session.onStore (Search.groups op long assignment
          (List.range short.length)) q.left).1 = some ts → ts.length = short.length := fun ts h => by
        have made : (Search.groups op long assignment (List.range short.length) q.left.store).1 = some ts := h
        rw [length_of_groups made, List.length_range]
      generalize Session.onStore (Search.groups op long assignment (List.range short.length)) q.left = r
        at made count ⊢
      generalize Session.onStore (Search.groups op long' assignment (List.range short'.length)) q.right
        = r' at made ⊢
      obtain ⟨x, c⟩ := r
      obtain ⟨x', d⟩ := r'
      obtain ⟨agree', grow, result⟩ := made
      dsimp only at result
      cases result with
      | none => exact ⟨agree', grow, .empty⟩
      | @some ts ts' twins =>
        have h := SameSubst.grow hs (g.trans grow)
        have shorts' := shorts.grow (g.trans grow)
        have length : short.length = ts.length := (count ts rfl).symm
        have pairs : List.Forall₂ (ρ.SamePair ⟨c, d⟩) (if shortFirst then short.zip ts else ts.zip short)
            (if shortFirst then short'.zip ts' else ts'.zip short') := by
          cases shortFirst with
          | true => exact zip_rel shorts' twins
          | false => exact zip_rel twins shorts'
        have here : ρ.Steady ⟨c, d⟩ (ρ.Lockstep n) (Search.matchPairs m s _) (Search.matchPairs m' s' _) :=
          matchPairs_steady hg h pairs fun x x' eq eq' => ?_
        · refine ((here.map (f := (Search.plus · (.suspend fun ses =>
            (.grouped m op short long shortFirst later s, ses)))) (g := (Search.plus · (.suspend fun ses =>
              (.grouped m' op short' long' shortFirst later s', ses)))) fun r _ _ g' here => here.plus ?_)
                agree').after grow
          exact (Lockstep.suspend fun r' g'' => Steady.acts
            (.pure (rest.grow (((g.trans grow).trans g').trans g'')))).pred
        · have length' : short'.length = ts'.length := by
            rw [← shorts.length_eq, length, twins.length_eq]
          rw [eq, eq'] at pairs
          obtain ⟨same, -⟩ := List.forall₂_cons.mp pairs
          cases shortFirst with
          | true =>
            obtain ⟨only, -⟩ := zip_eq_singleton length eq
            obtain ⟨only', -⟩ := zip_eq_singleton length' eq'
            exact (single _ _ only only' ⟨c, d⟩ _ _ (g.trans grow) same.2).1
          | false =>
            obtain ⟨-, only⟩ := zip_eq_singleton length.symm eq
            obtain ⟨-, only'⟩ := zip_eq_singleton length'.symm eq'
            exact (single _ _ only only' ⟨c, d⟩ _ _ (g.trans grow) same.1).2

/-! ## Depth -/

/-- A matcher that goes down at most `depth` applications of the left term meets no bound: that term is
    less deep, or the right one is a variable, which is bound at once. -/
def Enough (depth : Nat) (s : Subst) (st : Store) (a b : TermId) : Prop :=
  (s.tree st a).depth < depth ∨ (∃ v, s.tree st b = .var v) ∧ 0 < depth

theorem Enough.grows {depth : Nat} {st st' : Store} (h : Enough depth s st a b) (hs : s.Sound st)
    (g : st.Grows st') (ha : st.Stored a) (hb : st.Stored b) : Enough depth s st' a b := by
  unfold Enough
  rw [hs.tree_grows g ha, hs.tree_grows g hb]
  exact h

/-- Matchers that go in step on twins that they have enough depth for. -/
def Matches (ρ : Renaming) (n : Nat) (depth depth' : Nat) : Prop :=
  ∀ {p a a' b b' s s'}, ρ.SameSubst p s s' → ρ.Same p a a' → ρ.Same p b b' →
    Enough depth s p.left.store a b → Enough depth' s' p.right.store a' b' →
      ρ.Steady p (ρ.Lockstep n) (Search.moduloWithin depth a b s) (Search.moduloWithin depth' a' b' s')

variable {depth depth' : Nat}

theorem Matches.steps (h : ρ.Matches n depth depth') (hs : ρ.SameSubst p s s') (ha : ρ.Same p a a')
    (hb : ρ.Same p b b') (left : Enough depth s p.left.store a b)
    (right : Enough depth' s' p.right.store a' b') :
    ρ.MatcherSteps n p s s' (Search.moduloWithin depth) (Search.moduloWithin depth') (a, b) (a', b') :=
  fun _ g => h (hs.grow g) (ha.grow g) (hb.grow g)
    (left.grows hs.left g.left.store ha.stored_left hb.stored_left)
    (right.grows hs.right g.right.store ha.stored_right hb.stored_right)

/-- A term that resolves to a variable. -/
theorem tree_of_isSome {st : Store} (hs : s.Sound st)
    (h : (st.var? (s.deref st t)).isSome = true) : ∃ v, s.tree st t = .var v := by
  obtain ⟨v, hv⟩ := Option.isSome_iff_exists.mp h
  exact ⟨v, hs.tree_of_var (Store.var?_eq_some_iff.mp hv)⟩

theorem Enough.of_left {st : Store} (h : ∃ v, s.tree st a = .var v) (pos : 0 < depth) :
    Enough depth s st a b := by
  obtain ⟨v, hv⟩ := h
  exact .inl (by rw [hv]; exact pos)

theorem Enough.of_right {st : Store} (h : ∃ v, s.tree st b = .var v) (pos : 0 < depth) :
    Enough depth s st a b := .inr ⟨h, pos⟩

/-- The items that may stand for several operands are the same on both sides. -/
theorem absorbs_eq (hs : ρ.SameSubst p s s') {ts ts' : List TermId} (same : ρ.Sames p ts ts') :
    ts'.map (fun t => (p.right.store.var? (s'.deref p.right.store t)).isSome) =
      ts.map fun t => (p.left.store.var? (s.deref p.left.store t)).isSome := by
  induction same with
  | nil => rfl
  | @cons t t' _ _ first _ ih =>
    have here := (hs.toCarries.deref first).var?
    rw [List.map_cons, List.map_cons, ih]
    congr 1
    generalize p.left.store.var? (s.deref p.left.store t) = x at here ⊢
    generalize p.right.store.var? (s'.deref p.right.store t') = x' at here ⊢
    cases here <;> rfl

/-- The operands of the longer chain are handed to those of the shorter one, if one of these absorbs. -/
theorem handed_steady (hg : ρ.ModuloSteps n) (hm : ρ.Matches n depth depth') (pos : 0 < depth)
    (pos' : 0 < depth') {short short' long long' : Chain} (hs : ρ.SameSubst p s s')
    (shorts : ρ.Chains p.left.store p.right.store short short')
    (longs : ρ.Chains p.left.store p.right.store long long') (shortFirst : Bool) :
    ρ.Steady p (ρ.Lockstep n)
      (fun ses =>
        let absorbs := short.items.map fun t => (ses.store.var? (s.deref ses.store t)).isSome
        if absorbs.contains true then
          (.grouped (Search.moduloWithin depth) op short.items long shortFirst
            (.all long.items.length absorbs) s, ses)
        else Search.mismatch ses)
      (fun ses =>
        let absorbs := short'.items.map fun t => (ses.store.var? (s'.deref ses.store t)).isSome
        if absorbs.contains true then
          (.grouped (Search.moduloWithin depth') op short'.items long' shortFirst
            (.all long'.items.length absorbs) s', ses)
        else Search.mismatch ses) := by
  have same := absorbs_eq hs shorts.items
  intro agree
  dsimp only
  rw [same]
  split
  · rename_i absorbs
    refine ⟨agree, .refl p, ?_⟩
    rw [← longs.items.length_eq]
    refine grouped_steps hg shorts.items longs (fun u u' only only' q t t' g ht => ?_) hs shortFirst _
    -- The only operand of the shorter chain is a variable, so that any depth suffices.
    have items := shorts.items
    rw [← same, only'] at absorbs
    rw [only, only'] at items
    have hu : ρ.Same p u u' := (List.forall₂_cons.mp items).1
    have var' := tree_of_isSome (t := u') hs.right (by simpa using absorbs)
    rw [← only', same, only] at absorbs
    have var := tree_of_isSome (t := u) hs.left (by simpa using absorbs)
    rw [← hs.left.tree_grows g.left.store hu.stored_left] at var
    rw [← hs.right.tree_grows g.right.store hu.stored_right] at var'
    exact ⟨hm.steps (hs.grow g) (hu.grow g) ht (.of_left var pos) (.of_left var' pos'),
      hm.steps (hs.grow g) ht (hu.grow g) (.of_right var pos) (.of_right var' pos')⟩
  · exact mismatch_steady agree

theorem regroup_steady (hg : ρ.ModuloSteps n) (hm : ρ.Matches n depth depth') (pos : 0 < depth)
    (pos' : 0 < depth') {x x' y y' : Chain} (hs : ρ.SameSubst p s s')
    (hx : ρ.Chains p.left.store p.right.store x x') (hy : ρ.Chains p.left.store p.right.store y y') :
    ρ.Steady p (ρ.Lockstep n) (Search.regroup (Search.moduloWithin depth) op x y s)
      (Search.regroup (Search.moduloWithin depth') op x' y' s') := by
  unfold Search.regroup
  rw [← hx.items.length_eq, ← hy.items.length_eq]
  by_cases lt : x.items.length < y.items.length
  · simp only [lt, if_true]
    exact handed_steady hg hm pos pos' hs hx hy true
  · simp only [lt, if_false]
    exact handed_steady hg hm pos pos' hs hy hx false

/-- Twins that a matcher of a given depth may go down to. -/
def Below (ρ : Renaming) (p : Sides) (s s' : Subst) (depth depth' : Nat) (u u' : TermId) : Prop :=
  ρ.Same p u u' ∧ (s.tree p.left.store u).depth < depth ∧ (s'.tree p.right.store u').depth < depth'

theorem Below.steps (hm : ρ.Matches n depth depth') (hs : ρ.SameSubst p s s') {u u' w w' : TermId}
    (h : ρ.Below p s s' depth depth' u u') (hw : ρ.Same p w w') :
    ρ.MatcherSteps n p s s' (Search.moduloWithin depth) (Search.moduloWithin depth') (u, w) (u', w') :=
  hm.steps hs h.1 hw (.inl h.2.1) (.inl h.2.2)

/-- A relation between members that holds beside being twins. -/
theorem sames_and {P P' : TermId → Prop} {ts ts' : List TermId} (h : ρ.Sames p ts ts')
    (left : ∀ t ∈ ts, P t) (right : ∀ t ∈ ts', P' t) :
    List.Forall₂ (fun t t' => ρ.Same p t t' ∧ P t ∧ P' t') ts ts' := by
  induction h with
  | nil => exact .nil
  | cons first _ ih =>
    rw [List.forall_mem_cons] at left right
    exact .cons ⟨first, left.1, right.1⟩ (ih left.2 right.2)

/-- The operands of an application are less deep than it. -/
theorem depth_operand_lt {st : Store} (hs : s.Sound st) {xs : List TermId} {attrs : Attrs}
    (app : st.term? a = some (.app op xs attrs)) :
    ∀ x ∈ xs, (s.tree st x).depth < (s.tree st a).depth := by
  intro x hx
  rw [hs.tree_app app]
  exact Tree.depth_lt (List.mem_map_of_mem hx)

theorem pos_of_app {st : Store} (hs : s.Sound st) {xs : List TermId} {attrs : Attrs}
    (app : st.term? a = some (.app op xs attrs)) (le : (s.tree st a).depth ≤ depth) : 0 < depth := by
  rw [hs.tree_app app, Tree.depth_app] at le
  omega

/-- The items of a chain are less deep than it. -/
theorem depth_item_lt {st : Store} (hs : s.Sound st) {xs : List TermId} {attrs : Attrs}
    (app : st.term? a = some (.app op xs attrs)) :
    ∀ x ∈ (Chain.flatten op s st a).items, (s.tree st x).depth < (s.tree st a).depth := by
  intro x hx
  have reads : Chain.Reads op s st Tree.anyLabel _ _ :=
    Chain.flatten_reads hs (Store.stored_of_term? app) (Tree.over_any _)
  have isApp : (s.tree st a).IsApp op := by
    rw [hs.tree_app app]
    rfl
  refine Tree.depth_lt_of_mem_items isApp ?_
  rw [← reads.items_eq]
  exact List.mem_map_of_mem hx

theorem matchOperands_steady (hg : ρ.ModuloSteps n) (hm : ρ.Matches n depth depth')
    (hs : ρ.SameSubst p s s') (ha : ρ.Same p a a') (hb : ρ.Same p b b')
    {xs xs' ys ys' : List TermId} {attrs : Attrs} (hx : ρ.Sames p xs xs') (hy : ρ.Sames p ys ys')
    (app : p.left.store.term? a = some (.app op xs attrs))
    (app' : p.right.store.term? a' = some (.app op xs' attrs))
    (deep : (s.tree p.left.store a).depth ≤ depth) (deep' : (s'.tree p.right.store a').depth ≤ depth') :
    ρ.Steady p (ρ.Lockstep n) (Search.matchOperands (Search.moduloWithin depth) op a b xs ys s)
      (Search.matchOperands (Search.moduloWithin depth') op a' b' xs' ys' s') := by
  have below : ∀ {us us'}, ρ.Sames p us us' →
      (∀ u ∈ us, (s.tree p.left.store u).depth < (s.tree p.left.store a).depth) →
      (∀ u ∈ us', (s'.tree p.right.store u).depth < (s'.tree p.right.store a').depth) →
      List.Forall₂ (ρ.Below p s s' depth depth') us us' := fun same left right =>
    sames_and same (fun u hu => Nat.lt_of_lt_of_le (left u hu) deep)
      fun u hu => Nat.lt_of_lt_of_le (right u hu) deep'
  have operands := below hx (depth_operand_lt hs.left app) (depth_operand_lt hs.right app')
  intro agree
  have x := flatten_chains op hs ha
  have y := flatten_chains op hs hb
  have items := below x.items (depth_item_lt hs.left app) (depth_item_lt hs.right app')
  unfold Search.matchOperands
  rw [agree.facts]
  by_cases chain : (p.left.facts.isCommutative op && p.left.facts.isAssociative op) = true
  · rw [if_pos chain, if_pos chain]
    dsimp only
    rw [← x.items.length_eq, ← y.items.length_eq]
    split
    · exact ⟨agree, .refl p, permuted_steps hg items And.left y.items
        (fun h hw => h.steps hm hs hw) hs _⟩
    · exact regroup_steady hg hm (pos_of_app hs.left app deep) (pos_of_app hs.right app' deep') hs x y
        agree
  · rw [if_neg chain, if_neg chain, ← hx.length_eq, ← hy.length_eq]
    split
    · exact mismatch_steady agree
    · split
      · exact ⟨agree, .refl p, permuted_steps hg operands And.left hy
          (fun h hw => h.steps hm hs hw) hs _⟩
      · have pairs := zip_rel operands hy
        refine matchPairs_steady hg hs (pairs.imp fun _ _ h => ⟨h.1.1, h.2⟩) (fun u u' eq eq' => ?_)
          agree
        rw [eq, eq'] at pairs
        obtain ⟨h, -⟩ := List.forall₂_cons.mp pairs
        exact h.1.steps hm hs h.2

/-- An application is entered only by a matcher that has depth left for it. -/
theorem Enough.le {st : Store} (hs : s.Sound st) (h : Enough (depth + 1) s st a b)
    {xs : List TermId} {attrs : Attrs}
    (app : st.term? (s.deref st b) = some (.app op xs attrs)) : (s.tree st a).depth ≤ depth := by
  rcases h with lt | ⟨⟨v, var⟩, -⟩
  · exact Nat.le_of_lt_succ lt
  · rw [hs.tree_of_app app] at var
    cases var

/-- Matchers go in step at all depths that are enough. -/
theorem moduloWithin_matches (hg : ρ.ModuloSteps n) (depth depth' : Nat) :
    ρ.Matches n depth depth' := by
  induction depth generalizing depth' with
  | zero =>
    rintro p a a' b b' s s' - - - (lt | ⟨-, pos⟩)
    · cases lt
    · cases pos
  | succ depth ih =>
    intro p a a' b b' s s' hs ha hb enough enough'
    obtain ⟨depth', rfl⟩ : ∃ m, depth' = m + 1 := by
      refine Nat.exists_eq_succ_of_ne_zero fun eq => ?_
      rcases enough' with lt | ⟨-, pos⟩ <;> omega
    have ha' : ρ.Same p _ _ := hs.toCarries.deref ha
    have hb' : ρ.Same p _ _ := hs.toCarries.deref hb
    intro agree
    rw [Search.moduloWithin, Search.moduloWithin]
    dsimp only
    by_cases same : s.deref p.left.store a = s.deref p.left.store b
    · rw [if_pos same, if_pos ((ha'.eq_iff hb').mpr same)]
      exact ⟨agree, .refl p, .unit hs⟩
    · rw [if_neg same, if_neg fun eq => same ((ha'.eq_iff hb').mp eq)]
      have unified := unify_steady (n := n) hs ha' hb' agree
      rcases ha'.app? with ⟨left, right⟩ | ⟨f, xs, xs', attrs, left, right, hx⟩
      · rw [left, right]
        exact unified
      · rw [left, right]
        rcases hb'.app? with ⟨left', right'⟩ | ⟨g, ys, ys', attrs', left', right', hy⟩
        · rw [left', right']
          exact unified
        · rw [left', right']
          rw [Store.app?_eq_some_iff] at left right left' right'
          dsimp only
          split
          · rename_i fits
            obtain ⟨rfl, -⟩ := fits
            refine matchOperands_steady hg (ih _) hs ha' hb' hx hy left right ?_ ?_ agree
            · rw [hs.left.tree_deref]
              exact enough.le hs.left left'
            · rw [hs.right.tree_deref]
              exact enough'.le hs.right right'
          · exact mismatch_steady agree

/-- Matching twins modulo the facts goes in step. -/
theorem modulo_steps (n : Nat) : ρ.ModuloSteps n := by
  have bounded : ∀ {s st t}, Subst.Sound s st → (s.tree st t).depth < Subst.pairBound st := by
    intro s st t hs
    exact Nat.lt_of_lt_of_le (hs.depth_tree_lt t) (Subst.depthBound_le_pairBound st)
  induction n with
  | zero => exact fun _ _ _ _ _ _ _ => rfl
  | succ n ih =>
    intro p a a' b b' ha hb q s s' g hs
    refine .apply fun r g' => Steady.acts ?_
    have h := hs.grow g'
    exact moduloWithin_matches ih _ _ h (ha.grow (g.trans g')) (hb.grow (g.trans g'))
      (.inl (bounded h.left)) (.inl (bounded h.right))

end Renaming

end Regraft
