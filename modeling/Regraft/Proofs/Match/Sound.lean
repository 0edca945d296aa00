import Regraft.Proofs.Match.Enumeration
import Regraft.Proofs.Match.Groups
import Regraft.Proofs.Search.Goal
import Mathlib.Data.List.Zip

/-
  Matching modulo the facts is sound: every answer keeps bindings and sites and makes the two terms
  alike (`modulo_meets`). The matcher that goes down at once is sound by induction on its depth, and
  the goals that it leaves behind by induction on the steps of the search.
-/

namespace Regraft

namespace Search

open Regraft.Tree (Alike)

variable {F : Facts} {V : Vocabulary F} {n : Nat} {ses ses' ses'' : Session} {st : Store}
  {s s' s'' : Subst} {a b : TermId} {op : String}

/-- What the answers of a match satisfy: bindings and sites are kept, and the pairs are alike. -/
structure Matched (V : Vocabulary F) (st : Store) (s : Subst) (pairs : List (TermId × TermId))
    (ses' : Session) (s' : Subst) : Prop where
  advance : Subst.Advance V.has st s ses'.store s'
  sites : s'.sites = s.sites
  alike : ∀ p ∈ pairs, Alike F (s'.tree ses'.store p.1) (s'.tree ses'.store p.2)

/-- The same for operands in some order. -/
structure Paired (V : Vocabulary F) (op : String) (st : Store) (s : Subst) (xs ys : List TermId)
    (ses' : Session) (s' : Subst) : Prop where
  advance : Subst.Advance V.has st s ses'.store s'
  sites : s'.sites = s.sites
  pairs : F.Pairs (fun u w => Alike F (s'.tree ses'.store u) (s'.tree ses'.store w)) op xs ys

theorem Matched.trans {done more : List (TermId × TermId)} (h : Matched V st s done ses' s')
    (stored : ∀ p ∈ done, ses'.store.Stored p.1 ∧ ses'.store.Stored p.2)
    (h' : Matched V ses'.store s' more ses'' s'') : Matched V st s (done ++ more) ses'' s'' where
  advance := h.advance.trans h'.advance
  sites := h'.sites.trans h.sites
  alike p hp := by
    rcases List.mem_append.mp hp with hp | hp
    · exact h'.advance.alike h.advance.sound (stored p hp).1 (stored p hp).2 (h.alike p hp)
    · exact h'.alike p hp

/-- A match that starts in a later store is a match from the earlier one. -/
theorem Matched.of_grows {pairs : List (TermId × TermId)} (hs : s.Sound ses.store)
    (g : ses.Grows ses') (h : Matched V ses'.store s pairs ses'' s') :
    Matched V ses.store s pairs ses'' s' where
  advance := (Subst.Advance.of_grows hs g.store).trans h.advance
  sites := h.sites
  alike := h.alike

/-- A matcher whose answers make the two terms alike. -/
def MatcherSound (V : Vocabulary F) (n : Nat) (m : Matcher) : Prop :=
  ∀ {ses s a b}, Ready V ses s a b → SetsUp (Matched V ses.store s [(a, b)]) n ses (m a b s)

/-- The same of the goals that a matcher leaves behind. -/
def GoalSound (V : Vocabulary F) (n : Nat) : Prop :=
  ∀ {ses s a b}, Ready V ses s a b →
    MeetsFor (Matched V ses.store s [(a, b)]) n ses (.apply (.modulo a b) s)

/-! ## Pairs in a given order -/

theorem foldl_modulo_meets (hg : GoalSound V n) {rest done : List (TermId × TermId)}
    (stored : ∀ p ∈ done, ses.store.Stored p.1 ∧ ses.store.Stored p.2)
    (h : ∀ p ∈ rest, Ready V ses s p.1 p.2) {inner : Search}
    (hi : MeetsFor (Matched V ses.store s done) n ses inner) :
    MeetsFor (Matched V ses.store s (done ++ rest)) n ses
      ((rest.map fun p => Goal.modulo p.1 p.2).foldl bind inner) := by
  induction rest generalizing done inner with
  | nil => rwa [List.append_nil]
  | cons p rest ih =>
    rw [List.forall_mem_cons] at h
    have one : MeetsFor (Matched V ses.store s (done ++ [p])) n ses
        (bind inner (.modulo p.1 p.2)) := by
      refine hi.bind fun ses' s' g matched => ?_
      refine (hg (h.1.advance g matched.advance)).imp fun ses'' s'' last => ?_
      exact matched.trans (fun q hq => ⟨g.store.stored (stored q hq).1,
        g.store.stored (stored q hq).2⟩) last
    have stored' : ∀ q ∈ done ++ [p], ses.store.Stored q.1 ∧ ses.store.Stored q.2 := by
      intro q hq
      rcases List.mem_append.mp hq with hq | hq
      · exact stored q hq
      · rw [List.mem_singleton.mp hq]
        exact ⟨h.1.left, h.1.right⟩
    have later := ih stored' h.2 one
    rwa [List.append_assoc, List.singleton_append] at later

theorem matchPairs_setsUp {m : Matcher} (hm : MatcherSound V n m) (hg : GoalSound V n)
    (hs : s.Sound ses.store) {pairs : List (TermId × TermId)}
    (h : ∀ p ∈ pairs, Ready V ses s p.1 p.2) :
    SetsUp (Matched V ses.store s pairs) n ses (matchPairs m s pairs) := by
  match pairs with
  | [] =>
    intro ses' g
    refine ⟨.refl ses', .unit fun ses'' g' => ⟨?_, rfl, nofun⟩⟩
    exact .of_grows hs (g.trans g').store
  | [(a, b)] => exact hm (h (a, b) (List.mem_singleton_self _))
  | (a, b) :: p :: rest =>
    intro ses' g
    refine ⟨.refl ses', ?_⟩
    rw [List.forall_mem_cons] at h
    refine MeetsFor.grows g ?_
    have stored : ∀ q ∈ [(a, b)], ses.store.Stored q.1 ∧ ses.store.Stored q.2 :=
      List.forall_mem_singleton.mpr ⟨h.1.left, h.1.right⟩
    exact foldl_modulo_meets hg stored h.2 (hg h.1)

/-! ## Pairs in any order -/

theorem ready_of_order {xs ys : List TermId} {order : List Nat}
    (perm : order.Perm (List.range xs.length)) (h : ∀ x ∈ xs, ∀ y ∈ ys, Ready V ses s x y) :
    ∀ p ∈ (order.filterMap (xs[·]?)).zip ys, Ready V ses s p.1 p.2 := by
  intro p hp
  obtain ⟨hx, hy⟩ := List.of_mem_zip hp
  exact h p.1 ((filterMap_perm perm).mem_iff.mp hx) p.2 hy

theorem permuted_meets {m : Matcher} (hm : MatcherSound V n m) (hg : GoalSound V n)
    (hs : s.Sound ses.store) {xs ys : List TermId} (length : xs.length = ys.length)
    (comm : F.isCommutative op = true) (h : ∀ x ∈ xs, ∀ y ∈ ys, Ready V ses s x y)
    {orders : Orders} (size : orders.size = xs.length) (left : orders.left ≤ factorial orders.size) :
    MeetsFor (Paired V op ses.store s xs ys) n ses (permuted m orders xs ys s) := by
  generalize hk : orders.left = k at left
  induction k generalizing ses orders with
  | zero =>
    rw [permuted]
    split
    · exact .empty
    · rename_i order later next
      obtain ⟨_, _, eq⟩ := Orders.next?_spec (by omega) next
      omega
  | succ k ih =>
    rw [permuted]
    split
    · exact .empty
    · rename_i order later next
      obtain ⟨perm, size', left'⟩ := Orders.next?_spec (by omega) next
      refine (MeetsFor.suspend fun ses' g => ?_).pred
      have hs' := hs.grows g.store
      rw [size] at perm
      have zs := filterMap_perm perm
      have ready : ∀ p ∈ (order.filterMap (xs[·]?)).zip ys, Ready V ses' s p.1 p.2 :=
        ready_of_order perm fun x hx y hy => (h x hx y hy).grows g
      obtain ⟨g', here⟩ := matchPairs_setsUp hm hg hs' ready ses' (.refl ses')
      refine ⟨g', .plus (here.imp fun ses'' s' matched => ?_) ?_⟩
      · have matched := matched.of_grows hs g
        refine ⟨matched.advance, matched.sites, _, .inr ⟨comm, zs.symm⟩, ?_⟩
        refine List.forall₂_iff_zip.mpr ⟨by rw [zs.length_eq, length], fun hp => ?_⟩
        exact matched.alike _ hp
      · have rest := ih hs h (size'.trans size) (by omega) (by rw [size']; omega)
        refine (MeetsFor.suspend fun ses'' g'' => ⟨.refl ses'', ?_⟩).pred
        exact rest.grows ((g.trans g').trans g'')

/-! ## Chains of different length -/

/-- The chain of a term after new bindings: its items have become chains themselves. -/
theorem items_of_reads (hs : s.Sound st) {c : Chain} {t : TermId} (ht : st.Stored t)
    (h : Chain.Reads op s st V.has ((s.tree st t).items op) c)
    (adv : Subst.Advance V.has st s ses'.store s') :
    (s'.tree ses'.store t).items op =
      c.items.flatMap fun u => (s'.tree ses'.store u).items op := by
  rw [adv.tree_eq hs ht, Tree.items_subst, ← h.items_eq, List.flatMap_map]
  refine List.flatMap_congr fun u hu => ?_
  rw [adv.tree_eq hs (h.stored u hu)]

/-- What the answers of a regrouping satisfy: the chains of the two lists of operands pair up. -/
structure Regrouped (V : Vocabulary F) (op : String) (st : Store) (s : Subst) (xs ys : List TermId)
    (ses' : Session) (s' : Subst) : Prop where
  advance : Subst.Advance V.has st s ses'.store s'
  sites : s'.sites = s.sites
  pairs : F.Pairs (Alike F) op (xs.flatMap fun u => (s'.tree ses'.store u).items op)
    (ys.flatMap fun u => (s'.tree ses'.store u).items op)

/-- The groups made for all slots have the operands of the chain. -/
theorem pairs_of_groups (chain : F.isChain op = true) (hs : s.Sound ses.store) {long : Chain}
    {trees : List Tree} (reads : Chain.Reads op s ses.store V.has trees long)
    {assignment : List Nat} {short ts : List TermId}
    (length : assignment.length = long.items.length) (bound : ∀ d ∈ assignment, d < short.length)
    (made : List.Forall₂ (fun slot t => ses.store.Stored t ∧ (s.tree ses.store t).Over V.has ∧
      (s.tree ses.store t).items op = (members assignment slot).filterMap (trees[·]?))
      (List.range short.length) ts)
    (matched : Matched V ses.store s (short.zip ts) ses' s') :
    Regrouped V op ses.store s short long.items ses' s' := by
  have adv := matched.advance
  refine ⟨adv, matched.sites, ?_⟩
  have lengths : short.length = ts.length := by
    have := made.length_eq
    rwa [List.length_range] at this
  have left : F.Pairs (Alike F) op (short.flatMap fun u => (s'.tree ses'.store u).items op)
      (ts.flatMap fun u => (s'.tree ses'.store u).items op) := by
    refine .flatMap (.of_forall₂ (List.forall₂_iff_zip.mpr ⟨lengths, fun hp => ?_⟩))
    exact (matched.alike _ hp).items chain
  -- The chain of a group is what the operands at its positions have become.
  have groups : ts.flatMap (fun u => (s'.tree ses'.store u).items op) =
      ((List.range short.length).flatMap fun slot =>
        (members assignment slot).filterMap (trees[·]?)).flatMap
          fun x => (x.subst (s'.image ses'.store)).items op := by
    rw [List.flatMap_assoc]
    clear left lengths matched bound
    generalize List.range short.length = slots at made
    induction made with
    | nil => rfl
    | cons h _ ih =>
      rw [List.flatMap_cons, List.flatMap_cons, ih, adv.tree_eq hs h.1, Tree.items_subst, h.2.2]
  have items : long.items.flatMap (fun u => (s'.tree ses'.store u).items op) =
      trees.flatMap fun x => (x.subst (s'.image ses'.store)).items op := by
    rw [← reads.items_eq, List.flatMap_map]
    refine List.flatMap_congr fun u hu => ?_
    rw [adv.tree_eq hs (reads.stored u hu)]
  have count : assignment.length = trees.length := by
    rw [length, ← reads.items_eq, List.length_map]
  have right : F.Arranges op (ts.flatMap fun u => (s'.tree ses'.store u).items op)
      (long.items.flatMap fun u => (s'.tree ses'.store u).items op) := by
    rw [groups, items]
    exact .inr ⟨Facts.commutative_of_isChain chain, (flatMap_members_perm count bound).flatMap_right _⟩
  exact left.arrange right

theorem Regrouped.of_grows {xs ys : List TermId} (hs : s.Sound ses.store) (g : ses.Grows ses')
    (h : Regrouped V op ses'.store s xs ys ses'' s') : Regrouped V op ses.store s xs ys ses'' s' where
  advance := (Subst.Advance.of_grows hs g.store).trans h.advance
  sites := h.sites
  pairs := h.pairs

theorem Matched.swap {xs ys : List TermId} (h : Matched V st s (ys.zip xs) ses' s') :
    Matched V st s (xs.zip ys) ses' s' where
  advance := h.advance
  sites := h.sites
  alike p hp := by
    have swapped : p.swap ∈ ys.zip xs := by
      rw [← List.zip_swap]
      exact List.mem_map_of_mem hp
    exact (h.alike p.swap swapped).symm

/-- Operands that are matched in a grouping: those of the shorter chain, and the longer chain. -/
structure Handed (V : Vocabulary F) (op : String) (ses : Session) (s : Subst) (short : List TermId)
    (long : Chain) (trees : List Tree) : Prop where
  facts : ses.facts = F
  sound : s.Sound ses.store
  two : V.has (.node op 2 .unspecified)
  stored : ∀ u ∈ short, ses.store.Stored u
  labels : ∀ u ∈ short, (s.tree ses.store u).Over V.has
  reads : Chain.Reads op s ses.store V.has trees long
  overs : ∀ x ∈ trees, x.Over V.has
  single : ∀ x ∈ trees, ¬ x.IsApp op

theorem Handed.grows {short : List TermId} {long : Chain} {trees : List Tree}
    (h : Handed V op ses s short long trees) (g : ses.Grows ses') :
    Handed V op ses' s short long trees where
  facts := g.facts.trans h.facts
  sound := h.sound.grows g.store
  two := h.two
  stored u hu := g.store.stored (h.stored u hu)
  labels u hu := by
    rw [h.sound.tree_grows g.store (h.stored u hu)]
    exact h.labels u hu
  reads := h.reads.grows h.sound g.store
  overs := h.overs
  single := h.single

/-- Operands of the shorter chain and groups of the longer one. -/
theorem Handed.ready_group {short ts : List TermId} {long : Chain} {trees : List Tree}
    (h : Handed V op ses s short long trees) {assignment slots : List Nat}
    (made : List.Forall₂ (fun slot t => ses.store.Stored t ∧ (s.tree ses.store t).Over V.has ∧
      (s.tree ses.store t).items op = (members assignment slot).filterMap (trees[·]?)) slots ts) :
    ∀ u ∈ short, ∀ t ∈ ts, Ready V ses s u t := by
  intro u hu t ht
  obtain ⟨slot, -, stored, labels, -⟩ := exists_of_forall₂_right made ht
  exact ⟨h.facts, h.sound, h.stored u hu, stored, h.labels u hu, labels⟩

/-- Every slot of a way that is found has an operand. -/
theorem members_ne_nil {absorbs : List Bool} {assignment : List Nat}
    (ok : admissible absorbs assignment = true) {slot : Nat} (h : slot < absorbs.length) :
    members assignment slot ≠ [] := by
  intro none
  have count := length_members assignment slot
  rw [none, List.length_nil] at count
  rcases admissible_iff.mp ok slot _ (List.getElem?_eq_getElem h) with one | ⟨more, _⟩
  · omega
  · omega

theorem grouped_meets {m : Matcher} (hm : MatcherSound V n m) (hg : GoalSound V n)
    (chain : F.isChain op = true) {short : List TermId} {long : Chain} {trees : List Tree}
    (pos : 0 < short.length) (h : Handed V op ses s short long trees) {shortFirst : Bool}
    {groupings : Groupings} (slots : groupings.absorbs.length = short.length)
    (operands : groupings.operands = long.items.length) :
    MeetsFor (Regrouped V op ses.store s short long.items) n ses
      (grouped m op short long shortFirst groupings s) := by
  generalize hk : groupings.left = k
  induction k using Nat.strongRecOn generalizing groupings with
  | ind k ih =>
    rw [grouped]
    split
    · exact .empty
    · rename_i assignment later next
      obtain ⟨length, bound, ok, slots', operands', lt⟩ :=
        Groupings.next?_spec (by omega) next
      refine (MeetsFor.suspend fun ses' g => ?_).pred
      have h' := h.grows g
      have given : ∀ slot ∈ List.range short.length, members assignment slot ≠ [] :=
        fun slot hslot => members_ne_nil ok (by rw [slots]; exact List.mem_range.mp hslot)
      obtain ⟨ts, st', eq, grows, made⟩ := groups_made h'.sound h'.two h'.reads h'.overs h'.single
        (length.trans operands) given
      have g' : ses'.Grows { ses' with store := st' } := ⟨rfl, grows⟩
      have h'' := h'.grows g'
      rw [Session.onStore_apply, eq]
      simp only
      have ready : ∀ u ∈ short, ∀ t ∈ ts, Ready V { ses' with store := st' } s u t :=
        h''.ready_group made
      have pairs : SetsUp (Matched V st' s (short.zip ts)) n { ses' with store := st' }
          (matchPairs m s (if shortFirst then short.zip ts else ts.zip short)) := by
        cases shortFirst with
        | true =>
          exact matchPairs_setsUp hm hg h''.sound fun p hp =>
            ready p.1 (List.of_mem_zip hp).1 p.2 (List.of_mem_zip hp).2
        | false =>
          intro ses₁ g₁
          have swapped : ∀ p ∈ ts.zip short, Ready V { ses' with store := st' } s p.1 p.2 :=
            fun p hp => (ready p.2 (List.of_mem_zip hp).2 p.1 (List.of_mem_zip hp).1).symm
          obtain ⟨g₂, here⟩ := matchPairs_setsUp hm hg h''.sound swapped ses₁ g₁
          exact ⟨g₂, here.imp fun ses₂ s' matched => matched.swap⟩
      obtain ⟨g'', here⟩ := pairs _ (.refl _)
      refine ⟨g'.trans g'', .plus (here.imp fun ses₁ s' matched => ?_) ?_⟩
      · have bound : ∀ d ∈ assignment, d < short.length := fun d hd => slots ▸ bound d hd
        exact (pairs_of_groups chain h''.sound h''.reads (length.trans operands) bound made
          matched).of_grows h.sound (g.trans g')
      · have rest := ih _ (hk ▸ lt) (slots' ▸ slots) (operands'.trans operands) rfl
        refine (MeetsFor.suspend fun ses₁ g₁ => ⟨.refl ses₁, ?_⟩).pred
        exact rest.grows (((g.trans g').trans g'').trans g₁)

/-! ## The matcher -/

/-- What is among the marks of some items marks one of them. -/
theorem length_pos_of_contains {items : List TermId} {f : TermId → Bool}
    (h : (items.map f).contains true = true) : 0 < items.length := by
  rw [List.contains_iff_mem, List.mem_map] at h
  obtain ⟨t, ht, -⟩ := h
  exact List.length_pos_of_mem ht

theorem regroup_meets {m : Matcher} (hm : MatcherSound V n m) (hg : GoalSound V n)
    (chain : F.isChain op = true) {x y : Chain} {xs ys : List Tree}
    (hxy : Handed V op ses s x.items y ys) (hyx : Handed V op ses s y.items x xs) :
    ses.Grows (regroup m op x y s ses).2 ∧
      MeetsFor (Regrouped V op ses.store s x.items y.items) n (regroup m op x y s ses).2
        (regroup m op x y s ses).1 := by
  unfold regroup
  by_cases lt : x.items.length < y.items.length
  · simp only [lt, if_true]
    split
    · rename_i some
      refine ⟨.refl ses, ?_⟩
      exact grouped_meets hm hg chain (length_pos_of_contains some) hxy (List.length_map ..) rfl
    · exact mismatch_setsUp ses (.refl ses)
  · simp only [lt, if_false]
    split
    · rename_i some
      refine ⟨.refl ses, ?_⟩
      refine (grouped_meets hm hg chain (length_pos_of_contains some) hyx (List.length_map ..) rfl).imp ?_
      intro ses' s' grouped
      exact ⟨grouped.advance, grouped.sites, grouped.pairs.symm fun t u h => h.symm⟩
    · exact mismatch_setsUp ses (.refl ses)

theorem handed (h : Ready V ses s a b) (chain : F.isChain op = true) {xs : List TermId}
    {attrs : Attrs} (ha : ses.store.term? a = some (.app op xs attrs)) :
    Handed V op ses s (Chain.flatten op s ses.store a).items
      (Chain.flatten op s ses.store b) ((s.tree ses.store b).items op) := by
  have readsA : Chain.Reads op s ses.store V.has _ _ :=
    Chain.flatten_reads h.sound h.left h.overLeft
  have readsB : Chain.Reads op s ses.store V.has _ _ :=
    Chain.flatten_reads h.sound h.right h.overRight
  refine ⟨h.facts, h.sound, ?_, readsA.stored, fun u hu => ?_, readsB, fun x hx => ?_, fun x hx => ?_⟩
  · have label := h.overLeft
    rw [h.sound.tree_app ha, Tree.over_app] at label
    exact V.nests _ _ _ label.1 chain
  · have mem : s.tree ses.store u ∈ (s.tree ses.store a).items op := by
      rw [← readsA.items_eq]
      exact List.mem_map_of_mem hu
    exact h.overLeft.of_mem_items mem
  · exact h.overRight.of_mem_items hx
  · exact Tree.not_isApp_of_mem_items hx

/-- The items of two chains, each with each. -/
theorem Handed.ready {short : List TermId} {long : Chain} {trees : List Tree}
    (h : Handed V op ses s short long trees) :
    ∀ x ∈ short, ∀ y ∈ long.items, Ready V ses s x y := by
  intro x hx y hy
  have mem : s.tree ses.store y ∈ trees := by
    rw [← h.reads.items_eq]
    exact List.mem_map_of_mem hy
  exact ⟨h.facts, h.sound, h.stored x hx, h.reads.stored y hy, h.labels x hx, h.overs _ mem⟩

theorem matchOperands_meets {m : Matcher} (hm : MatcherSound V n m) (hg : GoalSound V n)
    (h : Ready V ses s a b) {xs ys : List TermId} {attrs attrs' : Attrs}
    (ha : ses.store.term? a = some (.app op xs attrs))
    (hb : ses.store.term? b = some (.app op ys attrs')) :
    ses.Grows (matchOperands m op a b xs ys s ses).2 ∧
      MeetsFor (Matched V ses.store s [(a, b)]) n (matchOperands m op a b xs ys s ses).2
        (matchOperands m op a b xs ys s ses).1 := by
  have hs := h.sound
  have one : ∀ {ses' s'}, Subst.Advance V.has ses.store s ses'.store s' → s'.sites = s.sites →
      Alike F (s'.tree ses'.store a) (s'.tree ses'.store b) →
      Matched V ses.store s [(a, b)] ses' s' :=
    fun adv sites alike => ⟨adv, sites, List.forall_mem_singleton.mpr alike⟩
  -- Operands that are paired up as they stand.
  have plain : ∀ {ses' s'}, Paired V op ses.store s xs ys ses' s' →
      Matched V ses.store s [(a, b)] ses' s' := by
    intro ses' s' paired
    refine one paired.advance paired.sites ?_
    rw [paired.advance.sound.tree_app (paired.advance.grows.keeps _ _ ha),
      paired.advance.sound.tree_app (paired.advance.grows.keeps _ _ hb)]
    exact .congr paired.pairs.map
  unfold matchOperands
  rw [h.facts, show (F.isCommutative op && F.isAssociative op) = F.isChain op from rfl]
  by_cases chain : F.isChain op = true
  · rw [if_pos chain]
    have hab := handed h chain ha
    have hba := handed h.symm chain hb
    have readsA : Chain.Reads op s ses.store V.has _ _ := hba.reads
    have readsB : Chain.Reads op s ses.store V.has _ _ := hab.reads
    have joined : ∀ {ses' s'}, Regrouped V op ses.store s (Chain.flatten op s ses.store a).items
        (Chain.flatten op s ses.store b).items ses' s' →
        Matched V ses.store s [(a, b)] ses' s' := by
      intro ses' s' regrouped
      have adv := regrouped.advance
      refine one adv regrouped.sites (.of_items chain ?_ ?_ ?_)
      · rw [adv.sound.tree_app (adv.grows.keeps _ _ ha)]
        rfl
      · rw [adv.sound.tree_app (adv.grows.keeps _ _ hb)]
        rfl
      · rw [items_of_reads hs h.left readsA adv, items_of_reads hs h.right readsB adv]
        exact regrouped.pairs
    simp only
    split
    · rename_i length
      refine ⟨.refl ses, ?_⟩
      refine (permuted_meets hm hg hs length (Facts.commutative_of_isChain chain) hab.ready rfl
        (Nat.le_refl _)).imp fun ses' s' paired => joined ⟨paired.advance, paired.sites, ?_⟩
      exact (paired.pairs.imp fun u w h => h.items chain).flatMap
    · obtain ⟨g, meets⟩ := regroup_meets hm hg chain hab hba
      exact ⟨g, meets.imp fun ses' s' => joined⟩
  · rw [if_neg chain]
    split
    · exact mismatch_setsUp ses (.refl ses)
    · rename_i length
      have length : xs.length = ys.length := Decidable.not_not.mp length
      split
      · rename_i comm
        refine ⟨.refl ses, ?_⟩
        exact (permuted_meets hm hg hs length comm (h.operands ha hb) rfl (Nat.le_refl _)).imp
          fun ses' s' => plain
      · have ready : ∀ p ∈ xs.zip ys, Ready V ses s p.1 p.2 := fun p hp =>
          h.operands ha hb p.1 (List.of_mem_zip hp).1 p.2 (List.of_mem_zip hp).2
        obtain ⟨g, meets⟩ := matchPairs_setsUp hm hg hs ready ses (.refl ses)
        refine ⟨g, meets.imp fun ses' s' matched => plain ⟨matched.advance, matched.sites, ?_⟩⟩
        exact .of_forall₂ (List.forall₂_iff_zip.mpr ⟨length, fun hp => matched.alike _ hp⟩)

/-- A matcher is sound when it is in the session that it is called in. -/
theorem matcherSound_of_now {m : Matcher} (h : ∀ {ses s a b}, Ready V ses s a b →
    ses.Grows (m a b s ses).2 ∧
      MeetsFor (Matched V ses.store s [(a, b)]) n (m a b s ses).2 (m a b s ses).1) :
    MatcherSound V n m := by
  intro ses s a b ready ses' g
  obtain ⟨g', meets⟩ := h (ready.grows g)
  exact ⟨g', meets.imp fun ses'' s' matched => matched.of_grows ready.sound g⟩

theorem Matched.of_deref (h : Ready V ses s a b)
    (matched : Matched V ses.store s [(s.deref ses.store a, s.deref ses.store b)] ses' s') :
    Matched V ses.store s [(a, b)] ses' s' := by
  refine ⟨matched.advance, matched.sites, List.forall_mem_singleton.mpr ?_⟩
  have alike := List.forall_mem_singleton.mp matched.alike
  rwa [matched.advance.tree_deref h.sound h.left, matched.advance.tree_deref h.sound h.right]
    at alike

/-- The matcher is sound at every depth. -/
theorem moduloWithin_sound (hg : GoalSound V n) (depth : Nat) :
    MatcherSound V n (moduloWithin depth) := by
  induction depth with
  | zero => exact fun _ ses' _ => ⟨.refl ses', .never⟩
  | succ depth ih =>
    refine matcherSound_of_now fun {ses s a b} h => ?_
    have h' := h.deref
    have unify : ses.Grows (unify (s.deref ses.store a) (s.deref ses.store b) s ses).2 ∧
        MeetsFor (Matched V ses.store s [(s.deref ses.store a, s.deref ses.store b)]) n
          (unify (s.deref ses.store a) (s.deref ses.store b) s ses).2
          (unify (s.deref ses.store a) (s.deref ses.store b) s ses).1 := by
      obtain ⟨g, meets⟩ := unify_setsUp h' ses (.refl ses)
      refine ⟨g, meets.imp fun ses' s' eq => ⟨eq.advance, eq.sites, ?_⟩⟩
      exact List.forall_mem_singleton.mpr (eq.alike F)
    suffices ∃ r : Search × Session, moduloWithin (depth + 1) a b s ses = r ∧ ses.Grows r.2 ∧
        MeetsFor (Matched V ses.store s [(s.deref ses.store a, s.deref ses.store b)]) n r.2 r.1 by
      obtain ⟨r, rfl, g, meets⟩ := this
      exact ⟨g, meets.imp fun ses' s' => Matched.of_deref h⟩
    refine ⟨_, rfl, ?_⟩
    rw [moduloWithin]
    simp only
    split
    · rename_i same
      refine ⟨.refl ses, .unit fun ses' g => ⟨.of_grows h.sound g.store, rfl, ?_⟩⟩
      rw [same]
      exact List.forall_mem_singleton.mpr (.refl _)
    · split
      · rename_i f xs attrs g ys attrs' ha hb
        split
        · rename_i fits
          obtain ⟨rfl, -⟩ := fits
          exact matchOperands_meets ih hg h' (Store.app?_eq_some_iff.mp ha)
            (Store.app?_eq_some_iff.mp hb)
        · exact mismatch_setsUp ses (.refl ses)
      · exact unify

/-- Matching is sound: every answer keeps bindings and sites and makes the terms alike. -/
theorem modulo_meets (V : Vocabulary F) (n : Nat) : GoalSound V n := by
  induction n with
  | zero => exact fun _ => trivial
  | succ n ih =>
    intro ses s a b h
    refine .apply fun ses' g => ?_
    exact moduloWithin_sound ih (Subst.pairBound ses'.store) h ses' g

end Search

end Regraft
