import Regraft.Proofs.Match.Sound
import Regraft.Proofs.Match.Splits
import Regraft.Proofs.Search.Finds

/-
  Matching with a ground term is complete: when an assignment makes the two equal, an answer on the way
  to the assignment is found (`modulo_finds`). The goals that a match leaves behind are about smaller
  terms, so that they are complete by induction on the size of the ground term. The matcher that goes
  down at once is complete by induction on its depth.
-/

namespace Regraft

namespace Search

open Regraft.Tree (Alike Plain items)

variable {F : Facts} {θ : UInt32 → Tree} {size depth : Nat} {ses ses' : Session} {s s' : Subst}
  {a b : TermId} {op : String} {m : Matcher}

/-- Answers on the way to an assignment. -/
def Reaches (F : Facts) (θ : UInt32 → Tree) (ses : Session) (s : Subst) : Prop :=
  s.Toward F θ ses.store

/-- A pair of the match of a term of some size. -/
structure FitsBelow (F : Facts) (θ : UInt32 → Tree) (size : Nat) (ses : Session) (s : Subst)
    (a b : TermId) : Prop where
  fits : Fits F θ ses s a b
  size_lt : (s.tree ses.store b).size < size

theorem FitsBelow.advance (h : FitsBelow F θ size ses s a b) (g : ses.Grows ses')
    (adv : Subst.Advance (Tree.plainLabel F) ses.store s ses'.store s')
    (toward : s'.Toward F θ ses'.store) : FitsBelow F θ size ses' s' a b where
  fits := h.fits.advance g adv toward
  size_lt := by
    rw [h.fits.tree_right adv]
    exact h.size_lt

theorem FitsBelow.grows (h : FitsBelow F θ size ses s a b) (g : ses.Grows ses') :
    FitsBelow F θ size ses' s a b :=
  h.advance g (.of_grows h.fits.ready.sound g.store) (h.fits.toward.grows h.fits.ready.sound g.store)

/-- Goals about ground terms below a size find an answer. -/
def GoalComplete (F : Facts) (θ : UInt32 → Tree) (size : Nat) : Prop :=
  ∀ {ses s a b}, FitsBelow F θ size ses s a b → Finds (Reaches F θ) ses (.apply (.modulo a b) s)

/-- A matcher finds an answer for ground terms up to a size and below a depth. -/
def MatcherComplete (F : Facts) (θ : UInt32 → Tree) (size depth : Nat) (m : Matcher) : Prop :=
  ∀ {ses s a b}, Fits F θ ses s a b → (s.tree ses.store b).size ≤ size →
    (s.tree ses.store b).depth < depth → ComesTo (Reaches F θ) ses (m a b s)

/-! ## Pairs in a given order -/

theorem foldl_modulo_finds (hg : GoalComplete F θ size) {rest done : List (TermId × TermId)}
    (stored : ∀ p ∈ done, ses.store.Stored p.1 ∧ ses.store.Stored p.2)
    (h : ∀ p ∈ rest, FitsBelow F θ size ses s p.1 p.2) {inner : Search}
    (hm : Meets (Matched (Vocabulary.plain F) ses.store s done) ses inner)
    (hf : Finds (Reaches F θ) ses inner) :
    Finds (Reaches F θ) ses ((rest.map fun p => Goal.modulo p.1 p.2).foldl bind inner) := by
  induction rest generalizing done inner with
  | nil => exact hf
  | cons p rest ih =>
    rw [List.forall_mem_cons] at h
    have one : Meets (Matched (Vocabulary.plain F) ses.store s (done ++ [p])) ses
        (bind inner (.modulo p.1 p.2)) := fun n =>
      foldl_modulo_meets (modulo_meets _ n) stored (List.forall_mem_singleton.mpr h.1.fits.ready) (hm n)
    have found : Finds (Reaches F θ) ses (bind inner (.modulo p.1 p.2)) := by
      refine hf.bind hm (fun ses' s' g matched n => ?_) fun ses' s' g matched reached => ?_
      · exact (modulo_meets _ n (h.1.fits.ready.advance g matched.advance)).imp fun _ _ _ => trivial
      · exact hg (h.1.advance g matched.advance reached)
    have stored' : ∀ q ∈ done ++ [p], ses.store.Stored q.1 ∧ ses.store.Stored q.2 := by
      intro q hq
      rcases List.mem_append.mp hq with hq | hq
      · exact stored q hq
      · rw [List.mem_singleton.mp hq]
        exact ⟨h.1.fits.ready.left, h.1.fits.ready.right⟩
    exact ih stored' h.2 one found

/-- A single pair is matched at once, so that it has to be below the depth as well. -/
theorem matchPairs_comesTo (hm : MatcherComplete F θ size depth m) (hg : GoalComplete F θ size)
    (hs : s.Sound ses.store) (toward : s.Toward F θ ses.store) {pairs : List (TermId × TermId)}
    (h : ∀ p ∈ pairs, FitsBelow F θ size ses s p.1 p.2)
    (single : ∀ p, pairs = [p] → (s.tree ses.store p.2).depth < depth) :
    ComesTo (Reaches F θ) ses (matchPairs m s pairs) := by
  match pairs with
  | [] =>
    intro ses' g
    exact ⟨.refl ses', .unit fun ses'' g' => toward.grows hs (g.trans g').store⟩
  | [(a, b)] =>
    have below := h (a, b) (List.mem_singleton_self _)
    exact hm below.fits (Nat.le_of_lt below.size_lt) (single (a, b) rfl)
  | (a, b) :: p :: rest =>
    intro ses' g
    refine ⟨.refl ses', ?_⟩
    rw [List.forall_mem_cons] at h
    refine Finds.grows g ?_
    have stored : ∀ q ∈ [(a, b)], ses.store.Stored q.1 ∧ ses.store.Stored q.2 :=
      List.forall_mem_singleton.mpr ⟨h.1.fits.ready.left, h.1.fits.ready.right⟩
    exact foldl_modulo_finds hg stored h.2 (fun n => modulo_meets _ n h.1.fits.ready) (hg h.1)

theorem matchPairs_safe (sound : ∀ n, MatcherSound (Vocabulary.plain F) n m)
    (hs : s.Sound ses.store) {pairs : List (TermId × TermId)}
    (h : ∀ p ∈ pairs, Ready (Vocabulary.plain F) ses s p.1 p.2) (g : ses.Grows ses') :
    ses'.Grows (matchPairs m s pairs ses').2 ∧
      Safe (matchPairs m s pairs ses').2 (matchPairs m s pairs ses').1 := by
  have sets := fun n => matchPairs_setsUp (sound n) (modulo_meets _ n) hs h ses' g
  exact ⟨(sets 0).1, fun n => (sets n).2.imp fun _ _ _ => trivial⟩

/-! ## Pairs in any order -/

/-- Orders are tried one after the other, until it is the turn of the one that fits. -/
theorem permuted_finds_rank (hm : MatcherComplete F θ size depth m)
    (sound : ∀ n, MatcherSound (Vocabulary.plain F) n m) (hg : GoalComplete F θ size)
    (hs : s.Sound ses.store) (toward : s.Toward F θ ses.store) {xs ys : List TermId}
    (length : xs.length = ys.length) (comm : F.isCommutative op = true)
    (ready : ∀ x ∈ xs, ∀ y ∈ ys, Ready (Vocabulary.plain F) ses s x y) {rank : Nat}
    (lt : rank < factorial xs.length)
    (fits : ∀ p ∈ ((arrangement xs.length rank (List.range xs.length)).filterMap (xs[·]?)).zip ys,
      FitsBelow F θ size ses s p.1 p.2)
    (single : ∀ y, ys = [y] → (s.tree ses.store y).depth < depth) {left : Nat}
    (le : left ≤ factorial xs.length) (ahead : factorial xs.length - left ≤ rank) :
    Finds (Reaches F θ) ses (permuted m ⟨xs.length, left⟩ xs ys s) := by
  induction left with
  | zero => omega
  | succ left ih =>
    rw [permuted]
    simp only [Orders.next?]
    have perm : (arrangement xs.length (factorial xs.length - (left + 1))
        (List.range xs.length)).Perm (List.range xs.length) :=
      arrangement_perm (List.length_range ..) (by omega)
    have safe := fun {ses'} (g : ses.Grows ses') =>
      matchPairs_safe sound hs (ready_of_order perm ready) g
    have later : Safe ses (permuted m ⟨xs.length, left⟩ xs ys s) := fun n =>
      (permuted_meets (sound n) (modulo_meets _ n) hs length comm ready rfl (Nat.le_of_succ_le le)).imp
        fun _ _ _ => trivial
    refine .suspend fun ses' g => ⟨(safe g).1, ?_⟩
    by_cases turn : factorial xs.length - (left + 1) = rank
    · refine .plus_left ?_ (.suspend fun ses'' g' => ⟨.refl ses'', ?_⟩)
      · rw [turn] at perm ⊢
        refine (matchPairs_comesTo hm hg hs toward fits (fun p hp => single p.2 ?_) ses' g).2
        have le : ys.length ≤ _ := Nat.le_of_eq (length.symm.trans (filterMap_perm perm).length_eq.symm)
        rw [← List.map_snd_zip le, hp]
        rfl
      · exact later.grows ((g.trans (safe g).1).trans g')
    · refine .plus_right (.suspend fun ses'' g' => ⟨.refl ses'', ?_⟩) (safe g).2
      exact (ih (by omega) (by omega)).grows ((g.trans (safe g).1).trans g')

theorem permuted_finds (hm : MatcherComplete F θ size depth m)
    (sound : ∀ n, MatcherSound (Vocabulary.plain F) n m) (hg : GoalComplete F θ size)
    (hs : s.Sound ses.store) (toward : s.Toward F θ ses.store) {xs ys : List TermId}
    (comm : F.isCommutative op = true)
    (ready : ∀ x ∈ xs, ∀ y ∈ ys, Ready (Vocabulary.plain F) ses s x y)
    (fits : F.Pairs (FitsBelow F θ size ses s) op xs ys)
    (single : ∀ y, ys = [y] → (s.tree ses.store y).depth < depth) :
    Finds (Reaches F θ) ses (permuted m (.all xs.length) xs ys s) := by
  have length := fits.length_eq
  obtain ⟨zs, arranged, fits⟩ := fits
  obtain ⟨order, perm, rfl⟩ := exists_order arranged.perm.symm
  obtain ⟨rank, lt, rfl⟩ := exists_arrangement (List.length_range ..) perm
  refine permuted_finds_rank hm sound hg hs toward length comm ready lt ?_ single (Nat.le_refl _) ?_
  · exact fun p hp => List.forall₂_zip fits hp
  · omega

/-! ## Chains of different length -/

/-- Ways to hand out a chain are tried one after the other, until it is the turn of the one that
    fits. -/
theorem grouped_finds (hm : MatcherComplete F θ size depth m)
    (sound : ∀ n, MatcherSound (Vocabulary.plain F) n m) (hg : GoalComplete F θ size)
    (chain : F.isChain op = true) (toward : s.Toward F θ ses.store) {short : List TermId}
    {long : Chain} {trees : List Tree} (two : 2 ≤ short.length)
    (h : Handed (Vocabulary.plain F) op ses s short long trees) {assignment : List Nat}
    (fits : ∀ ses', ses.Grows ses' → ∀ ts, List.Forall₂ (fun slot t => ses'.store.Stored t ∧
      Plain F (s.tree ses'.store t) ∧ (s.tree ses'.store t).items op =
        (members assignment slot).filterMap (trees[·]?)) (List.range short.length) ts →
      ∀ p ∈ short.zip ts, FitsBelow F θ size ses' s p.1 p.2)
    {groupings : Groupings} (slots : groupings.absorbs.length = short.length)
    (operands : groupings.operands = long.items.length)
    (ok : admissible groupings.absorbs assignment = true) {code : Nat}
    (ahead : code < groupings.left) (turn : digits groupings.absorbs.length groupings.operands
      (groupings.absorbs.length.pow groupings.operands - (code + 1)) = assignment) :
    Finds (Reaches F θ) ses (grouped m op short long true groupings s) := by
  generalize hk : groupings.left = k at ahead
  induction k using Nat.strongRecOn generalizing groupings with
  | ind k ih =>
    subst turn
    obtain ⟨found, left, search, le⟩ := Groupings.search_complete ahead ok
    have next : groupings.next? = some (found, { groupings with left }) := by
      rw [Groupings.next?, hk, search]
    rw [grouped]
    split
    · rename_i none
      rw [next] at none
      cases none
    · rename_i found' later next'
      rw [next] at next'
      cases next'
      have pos : 0 < groupings.absorbs.length := by omega
      obtain ⟨length, bound, ok', -⟩ := Groupings.next?_spec pos next
      have given : ∀ slot ∈ List.range short.length, members found slot ≠ [] :=
        fun slot hslot => members_ne_nil ok' (by rw [slots]; exact List.mem_range.mp hslot)
      refine .suspend fun ses' g => ?_
      have h' := h.grows g
      obtain ⟨ts, st', eq, grows, made⟩ := groups_made h'.sound h'.two h'.reads h'.overs h'.single
        (length.trans operands) given
      have g' : ses'.Grows { ses' with store := st' } := ⟨rfl, grows⟩
      have h'' := h'.grows g'
      rw [Session.onStore_apply, eq]
      simp only [if_true]
      have ready : ∀ p ∈ short.zip ts, Ready (Vocabulary.plain F) { ses' with store := st' } s p.1 p.2 :=
        fun p hp => h''.ready_group made p.1 (List.of_mem_zip hp).1 p.2 (List.of_mem_zip hp).2
      obtain ⟨g'', safe⟩ := matchPairs_safe sound h''.sound ready (.refl _)
      have all := (g.trans g').trans g''
      have slots' : ({ groupings with left } : Groupings).absorbs.length = short.length := slots
      have operands' : ({ groupings with left } : Groupings).operands = long.items.length := operands
      refine ⟨g'.trans g'', ?_⟩
      by_cases turn : left = code
      · subst turn
        have same := (Groupings.search_sound search).2
        rw [← same] at fits
        refine .plus_left ?_ (.suspend fun ses₁ g₁ => ⟨.refl ses₁, ?_⟩)
        · refine (matchPairs_comesTo hm hg h''.sound (toward.grows h.sound (g.trans g').store)
            (fits _ (g.trans g') ts made) (fun p hp => ?_) _ (.refl _)).2
          have length := congrArg List.length hp
          have ts_length := made.length_eq
          rw [List.length_range] at ts_length
          rw [List.length_zip, List.length_singleton] at length
          omega
        · have rest : Safe ses (grouped m op short long true { groupings with left } s) := fun n =>
            (grouped_meets (sound n) (modulo_meets _ n) chain (by omega) h slots' operands').imp
              fun _ _ _ => trivial
          exact rest.grows (all.trans g₁)
      · refine .plus_right (.suspend fun ses₁ g₁ => ⟨.refl ses₁, ?_⟩) safe
        have rest := ih left (hk ▸ Groupings.left_lt_of_next? next) slots' operands' ok rfl rfl
          (by omega)
        exact rest.grows (all.trans g₁)

/-! ## Chains -/

/-- The chains of a pattern and of a ground term that it fits. -/
structure ChainFits (F : Facts) (θ : UInt32 → Tree) (op : String) (ses : Session) (s : Subst)
    (a b : TermId) (short : List TermId) (long : Chain) : Prop where
  fits : Fits F θ ses s a b
  chain : F.isChain op = true
  left : short.map (s.tree ses.store) = (s.tree ses.store a).items op
  handed : Handed (Vocabulary.plain F) op ses s short long ((s.tree ses.store b).items op)
  isAppLeft : (s.tree ses.store a).IsApp op
  isAppRight : (s.tree ses.store b).IsApp op

namespace ChainFits

variable {short : List TermId} {long : Chain}

theorem mem_left (h : ChainFits F θ op ses s a b short long) {u : TermId} (hu : u ∈ short) :
    s.tree ses.store u ∈ (s.tree ses.store a).items op := by
  rw [← h.left]
  exact List.mem_map_of_mem hu

theorem mem_right (h : ChainFits F θ op ses s a b short long) {t : TermId} (ht : t ∈ long.items) :
    s.tree ses.store t ∈ (s.tree ses.store b).items op := by
  rw [← h.handed.reads.items_eq]
  exact List.mem_map_of_mem ht

theorem length_right (h : ChainFits F θ op ses s a b short long) :
    ((s.tree ses.store b).items op).length = long.items.length := by
  rw [← h.handed.reads.items_eq, List.length_map]

theorem two (h : ChainFits F θ op ses s a b short long) : 2 ≤ short.length := by
  have plain : Plain F (s.tree ses.store a) := h.fits.ready.overLeft
  have := (plain.items_length h.chain).2 h.isAppLeft
  rwa [← h.left, List.length_map] at this

theorem slots (h : ChainFits F θ op ses s a b short long) : Slots F θ op s ses.store short where
  chain := h.chain
  sound := h.fits.ready.sound
  stored := h.handed.stored
  single u hu := Tree.not_isApp_of_mem_items (h.mem_left hu)
  plain u hu := by
    refine Tree.over_subst (h.handed.labels u hu) fun v hv => ?_
    exact h.fits.plainLeft.of_subst (Tree.hasVar_items.mp ⟨_, h.mem_left hu, hv⟩)

/-- Each operand of the pattern becomes a part of the chain of the term. -/
theorem pairs (h : ChainFits F θ op ses s a b short long) :
    F.Pairs (Alike F) op (short.flatMap (part θ op s ses.store))
      ((s.tree ses.store b).items op) := by
  have pairs := h.fits.equal.alike.items h.chain
  rw [Tree.items_subst, ← h.left, List.flatMap_map] at pairs
  exact pairs

/-- An operand of the pattern, and a term whose chain is a part of that of the ground term. -/
theorem fits_part (h : ChainFits F θ op ses s a b short long) (g : ses.Grows ses') {u t : TermId}
    (hu : u ∈ short) (ready : Ready (Vocabulary.plain F) ses' s u t)
    (sub : ∀ w ∈ (s.tree ses'.store t).items op, w ∈ (s.tree ses.store b).items op)
    (alike : Alike F ((s.tree ses.store u).subst θ) (s.tree ses'.store t)) :
    Fits F θ ses' s u t := by
  have hs := h.fits.ready.sound
  have same := hs.tree_grows g.store (h.handed.stored u hu)
  rw [← same] at alike
  refine (h.fits.grows g).part ready (fun v hv => ?_) (h.fits.ground.of_items sub) alike
  rw [same] at hv
  rw [hs.tree_grows g.store h.fits.ready.left]
  exact Tree.hasVar_items.mp ⟨_, h.mem_left hu, hv⟩

/-- In chains of one length single operands pair up. -/
theorem pairs_of_length (h : ChainFits F θ op ses s a b short long)
    (length : short.length = long.items.length) (le : (s.tree ses.store b).size ≤ size) :
    F.Pairs (FitsBelow F θ size ses s) op short long.items := by
  have pairs := h.pairs
  have same : (short.flatMap (part θ op s ses.store)).length = short.length := by
    rw [pairs.length_eq, h.length_right, length]
  rw [h.slots.flatMap_part same, ← h.handed.reads.items_eq] at pairs
  refine pairs.of_map.imp_mem fun u hu t ht alike => ?_
  have mem := h.mem_right ht
  refine ⟨h.fits_part (.refl ses) hu (h.handed.ready u hu t ht) (fun w hw => ?_) alike, ?_⟩
  · rw [Tree.items_of_not_isApp (Tree.not_isApp_of_mem_items mem), List.mem_singleton] at hw
    exact hw ▸ mem
  · exact Nat.lt_of_lt_of_le (Tree.size_lt_of_mem_items h.isAppRight mem) le

/-- In a way to split the longer chain, the operands of the pattern fit the groups made for them. -/
theorem fits_groups (h : ChainFits F θ op ses s a b short long)
    (le : (s.tree ses.store b).size ≤ size) {assignment : List Nat}
    (splits : Splits F θ op s ses.store short ((s.tree ses.store b).items op) assignment)
    (g : ses.Grows ses') {ts : List TermId}
    (made : List.Forall₂ (fun slot t => ses'.store.Stored t ∧ Plain F (s.tree ses'.store t) ∧
      (s.tree ses'.store t).items op =
        (members assignment slot).filterMap (((s.tree ses.store b).items op)[·]?))
      (List.range short.length) ts) :
    ∀ p ∈ short.zip ts, FitsBelow F θ size ses' s p.1 p.2 := by
  have smaller : ∀ w ∈ ts.map (s.tree ses'.store), w.size < (s.tree ses.store b).size := by
    refine splits.size_lt h.chain h.two h.fits.plainRight rfl (fun w hw => ?_) ?_
    · obtain ⟨t, ht, rfl⟩ := List.mem_map.mp hw
      obtain ⟨_, _, _, plain, _⟩ := exists_of_forall₂_right made ht
      exact plain
    · exact List.forall₂_map_right_iff.mpr (made.imp fun _ _ h => h.2.2)
  intro p hp
  obtain ⟨i, hi, rfl⟩ := List.mem_iff_getElem.mp hp
  rw [List.length_zip] at hi
  have hx : i < short.length := by omega
  have ht : i < ts.length := by omega
  rw [List.getElem_zip]
  obtain ⟨stored, plain, eq⟩ : ses'.store.Stored ts[i] ∧ Plain F (s.tree ses'.store ts[i]) ∧
      (s.tree ses'.store ts[i]).items op =
        (members assignment i).filterMap (((s.tree ses.store b).items op)[·]?) := by
    have := made.get (by rwa [List.length_range]) ht
    rwa [List.get_eq_getElem, List.get_eq_getElem, List.getElem_range] at this
  have hu : short[i] ∈ short := List.getElem_mem hx
  have pairs := splits.pairs i short[i] (List.getElem?_eq_getElem hx)
  rw [← eq] at pairs
  refine ⟨h.fits_part g hu ?_ (fun w hw => ?_) ?_, ?_⟩
  · exact (h.handed.grows g).ready_group made _ hu _ (List.getElem_mem ht)
  · rw [eq] at hw
    obtain ⟨j, -, hj⟩ := List.mem_filterMap.mp hw
    exact List.mem_of_getElem? hj
  · exact (h.slots.plain _ hu).alike_of_items h.chain plain pairs
  · exact Nat.lt_of_lt_of_le (smaller _ (List.mem_map_of_mem (List.getElem_mem ht))) le

/-- A longer chain is split up in the way that fits. -/
theorem grouped_finds (h : ChainFits F θ op ses s a b short long)
    (hm : MatcherComplete F θ size depth m)
    (sound : ∀ n, MatcherSound (Vocabulary.plain F) n m) (hg : GoalComplete F θ size)
    (le : (s.tree ses.store b).size ≤ size) :
    Finds (Reaches F θ) ses (grouped m op short long true (.all long.items.length
      (short.map fun u => (ses.store.var? (s.deref ses.store u)).isSome)) s) := by
  obtain ⟨assignment, splits⟩ := exists_splits (Facts.commutative_of_isChain h.chain) h.pairs
  obtain ⟨code, lt, eq⟩ := exists_digits splits.bound
  rw [splits.length, h.length_right] at lt eq
  have two := h.two
  generalize habsorbs : short.map (fun u => (ses.store.var? (s.deref ses.store u)).isSome) = absorbs
  have ok := splits.isAdmissible h.slots
  have length : absorbs.length = short.length := by rw [← habsorbs, List.length_map]
  have left : (Groupings.all long.items.length absorbs).left =
      short.length.pow long.items.length := by
    cases absorbs with
    | nil =>
      rw [List.length_nil] at length
      omega
    | cons absorb rest => rw [← length]; rfl
  have ahead : short.length.pow long.items.length - 1 - code <
      (Groupings.all long.items.length absorbs).left := by omega
  rw [habsorbs] at ok
  refine Search.grouped_finds hm sound hg h.chain h.fits.toward two h.handed
    (fun ses' g ts made => h.fits_groups le splits g made) length rfl ok ahead ?_
  show digits absorbs.length long.items.length (absorbs.length.pow long.items.length - _) = _
  rw [length, ← eq]
  congr 1
  omega

end ChainFits

/-! ## The matcher -/

/-- The chains of two applications that fit. -/
theorem chainFits (h : Fits F θ ses s a b) (chain : F.isChain op = true) {xs ys : List TermId}
    {attrs attrs' : Attrs} (ha : ses.store.term? a = some (.app op xs attrs))
    (hb : ses.store.term? b = some (.app op ys attrs')) :
    ChainFits F θ op ses s a b (Chain.flatten op s ses.store a).items
      (Chain.flatten op s ses.store b) where
  fits := h
  chain := chain
  left := (handed h.ready.symm chain hb).reads.items_eq
  handed := handed h.ready chain ha
  isAppLeft := by
    rw [h.ready.sound.tree_app ha]
    rfl
  isAppRight := by
    rw [h.ready.sound.tree_app hb]
    rfl

/-- Operands of an operator without chains pair up as they stand. -/
theorem pairs_of_app (h : Fits F θ ses s a b) (chain : ¬ F.isChain op = true) {xs ys : List TermId}
    {attrs attrs' : Attrs} (ha : ses.store.term? a = some (.app op xs attrs))
    (hb : ses.store.term? b = some (.app op ys attrs')) (le : (s.tree ses.store b).size ≤ size) :
    F.Pairs (FitsBelow F θ size ses s) op xs ys := by
  have hs := h.ready.sound
  have left := hs.tree_app ha
  have right := hs.tree_app hb
  have alike := h.equal.alike
  have ground := h.ground
  rw [left, right, Tree.subst_app, Tree.Alike.app_iff, Tree.operands, if_neg chain, Tree.operands,
    if_neg chain, List.map_map] at alike
  refine alike.2.of_map.imp_mem fun x hx y hy alike => ?_
  have mem := List.mem_map_of_mem (f := s.tree ses.store) hy
  have ready := h.ready.operands ha hb x hx y hy
  refine ⟨h.part ready (fun v hv => ?_) (fun v hv => ?_) alike, ?_⟩
  · rw [left]
    exact .app (List.mem_map_of_mem hx) hv
  · rw [right] at ground
    exact ground v (.app mem hv)
  · refine Nat.lt_of_lt_of_le ?_ le
    rw [right]
    exact Tree.size_lt mem

theorem matchOperands_finds (hm : MatcherComplete F θ size depth m)
    (sound : ∀ n, MatcherSound (Vocabulary.plain F) n m) (hg : GoalComplete F θ size)
    (h : Fits F θ ses s a b) {xs ys : List TermId} {attrs attrs' : Attrs}
    (ha : ses.store.term? a = some (.app op xs attrs))
    (hb : ses.store.term? b = some (.app op ys attrs')) (le : (s.tree ses.store b).size ≤ size)
    (lt : (s.tree ses.store b).depth < depth + 1) :
    ses.Grows (matchOperands m op a b xs ys s ses).2 ∧ Finds (Reaches F θ)
      (matchOperands m op a b xs ys s ses).2 (matchOperands m op a b xs ys s ses).1 := by
  have hs := h.ready.sound
  unfold matchOperands
  rw [h.ready.facts, show (F.isCommutative op && F.isAssociative op) = F.isChain op from rfl]
  by_cases chain : F.isChain op = true
  · rw [if_pos chain]
    have chains := chainFits h chain ha hb
    generalize Chain.flatten op s ses.store a = x at *
    generalize Chain.flatten op s ses.store b = y at *
    have two := chains.two
    simp only
    split
    · rename_i length
      refine ⟨.refl ses, ?_⟩
      refine permuted_finds hm sound hg hs h.toward (Facts.commutative_of_isChain chain)
        chains.handed.ready (chains.pairs_of_length length le) fun t ht => ?_
      rw [length, ht, List.length_singleton] at two
      omega
    · have shorter : x.items.length < y.items.length := by
        have := chains.slots.length_le
        rw [chains.pairs.length_eq, chains.length_right] at this
        omega
      have more := chains.pairs.length_eq.trans chains.length_right
      unfold regroup
      simp only [shorter, if_true, decide_true, chains.slots.exists_isVar (more ▸ shorter)]
      exact ⟨.refl ses, chains.grouped_finds hm sound hg le⟩
  · have pairs := pairs_of_app h chain ha hb le
    have length := pairs.length_eq
    have lower : ∀ y ∈ ys, (s.tree ses.store y).depth < depth := by
      intro y hy
      have : (s.tree ses.store y).depth < (s.tree ses.store b).depth := by
        rw [hs.tree_app hb]
        exact Tree.depth_lt (List.mem_map_of_mem hy)
      omega
    rw [if_neg chain, if_neg (not_not.mpr length)]
    split
    · rename_i comm
      refine ⟨.refl ses, ?_⟩
      refine permuted_finds hm sound hg hs h.toward comm (h.ready.operands ha hb) pairs fun y hy => ?_
      exact lower y (hy ▸ List.mem_singleton_self y)
    · rename_i comm
      obtain ⟨zs, rfl | ⟨comm', -⟩, fits⟩ := pairs
      · refine matchPairs_comesTo hm hg hs h.toward (fun p hp => List.forall₂_zip fits hp)
          (fun p hp => lower p.2 ?_) ses (.refl ses)
        have mem : p ∈ xs.zip ys := hp ▸ List.mem_singleton_self p
        exact (List.of_mem_zip mem).2
      · exact absurd comm' comm

/-- An application fits just applications of its operator, and no attributes are in the way. -/
theorem app_of_fits (h : Fits F θ ses s a b) {xs : List TermId} {attrs : Attrs}
    (ha : ses.store.app? (s.deref ses.store a) = some (op, xs, attrs)) :
    ∃ ys attrs', ses.store.app? (s.deref ses.store b) = some (op, ys, attrs') ∧
      attrs.compatible attrs' = true := by
  have hs := h.ready.sound
  have left := hs.tree_of_app (Store.app?_eq_some_iff.mp ha)
  have plain := h.ready.overLeft
  have plain' := h.ready.overRight
  have equal := h.equal
  have ground := h.ground
  rw [left, Tree.over_app] at plain
  rw [left, Tree.subst_app] at equal
  obtain ⟨y, hy⟩ := Store.term?_of_stored h.deref.ready.right
  cases y with
  | var v =>
    rw [hs.tree_of_var hy] at ground
    exact absurd .var (ground v)
  | leaf l =>
    rw [hs.tree_of_leaf hy] at equal
    cases equal.alike
  | app g ys attrs' =>
    rw [hs.tree_of_app hy] at equal plain'
    obtain ⟨rfl, -⟩ := Tree.Alike.app_iff.mp equal.alike
    refine ⟨ys, attrs', Store.app?_eq_some_iff.mpr hy, ?_⟩
    rw [plain.1.1, (Tree.over_app.mp plain').1.1]
    rfl

/-- The matcher is complete at every depth. -/
theorem moduloWithin_complete (hg : GoalComplete F θ size) (depth : Nat) :
    MatcherComplete F θ size depth (moduloWithin depth) := by
  induction depth with
  | zero => exact fun _ _ lt => absurd lt (Nat.not_lt_zero _)
  | succ depth ih =>
    intro ses₀ s a b h₀ le₀ lt₀ ses g
    have same := h₀.ready.sound.tree_grows g.store h₀.ready.right
    have h := (h₀.grows g).deref
    have le : (s.tree ses.store (s.deref ses.store b)).size ≤ size := by
      rwa [h.ready.sound.tree_deref, same]
    have lt : (s.tree ses.store (s.deref ses.store b)).depth < depth + 1 := by
      rwa [h.ready.sound.tree_deref, same]
    rw [moduloWithin]
    simp only
    split
    · refine ⟨.refl ses, .unit fun ses' g' => ?_⟩
      exact h.toward.grows h.ready.sound g'.store
    · split
      · rename_i f xs attrs k ys attrs' ha hb
        obtain ⟨ys', attrs'', hb', fits⟩ := app_of_fits (h₀.grows g) ha
        rw [hb'] at hb
        cases hb
        rw [if_pos ⟨rfl, fits⟩]
        exact matchOperands_finds ih (fun n => moduloWithin_sound (modulo_meets _ n) depth) hg h
          (Store.app?_eq_some_iff.mp ha) (Store.app?_eq_some_iff.mp hb') le lt
      · rename_i other
        have none : ses.store.app? (s.deref ses.store (s.deref ses.store a)) = none := by
          rw [h.ready.sound.deref_deref]
          by_contra some
          obtain ⟨⟨op, xs, attrs⟩, ha⟩ := Option.ne_none_iff_exists'.mp some
          obtain ⟨ys, attrs', hb, -⟩ := app_of_fits (h₀.grows g) ha
          exact other _ _ _ _ _ _ ha hb
        obtain ⟨t, ht, toward⟩ := h.unify none
        have unified := Subst.unify_sound h.ready.sound h.ready.left h.ready.right h.ready.overLeft
          h.ready.overRight ht
        rw [unify_apply, ht]
        refine ⟨Session.count_grows _ ses, .unit fun ses' g' => ?_⟩
        exact toward.grows unified.advance.sound g'.store

/-- Matching with a ground term is complete: an answer on the way to the assignment is found. -/
theorem modulo_finds (h : Fits F θ ses s a b) : Finds (Reaches F θ) ses (.apply (.modulo a b) s) := by
  suffices ∀ size, GoalComplete F θ size from this _ ⟨h, Nat.lt_succ_self _⟩
  intro size
  induction size with
  | zero => exact fun below => absurd below.size_lt (Nat.not_lt_zero _)
  | succ size ih =>
    intro ses s a b below
    refine .apply fun ses' g => ?_
    have fits := below.fits.grows g
    refine moduloWithin_complete ih _ fits (Nat.le_of_lt_succ (below.grows g).size_lt) ?_ ses' (.refl ses')
    exact Nat.lt_of_lt_of_le (fits.ready.sound.depth_tree_lt b) (Subst.depthBound_le_pairBound _)

end Search

end Regraft
