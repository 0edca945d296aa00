import Regraft.Proofs.Match.InOrder
import Regraft.Proofs.Match.Pairing
import Regraft.Proofs.Search.Halts

/-
  Matching comes to an end, whatever variables stand on either side (`modulo_drains`). An answer leaves the
  bindings as they are, so that the pairs that are still to be matched count what they did, or it leaves
  less variables open (`Narrows`): the induction is on the open variables, below on the mass of the two
  trees, and below on their depth. Where no variable occurs twice, a pair stays as it is when others are
  matched, and there is an answer just if the two trees join (`exists_answer_iff_joins`).
-/

namespace Regraft

namespace Subst

variable {st : Store} {s s' : Subst} {ses ses' : Session}

/-- No variable is opened when none is made. -/
theorem openPlaces_keeps (s : Subst) (k : ses.Keeps ses') :
    s.openPlaces ses'.store = s.openPlaces ses.store := by
  ext t
  rw [mem_openPlaces, mem_openPlaces]
  constructor
  · rintro ⟨v, var, isOpen⟩
    obtain ⟨u, known⟩ := (k.sameVars.knows v).mp ⟨t, var⟩
    obtain rfl := Store.term?_inj var (k.grows.store.keeps _ _ known)
    exact ⟨v, known, isOpen⟩
  · exact fun ⟨v, var, isOpen⟩ => ⟨v, k.grows.store.keeps _ _ var, isOpen⟩

end Subst

namespace Search

open Regraft.Tree (Pairing Joins Linear Mentions Lineup Strand mentions_append joins_app_iff)

variable {F : Facts} {known : Prop} {places size depth : Nat} {ses ses' ses'' : Session} {st : Store}
  {s s' s'' : Subst} {a b t : TermId} {p : TermId × TermId} {pairs done rest : List (TermId × TermId)}
  {ps qs rs : List (Tree × Tree)} {op : String} {m : Matcher}

/-! ## What answers leave open -/

/-- The bindings are kept, or some open variable is bound, where that is known one of some pairs. -/
structure Narrows (known : Prop) (ps : List (Tree × Tree)) (ses : Session) (s : Subst)
    (ses' : Session) (s' : Subst) : Prop where
  keeps : ses.Keeps ses'
  sound : s'.Sound ses'.store
  kept : s.Extends s'
  binds : s'.bindings = s.bindings ∨
    (s'.openPlaces ses'.store).card < (s.openPlaces ses.store).card
  free : known → s'.constraints = []
  within : known → ∀ v, s.get? v = none → s'.get? v ≠ none → Mentions ps v

namespace Narrows

theorem of_keeps (ps : List (Tree × Tree)) (hs : s.Sound ses.store)
    (free : known → s.constraints = []) (k : ses.Keeps ses') : Narrows known ps ses s ses' s where
  keeps := k
  sound := hs.grows k.grows.store
  kept := .refl s
  binds := .inl rfl
  free := free
  within _ _ none some := absurd none some

theorem card_le (h : Narrows known ps ses s ses' s') :
    (s'.openPlaces ses'.store).card ≤ (s.openPlaces ses.store).card := by
  rcases h.binds with same | fewer
  · rw [Subst.openPlaces_congr same.symm, Subst.openPlaces_keeps s h.keeps]
  · exact Nat.le_of_lt fewer

theorem trans (h : Narrows known ps ses s ses' s') (h' : Narrows known qs ses' s' ses'' s'')
    (left : ∀ v, Mentions ps v → Mentions rs v) (right : known → ∀ v, Mentions qs v → Mentions rs v) :
    Narrows known rs ses s ses'' s'' where
  keeps := h.keeps.trans h'.keeps
  sound := h'.sound
  kept := h.kept.trans h'.kept
  binds := by
    rcases h'.binds with same | fewer
    · refine h.binds.imp same.trans fun fewer => Nat.lt_of_le_of_lt h'.card_le fewer
    · exact .inr (Nat.lt_of_lt_of_le fewer h.card_le)
  free := h'.free
  within k v none some := by
    by_cases between : s'.get? v = Option.none
    · exact right k v (h'.within k v between some)
    · exact left v (h.within k v none between)

/-- Only the variables of the pairs count. -/
theorem mono (h : Narrows known ps ses s ses' s') (sub : ∀ v, Mentions ps v → Mentions rs v) :
    Narrows known rs ses s ses' s' :=
  ⟨h.keeps, h.sound, h.kept, h.binds, h.free, fun k v none some => sub v (h.within k v none some)⟩

theorem back (h : Narrows known ps ses' s ses'' s'') (hs : s.Sound ses.store)
    (free : known → s.constraints = []) (k : ses.Keeps ses') : Narrows known ps ses s ses'' s'' :=
  (of_keeps ps hs free k).trans h (fun _ => id) fun _ _ => id

theorem tree_eq (h : Narrows known ps ses s ses' s') (hs : s.Sound ses.store) (ht : ses.store.Stored t) :
    s'.tree ses'.store t = (s.tree ses.store t).subst (s'.image ses'.store) := by
  rw [h.kept.tree_eq (hs.grows h.keeps.grows.store) h.sound, hs.tree_grows h.keeps.grows.store ht]

/-- A tree stays as it is if none of its variables is one of the pairs. -/
theorem tree_same (h : Narrows known ps ses s ses' s') (hs : s.Sound ses.store) (ht : ses.store.Stored t)
    (k : known) (apart : ∀ v, (s.tree ses.store t).HasVar v → ¬ Mentions ps v) :
    s'.tree ses'.store t = s.tree ses.store t := by
  rw [h.tree_eq hs ht]
  conv => rhs; rw [← Tree.subst_id (s.tree ses.store t)]
  refine Tree.subst_congr fun v hv => Subst.image_of_unbound ?_
  by_contra bound
  exact apart v hv (h.within k v (hs.get?_of_hasVar hv) bound)

end Narrows

/-! ## Pairs -/

/-- Pairs of terms in a search. Where that is known, no variable occurs twice in them, and no disequality
    waits. -/
structure Opposed (F : Facts) (known : Prop) (ses : Session) (s : Subst)
    (pairs : List (TermId × TermId)) : Prop where
  facts : ses.facts = F
  sound : s.Sound ses.store
  stored : ∀ p ∈ pairs, ses.store.Stored p.1 ∧ ses.store.Stored p.2
  free : known → s.constraints = []
  linear : known → Linear (readPairs s ses.store pairs)

/-- A pair with no more variables open than some number, and with fewer or with less mass than some size. -/
def Below (F : Facts) (places size : Nat) (ses : Session) (s : Subst) (p : TermId × TermId) : Prop :=
  (s.openPlaces ses.store).card < places ∨ (s.openPlaces ses.store).card ≤ places ∧
    (s.tree ses.store p.1).mass F + (s.tree ses.store p.2).mass F < size

theorem readPairs_keeps (hs : s.Sound ses.store)
    (stored : ∀ p ∈ pairs, ses.store.Stored p.1 ∧ ses.store.Stored p.2) (k : ses.Keeps ses') :
    readPairs s ses'.store pairs = readPairs s ses.store pairs := by
  refine List.map_congr_left fun p hp => ?_
  rw [hs.tree_grows k.grows.store (stored p hp).1, hs.tree_grows k.grows.store (stored p hp).2]

theorem readPairs_append (s : Subst) (st : Store) (done rest : List (TermId × TermId)) :
    readPairs s st (done ++ rest) = readPairs s st done ++ readPairs s st rest := List.map_append ..

namespace Opposed

theorem keeps (h : Opposed F known ses s pairs) (k : ses.Keeps ses') : Opposed F known ses' s pairs where
  facts := k.grows.facts.trans h.facts
  sound := h.sound.grows k.grows.store
  stored p hp := ⟨k.grows.store.stored (h.stored p hp).1, k.grows.store.stored (h.stored p hp).2⟩
  free := h.free
  linear := by
    rw [readPairs_keeps h.sound h.stored k]
    exact h.linear

theorem linear_append (h : Opposed F known ses s (done ++ rest)) (k : known) :
    Linear (readPairs s ses.store done) ∧ Linear (readPairs s ses.store rest) ∧
      ∀ v, Mentions (readPairs s ses.store done) v → ¬ Mentions (readPairs s ses.store rest) v :=
  Linear.append (readPairs_append s ses.store done rest ▸ h.linear k)

theorem left (h : Opposed F known ses s (done ++ rest)) : Opposed F known ses s done :=
  ⟨h.facts, h.sound, fun p hp => h.stored p (List.mem_append_left _ hp), h.free,
    fun k => (h.linear_append k).1⟩

theorem right (h : Opposed F known ses s (done ++ rest)) : Opposed F known ses s rest :=
  ⟨h.facts, h.sound, fun p hp => h.stored p (List.mem_append_right _ hp), h.free,
    fun k => (h.linear_append k).2.1⟩

/-- Pairs stay as they are when those before them are matched, where no variable occurs twice. -/
theorem readPairs_after (h : Opposed F known ses s (done ++ rest))
    (met : Narrows known (readPairs s ses.store done) ses s ses' s') (k : known) :
    readPairs s' ses'.store rest = readPairs s ses.store rest := by
  refine List.map_congr_left fun p hp => ?_
  obtain ⟨storedL, storedR⟩ := h.right.stored p hp
  have other : ∀ v, (s.tree ses.store p.1).HasVar v ∨ (s.tree ses.store p.2).HasVar v →
      ¬ Mentions (readPairs s ses.store done) v := fun v hv mentioned =>
    (h.linear_append k).2.2 v mentioned ⟨_, List.mem_map_of_mem hp, hv⟩
  rw [met.tree_same h.sound storedL k fun v hv => other v (.inl hv),
    met.tree_same h.sound storedR k fun v hv => other v (.inr hv)]

theorem after (h : Opposed F known ses s (done ++ rest))
    (met : Narrows known (readPairs s ses.store done) ses s ses' s') : Opposed F known ses' s' rest where
  facts := met.keeps.grows.facts.trans h.facts
  sound := met.sound
  stored p hp := ((h.keeps met.keeps).right.stored p hp)
  free := met.free
  linear k := by
    rw [h.readPairs_after met k]
    exact (h.linear_append k).2.1

end Opposed

theorem Narrows.below (h : Narrows known ps ses s ses' s') (hs : s.Sound ses.store)
    (stored : ses.store.Stored p.1 ∧ ses.store.Stored p.2) (below : Below F places size ses s p) :
    Below F places size ses' s' p := by
  rcases h.binds with same | fewer
  · have tree : ∀ {t}, ses.store.Stored t → s'.tree ses'.store t = s.tree ses.store t := by
      intro t ht
      rw [(hs.grows h.keeps.grows.store).tree_congr same.symm, hs.tree_grows h.keeps.grows.store ht]
    unfold Below
    rw [Subst.openPlaces_congr same.symm, Subst.openPlaces_keeps s h.keeps, tree stored.1, tree stored.2]
    exact below
  · exact .inl (Nat.lt_of_lt_of_le fewer (below.elim Nat.le_of_lt And.left))

/-- The trees of pairs join. -/
abbrev AllJoin (F : Facts) (ps : List (Tree × Tree)) : Prop := ∀ p ∈ ps, Joins F p.1 p.2

theorem allJoin_single :
    AllJoin F (readPairs s st [p]) ↔ Joins F (s.tree st p.1) (s.tree st p.2) := List.forall_mem_singleton

theorem allJoin_append : AllJoin F (ps ++ qs) ↔ AllJoin F ps ∧ AllJoin F qs := List.forall_mem_append

/-- A search for matches of some pairs comes to an end, where that is known with an answer just if they
    join. -/
def Resolves (F : Facts) (known : Prop) (ses : Session) (s : Subst) (pairs : List (TermId × TermId))
    (search : Search) : Prop :=
  Decides known (AllJoin F (readPairs s ses.store pairs))
    (Narrows known (readPairs s ses.store pairs) ses s) ses search

/-- Goals for pairs that are below some bounds do so. -/
def GoalResolves (F : Facts) (known : Prop) (places size : Nat) : Prop :=
  ∀ {ses s p}, Opposed F known ses s [p] → Below F places size ses s p →
    Resolves F known ses s [p] (.apply (.modulo p.1 p.2) s)

theorem foldl_modulo_resolves (hg : GoalResolves F known places size)
    (h : Opposed F known ses s (done ++ rest)) (below : ∀ p ∈ rest, Below F places size ses s p)
    {inner : Search} (hi : Resolves F known ses s done inner) :
    Resolves F known ses s (done ++ rest)
      ((rest.map fun p => Goal.modulo p.1 p.2).foldl bind inner) := by
  induction rest generalizing done inner with
  | nil => rwa [List.append_nil]
  | cons p rest ih =>
    rw [List.forall_mem_cons] at below
    rw [List.append_cons] at h ⊢
    refine ih h below.2 ?_
    have here := h.left
    have fed : ∀ ses' s', ses.Keeps ses' → Narrows known (readPairs s ses.store done) ses s ses' s' →
        Decides known (AllJoin F (readPairs s ses.store [p]))
          (Narrows known (readPairs s ses.store (done ++ [p])) ses s) ses' (.apply (.modulo p.1 p.2) s') := by
      intro ses' s' _ met
      have stored := here.right.stored p (List.mem_singleton_self p)
      refine (hg (here.after met) (met.below h.sound stored below.1)).imp (fun ses'' s'' later => ?_)
        fun k => by rw [here.readPairs_after met k]
      rw [readPairs_append]
      refine met.trans later (fun v => mentions_append.mpr ∘ .inl) fun k v mentioned => ?_
      rw [here.readPairs_after met k] at mentioned
      exact mentions_append.mpr (.inr mentioned)
    refine (Decides.bind hi fed).congr fun _ => ?_
    rw [readPairs_append, allJoin_append]

/-! ## One way to pair up operands -/

/-- A matcher has set up a search for matches of a pair. -/
def Delivers (F : Facts) (known : Prop) (ses : Session) (s : Subst) (p : TermId × TermId)
    (out : Search × Session) : Prop :=
  ses.Keeps out.2 ∧ Decides known (Joins F (s.tree ses.store p.1) (s.tree ses.store p.2))
    (Narrows known (readPairs s ses.store [p]) ses s) out.2 out.1

/-- A matcher does so for pairs up to some bounds, of which one term is below a depth. -/
def MatcherResolves (F : Facts) (known : Prop) (places size depth : Nat) (m : Matcher) : Prop :=
  ∀ {ses s p}, Opposed F known ses s [p] → (s.openPlaces ses.store).card ≤ places →
    (s.tree ses.store p.1).mass F + (s.tree ses.store p.2).mass F ≤ size →
    min (s.tree ses.store p.1).depth (s.tree ses.store p.2).depth < depth →
    Delivers F known ses s p (m p.1 p.2 s ses)

/-- Two terms whose operands are to be paired up. -/
structure Pitted (F : Facts) (known : Prop) (places size depth : Nat) (ses : Session) (s : Subst)
    (p : TermId × TermId) : Prop where
  opposed : Opposed F known ses s [p]
  places_le : (s.openPlaces ses.store).card ≤ places
  size_le : (s.tree ses.store p.1).mass F + (s.tree ses.store p.2).mass F ≤ size
  depth_le : min (s.tree ses.store p.1).depth (s.tree ses.store p.2).depth ≤ depth

/-- The pairs that the operands of two terms make are matched, in a later session that has the terms
    for them. -/
theorem Pitted.pairs_resolve (h : Pitted F known places size depth ses s p)
    (hm : MatcherResolves F known places size depth m) (hg : GoalResolves F known places size)
    (k : ses.Keeps ses') (stored : ∀ q ∈ pairs, ses'.store.Stored q.1 ∧ ses'.store.Stored q.2)
    (pairing : Pairing F (s.tree ses.store p.1) (s.tree ses.store p.2) (readPairs s ses'.store pairs)) :
    ses'.Keeps (matchPairs m s pairs ses').2 ∧ Decides known (AllJoin F (readPairs s ses'.store pairs))
      (Narrows known (readPairs s ses.store [p]) ses s) (matchPairs m s pairs ses').2
      (matchPairs m s pairs ses').1 := by
  have opposed : Opposed F known ses' s pairs :=
    ⟨k.grows.facts.trans h.opposed.facts, h.opposed.sound.grows k.grows.store, stored, h.opposed.free,
      fun known => pairing.linear (h.opposed.linear known)⟩
  have card : (s.openPlaces ses'.store).card ≤ places := Subst.openPlaces_keeps s k ▸ h.places_le
  have mass : ∀ q ∈ pairs, (s.tree ses'.store q.1).mass F + (s.tree ses'.store q.2).mass F < size :=
    fun q hq => Nat.lt_of_lt_of_le (pairing.mass_lt _ (List.mem_map_of_mem hq)) h.size_le
  -- What the answers narrow down to counts from the two terms on.
  have back : ∀ ses'' s', Narrows known (readPairs s ses'.store pairs) ses' s ses'' s' →
      Narrows known (readPairs s ses.store [p]) ses s ses'' s' := fun ses'' s' met =>
    (met.back h.opposed.sound h.opposed.free k).mono fun v => pairing.mentions.mp
  match pairs with
  | [] =>
    refine ⟨.refl ses', .unit (fun ses'' k' => ?_) fun _ q hq => absurd hq List.not_mem_nil⟩
    exact .of_keeps _ h.opposed.sound h.opposed.free (k.trans k')
  | [q] =>
    have lt := pairing.depth_lt
    obtain ⟨keeps, resolved⟩ := hm opposed card (Nat.le_of_lt (mass q (.head _)))
      (Nat.lt_of_lt_of_le lt h.depth_le)
    exact ⟨keeps, resolved.imp back fun _ => allJoin_single.symm⟩
  | q :: r :: rest =>
    have below : ∀ x ∈ q :: r :: rest, Below F places size ses' s x := fun x hx => .inr ⟨card, mass x hx⟩
    rw [List.forall_mem_cons] at below
    have parts : Opposed F known ses' s ([q] ++ r :: rest) := opposed
    have first : Resolves F known ses' s [q] (.apply (.modulo q.1 q.2) s) := hg parts.left below.1
    exact ⟨.refl ses', (foldl_modulo_resolves hg parts below.2 first).imp back fun _ => .rfl⟩

/-! ## All ways -/

theorem permuted_resolves (h : Pitted F known places size depth ses s p)
    (hm : MatcherResolves F known places size depth m) (hg : GoalResolves F known places size)
    {xs ys : List TermId} (left : ∀ x ∈ xs, ses.store.Stored x) (right : ∀ y ∈ ys, ses.store.Stored y)
    (pairing : ∀ zs : List TermId, zs.Perm xs →
      Pairing F (s.tree ses.store p.1) (s.tree ses.store p.2) (readPairs s ses.store (zs.zip ys)))
    {turns : Nat} (le : turns ≤ factorial xs.length) :
    Decides known (SomeOrder xs turns fun zs => AllJoin F (readPairs s ses.store (zs.zip ys)))
      (Narrows known (readPairs s ses.store [p]) ses s) ses (permuted m ⟨xs.length, turns⟩ xs ys s) := by
  induction turns with
  | zero =>
    rw [permuted]
    simp only [Orders.next?]
    exact .empty fun _ => not_someOrder_zero
  | succ turns ih =>
    have perm := filterMap_perm
      (arrangement_perm (List.length_range (n := xs.length)) (show
        factorial xs.length - (turns + 1) < factorial xs.length by omega))
    have stored : ∀ q ∈ List.zip _ ys, ses.store.Stored q.1 ∧ ses.store.Stored q.2 := fun q hq =>
      ⟨left _ (perm.mem_iff.mp (List.of_mem_zip hq).1), right _ (List.of_mem_zip hq).2⟩
    rw [permuted]
    simp only [Orders.next?]
    refine Decides.congr (.suspend fun ses' k => ?_) fun _ => (someOrder_succ le).symm
    have same := readPairs_keeps h.opposed.sound stored k
    obtain ⟨keeps, here⟩ := h.pairs_resolve hm hg k
      (fun q hq => ⟨k.grows.store.stored (stored q hq).1, k.grows.store.stored (stored q hq).2⟩)
      (same ▸ pairing _ perm)
    refine ⟨keeps, ?_⟩
    rw [same] at here
    refine here.plus (.suspend fun ses'' k' => ⟨.refl ses'', ?_⟩)
    exact (ih (by omega)).keeps ((k.trans keeps).trans k')

/-- The chain of a term, and fewer operands of another term to which its operands are handed. -/
structure HandsOut (F : Facts) (op : String) (xs ys : List Tree) (a : Attrs) (ses : Session) (s : Subst)
    (long : Chain) (short : List TermId) : Prop where
  chain : F.isChain op = true
  reads : Chain.Reads op s ses.store (fun _ => True) (Tree.operands F op xs) long
  shows : long.Shows s ses.store (Strand.of op (.app op xs a))
  stored : ∀ u ∈ short, ses.store.Stored u
  short_eq : short.map (s.tree ses.store) = Tree.operands F op ys
  longer : (Tree.operands F op ys).length < (Tree.operands F op xs).length
  absorbs : ((Tree.operands F op ys).map Tree.isVar).contains true = true

/-- In a later session, groups are made that line up with the operands. -/
theorem HandsOut.exists_groups {xs ys : List Tree} {a b : Attrs} {long : Chain} {short : List TermId}
    (h : HandsOut F op xs ys a ses s long short) (hs : s.Sound ses.store) (k : ses.Keeps ses')
    {assignment : List Nat} (length : assignment.length = (Tree.operands F op xs).length)
    (bound : ∀ d ∈ assignment, d < (Tree.operands F op ys).length)
    (ok : admissible ((Tree.operands F op ys).map Tree.isVar) assignment = true) :
    ∃ ts ses'', Session.onStore (groups op long assignment (List.range short.length)) ses' =
        (some ts, ses'') ∧ ses'.Keeps ses'' ∧
      (∀ q ∈ ts.zip short, ses''.store.Stored q.1 ∧ ses''.store.Stored q.2) ∧
      ∃ us, readPairs s ses''.store (ts.zip short) = us.zip (Tree.operands F op ys) ∧
        Lineup F (.app op xs a) (.app op ys b) (us.zip (Tree.operands F op ys)) ∧
        List.Forall₂ (fun slot t => (Strand.of op (.app op xs a)).group op (members assignment slot) =
          some t) (List.range (Tree.operands F op ys).length) us := by
  have count : short.length = (Tree.operands F op ys).length := by
    rw [← h.short_eq, List.length_map]
  have items : long.items.length = (Tree.operands F op xs).length := by
    rw [← h.reads.items_eq, List.length_map]
  have single : ∀ x ∈ Tree.operands F op xs, ¬ x.IsApp op := by
    intro x hx
    rw [Tree.operands_eq_items (a := a) h.chain] at hx
    exact Tree.not_isApp_of_mem_items hx
  have given : ∀ slot < short.length, members assignment slot ≠ [] :=
    fun slot lt => members_ne_nil ok (by rwa [List.length_map, ← count])
  obtain ⟨ts, ses'', eq, keeps, made⟩ := Search.exists_groups (hs.grows k.grows.store)
    (h.reads.grows hs k.grows.store) (h.shows.grows hs k.grows.store) single (length.trans items.symm) given
  have later := (k.trans keeps).grows.store
  have trees : List.Forall₂ (fun slot t => (Strand.of op (.app op xs a)).group op
      (members assignment slot) = some t) (List.range (Tree.operands F op ys).length)
      (ts.map (s.tree ses''.store)) := by
    rw [← count]
    exact List.forall₂_map_right_iff.mpr (made.imp fun _ _ h => h.2.2)
  refine ⟨ts, ses'', eq, keeps, fun q hq => ⟨?_, ?_⟩, _, ?_, ?_, trees⟩
  · obtain ⟨_, -, stored, -⟩ := exists_of_forall₂_right made (List.of_mem_zip hq).1
    exact stored
  · exact later.stored (h.stored _ (List.of_mem_zip hq).2)
  · rw [← h.short_eq, ← List.map_congr_left fun u hu => hs.tree_grows later (h.stored u hu), List.zip_map]
    rfl
  · exact .group h.chain h.longer h.absorbs length bound ok trees

/-- All ways to hand out the chain are tried, whichever side it is on. -/
theorem grouped_resolves (h : Pitted F known places size depth ses s p)
    (hm : MatcherResolves F known places size depth m) (hg : GoalResolves F known places size)
    {xs ys : List Tree} {a b : Attrs} {long : Chain} {short : List TermId}
    (hands : HandsOut F op xs ys a ses s long short) {shortFirst : Bool}
    (sides : (s.tree ses.store p.1, s.tree ses.store p.2) =
      if shortFirst then (.app op ys b, .app op xs a) else (.app op xs a, .app op ys b))
    {groupings : Groupings} (slots : groupings.absorbs = (Tree.operands F op ys).map Tree.isVar)
    (operands : groupings.operands = (Tree.operands F op xs).length) :
    Decides known (SomeGrouping groupings fun assignment => ∃ us : List Tree,
        List.Forall₂ (fun slot t => (Strand.of op (.app op xs a)).group op (members assignment slot) =
          some t) (List.range (Tree.operands F op ys).length) us ∧
            AllJoin F (us.zip (Tree.operands F op ys)))
      (Narrows known (readPairs s ses.store [p]) ses s) ses
      (grouped m op short long shortFirst groupings s) := by
  have hs := h.opposed.sound
  have pos : 0 < groupings.absorbs.length :=
    List.length_pos_of_ne_nil fun none => by
      have := hands.absorbs
      rw [← slots, none] at this
      cases this
  have turned : ∀ {st ts}, readPairs s st (short.zip ts) = (readPairs s st (ts.zip short)).map Prod.swap := by
    intro st ts
    rw [← List.zip_swap, readPairs, readPairs, List.map_map, List.map_map]
    rfl
  generalize hk : groupings.left = left
  induction left using Nat.strongRecOn generalizing groupings with
  | ind left ih =>
    rw [grouped]
    split
    · rename_i none
      exact .empty fun _ => not_someGrouping none
    · rename_i assignment later next
      obtain ⟨length, bound, ok, slots', operands', lt⟩ := Groupings.next?_spec pos next
      rw [slots, List.length_map] at bound
      rw [slots] at ok
      refine Decides.congr (.suspend fun ses' k => ?_) fun _ => (someGrouping_of_next? next).symm
      obtain ⟨ts, ses'', eq, keeps, stored, us, read, lineup, made⟩ :=
        hands.exists_groups (b := b) hs k (length.trans operands) bound ok
      -- The same pairs, with the shorter chain on its side.
      obtain ⟨pairing, joins⟩ : Pairing F (s.tree ses.store p.1) (s.tree ses.store p.2)
            (readPairs s ses''.store (if shortFirst then short.zip ts else ts.zip short)) ∧
          (AllJoin F (readPairs s ses''.store (if shortFirst then short.zip ts else ts.zip short)) ↔
            AllJoin F (us.zip (Tree.operands F op ys))) := by
        cases shortFirst with
        | false =>
          obtain ⟨left, right⟩ := Prod.mk.inj sides
          rw [left, right]
          exact ⟨.inl (read ▸ lineup), by rw [← read]; rfl⟩
        | true =>
          obtain ⟨left, right⟩ := Prod.mk.inj sides
          rw [left, right, if_pos rfl, turned, read]
          have there : Pairing F (.app op xs a) (.app op ys b) _ := .inl lineup
          refine ⟨there.symm, ?_⟩
          rw [AllJoin, List.forall_mem_map]
          exact forall₂_congr fun q _ => Tree.joins_comm
      have stored' : ∀ q ∈ if shortFirst then short.zip ts else ts.zip short,
          ses''.store.Stored q.1 ∧ ses''.store.Stored q.2 := by
        cases shortFirst with
        | false => exact stored
        | true =>
          rw [if_pos rfl, ← List.zip_swap, List.forall_mem_map]
          exact fun q hq => (stored q hq).symm
      obtain ⟨goes, here⟩ := h.pairs_resolve hm hg (k.trans keeps) stored' pairing
      have first := here.congr fun _ => joins.trans
        (exists_forall₂_some_iff (P := fun us => AllJoin F (us.zip _)) made).symm
      rw [eq]
      refine ⟨keeps.trans goes, first.plus (.suspend fun ses₁ k₁ => ⟨.refl ses₁, ?_⟩)⟩
      exact (ih _ (hk ▸ lt) (slots'.trans slots) (operands'.trans operands)
        (slots'.symm ▸ pos) rfl).keeps
        (((k.trans keeps).trans goes).trans k₁)

/-- A mismatch decides what does not hold. -/
theorem mismatch_resolves {X : Prop} {Q : Session → Subst → Prop} (none : known → ¬ X) :
    ses.Keeps (mismatch ses).2 ∧ Decides known X Q (mismatch ses).2 (mismatch ses).1 :=
  ⟨Session.count_keeps _ ses, .empty none⟩

/-! ## The matcher -/

variable {xs ys : List Tree} {attrs attrs' : Attrs}

/-- Some pairs that the operands of two trees make all join. -/
abbrev OperandsJoin (F : Facts) (t u : Tree) : Prop := ∃ ps, Pairing F t u ps ∧ AllJoin F ps

theorem operandsJoin_comm {t u : Tree} : OperandsJoin F t u ↔ OperandsJoin F u t := by
  refine Tree.exists_pairing_symm.trans (exists_congr fun ps => and_congr_right fun _ => ?_)
  exact forall₂_congr fun q _ => Tree.joins_comm

/-- Equally many operands need no groups. -/
theorem operandsJoin_of_length
    (length : (Tree.operands F op xs).length = (Tree.operands F op ys).length) :
    OperandsJoin F (.app op xs attrs) (.app op ys attrs') ↔
      ∃ ps, Lineup F (.app op xs attrs) (.app op ys attrs') ps ∧ AllJoin F ps :=
  (Tree.exists_pairing_of_length length).trans (Tree.exists_lineup_of_length length).symm

theorem operandsJoin_of_longer (chain : F.isChain op = true)
    (longer : (Tree.operands F op ys).length < (Tree.operands F op xs).length)
    (absorbs : ((Tree.operands F op ys).map Tree.isVar).contains true = true) :
    OperandsJoin F (.app op xs attrs) (.app op ys attrs') ↔
      SomeGrouping (.all (Tree.operands F op xs).length ((Tree.operands F op ys).map Tree.isVar))
        fun assignment => ∃ us : List Tree, List.Forall₂ (fun slot t =>
          (Strand.of op (.app op xs attrs)).group op (members assignment slot) = some t)
            (List.range (Tree.operands F op ys).length) us ∧ AllJoin F (us.zip (Tree.operands F op ys)) := by
  rw [← exists_lineup_of_longer (P := AllJoin F) chain longer absorbs (b := attrs')]
  exact exists_congr fun ps => and_congr_left fun _ => Tree.pairing_of_longer longer

/-- Chains of different length are matched in groups. -/
theorem regroup_resolves (h : Pitted F known places size depth ses s (a, b))
    (hm : MatcherResolves F known places size depth m) (hg : GoalResolves F known places size)
    (chain : F.isChain op = true) (left : s.tree ses.store a = .app op xs attrs)
    (right : s.tree ses.store b = .app op ys attrs')
    (length : (Chain.flatten op s ses.store a).items.length ≠
      (Chain.flatten op s ses.store b).items.length) :
    let r := regroup m op (Chain.flatten op s ses.store a) (Chain.flatten op s ses.store b) s ses
    ses.Keeps r.2 ∧ Decides known (OperandsJoin F (.app op xs attrs) (.app op ys attrs'))
      (Narrows known (readPairs s ses.store [(a, b)]) ses s) r.2 r.1 := by
  have hs := h.opposed.sound
  obtain ⟨storedA, storedB⟩ := h.opposed.stored _ (List.mem_singleton_self _)
  have x := flatten_operands hs storedA chain left
  have y := flatten_operands hs storedB chain right
  have showsX : (Chain.flatten op s ses.store a).Shows s ses.store _ := Chain.flatten_shows hs storedA
  have showsY : (Chain.flatten op s ses.store b).Shows s ses.store _ := Chain.flatten_shows hs storedB
  rw [left] at showsX
  rw [right] at showsY
  generalize Chain.flatten op s ses.store a = long at x showsX length ⊢
  generalize Chain.flatten op s ses.store b = short at y showsY length ⊢
  have countX : long.items.length = (Tree.operands F op xs).length := by
    rw [← x.items_eq, List.length_map]
  have countY : short.items.length = (Tree.operands F op ys).length := by
    rw [← y.items_eq, List.length_map]
  have ne : (Tree.operands F op xs).length ≠ (Tree.operands F op ys).length := countX ▸ countY ▸ length
  unfold regroup
  by_cases shorter : long.items.length < short.items.length
  · simp only [shorter, decide_true, if_true, map_isVar hs x.stored, x.items_eq]
    split
    · rename_i absorbs
      have longer : (Tree.operands F op xs).length < (Tree.operands F op ys).length := by omega
      have hands : HandsOut F op ys xs attrs' ses s short long.items :=
        ⟨chain, y, showsY, x.stored, x.items_eq, longer, absorbs⟩
      refine ⟨.refl ses, (grouped_resolves h hm hg hands (b := attrs) (by rw [left, right]; rfl)
        rfl countY).congr fun _ => ?_⟩
      rw [operandsJoin_comm, operandsJoin_of_longer chain longer absorbs, countY]
    · rename_i absorbs
      refine mismatch_resolves fun _ ⟨ps, pairing, _⟩ => Tree.not_pairing ne (fun _ _ => by omega) ?_ pairing
      exact fun _ _ => by simpa using absorbs
  · simp only [shorter, decide_false, if_false, map_isVar hs y.stored, y.items_eq]
    split
    · rename_i absorbs
      have longer : (Tree.operands F op ys).length < (Tree.operands F op xs).length := by omega
      have hands : HandsOut F op xs ys attrs ses s long short.items :=
        ⟨chain, x, showsX, y.stored, y.items_eq, longer, absorbs⟩
      refine ⟨.refl ses, (grouped_resolves h hm hg hands (b := attrs') (by rw [left, right]; rfl)
        rfl countX).congr fun _ => ?_⟩
      rw [operandsJoin_of_longer chain longer absorbs, countX]
    · rename_i absorbs
      refine mismatch_resolves fun _ ⟨ps, pairing, _⟩ => Tree.not_pairing ne ?_ (fun _ _ => by omega) pairing
      exact fun _ _ => by simpa using absorbs

/-- Equally many operands of a commutative operator are matched in all orders. -/
theorem commuted_resolves (h : Pitted F known places size depth ses s (a, b))
    (hm : MatcherResolves F known places size depth m) (hg : GoalResolves F known places size)
    (comm : F.isCommutative op = true) (left : s.tree ses.store a = .app op xs attrs)
    (right : s.tree ses.store b = .app op ys attrs') {us vs : List TermId}
    (storedL : ∀ u ∈ us, ses.store.Stored u) (storedR : ∀ v ∈ vs, ses.store.Stored v)
    (readL : us.map (s.tree ses.store) = Tree.operands F op xs)
    (readR : vs.map (s.tree ses.store) = Tree.operands F op ys) (length : us.length = vs.length) :
    Decides known (OperandsJoin F (.app op xs attrs) (.app op ys attrs'))
      (Narrows known (readPairs s ses.store [(a, b)]) ses s) ses
      (permuted m (.all us.length) us vs s) := by
  have counts : (Tree.operands F op xs).length = (Tree.operands F op ys).length := by
    rw [← readL, ← readR, List.length_map, List.length_map, length]
  have read : ∀ zs : List TermId, readPairs s ses.store (zs.zip vs) =
      (zs.map (s.tree ses.store)).zip (Tree.operands F op ys) := by
    intro zs
    rw [← readR, List.zip_map]
    rfl
  have pairing : ∀ zs : List TermId, zs.Perm us → Pairing F (s.tree ses.store a) (s.tree ses.store b)
      (readPairs s ses.store (zs.zip vs)) := by
    intro zs perm
    rw [left, right, read]
    exact .inl (.pair counts (.inr ⟨comm, readL ▸ (perm.map _).symm⟩))
  refine (permuted_resolves h hm hg storedL storedR pairing (Nat.le_refl _)).congr fun _ => ?_
  rw [operandsJoin_of_length counts, exists_lineup_of_commutative comm counts, ← readL]
  refine (someOrder_all (P := fun zs => AllJoin F (readPairs s ses.store (zs.zip vs)))).trans ⟨?_, ?_⟩
  · exact fun ⟨zs, perm, each⟩ => ⟨_, perm.map _, read zs ▸ each⟩
  · rintro ⟨_, ordered, each⟩
    obtain ⟨zs, perm, rfl⟩ := exists_perm_map.mp ordered
    exact ⟨zs, perm, by rwa [read]⟩

/-- The operands of two applications are matched in all ways to pair them up. -/
theorem matchOperands_resolves (h : Pitted F known places size depth ses s (a, b))
    (hm : MatcherResolves F known places size depth m) (hg : GoalResolves F known places size)
    {us vs : List TermId} (ha : ses.store.term? a = some (.app op us attrs))
    (hb : ses.store.term? b = some (.app op vs attrs')) :
    let r := matchOperands m op a b us vs s ses
    ses.Keeps r.2 ∧ Decides known (OperandsJoin F (s.tree ses.store a) (s.tree ses.store b))
      (Narrows known (readPairs s ses.store [(a, b)]) ses s) r.2 r.1 := by
  have hs := h.opposed.sound
  obtain ⟨storedA, storedB⟩ := h.opposed.stored _ (List.mem_singleton_self _)
  have left := hs.tree_app ha
  have right := hs.tree_app hb
  unfold matchOperands
  rw [h.opposed.facts, show (F.isCommutative op && F.isAssociative op) = F.isChain op from rfl]
  by_cases chain : F.isChain op = true
  · have x := flatten_operands hs storedA chain left
    have y := flatten_operands hs storedB chain right
    rw [if_pos chain]
    dsimp only
    split
    · rename_i length
      rw [left, right]
      exact ⟨.refl ses, commuted_resolves h hm hg (Facts.commutative_of_isChain chain) left right x.stored
        y.stored x.items_eq y.items_eq length⟩
    · rename_i length
      rw [left, right]
      exact regroup_resolves h hm hg chain left right length
  · have plain : ∀ ts, Tree.operands F op ts = ts := fun ts => if_neg chain
    rw [if_neg chain, left, right]
    have storedU : ∀ u ∈ us, ses.store.Stored u := fun u hu => hs.valid.stored ha hu
    have storedV : ∀ v ∈ vs, ses.store.Stored v := fun v hv => hs.valid.stored hb hv
    split
    · rename_i length
      refine mismatch_resolves fun _ ⟨ps, pairing, _⟩ => Tree.not_pairing ?_
        (fun chain' => absurd chain' chain) (fun chain' => absurd chain' chain) pairing
      rwa [plain, plain, List.length_map, List.length_map]
    · rename_i length
      have length : us.length = vs.length := not_not.mp length
      split
      · rename_i comm
        exact ⟨.refl ses, commuted_resolves h hm hg comm left right storedU storedV (plain _).symm
          (plain _).symm length⟩
      · rename_i comm
        have counts : (Tree.operands F op (us.map (s.tree ses.store))).length =
            (Tree.operands F op (vs.map (s.tree ses.store))).length := by
          rwa [plain, plain, List.length_map, List.length_map]
        have read : readPairs s ses.store (us.zip vs) =
            (Tree.operands F op (us.map (s.tree ses.store))).zip
              (Tree.operands F op (vs.map (s.tree ses.store))) := by
          rw [plain, plain, List.zip_map]
          rfl
        have stored : ∀ q ∈ us.zip vs, ses.store.Stored q.1 ∧ ses.store.Stored q.2 := fun q hq =>
          ⟨storedU _ (List.of_mem_zip hq).1, storedV _ (List.of_mem_zip hq).2⟩
        have pairing : Pairing F (s.tree ses.store a) (s.tree ses.store b)
            (readPairs s ses.store (us.zip vs)) := by
          rw [left, right, read]
          exact .inl (.pair counts (.inl rfl))
        obtain ⟨keeps, resolved⟩ := h.pairs_resolve hm hg (.refl ses) stored pairing
        refine ⟨keeps, resolved.congr fun _ => ?_⟩
        rw [operandsJoin_of_length counts, exists_lineup_of_ordered comm counts, read]

/-! ## Pairs that are unified -/

open Subst (settle finish Settles)

theorem Narrows.later (h : Narrows known ps ses s ses' s') (k : ses'.Keeps ses'') :
    Narrows known ps ses s ses'' s' :=
  h.trans (.of_keeps ps h.sound h.free k) (fun _ => id) fun _ _ => id

/-- What unification has settled at once binds at most one of the two terms, if that is a variable. -/
theorem Narrows.of_settles (hs : s.Sound ses.store) (ha : ses.store.Stored a) (hb : ses.store.Stored b)
    (free : known → s.constraints = []) {more : List (TermId × TermId)} {r : Subst}
    (settles : Settles ses.store s a b more r)
    (finished : finish ses.store s r = some s') :
    Narrows known (readPairs s ses.store [(a, b)]) ses s ses s' := by
  have keeps := settles.keeps hs ha hb
  have bindings : r.bindings = s'.bindings := by
    rw [Subst.finish_eq keeps] at finished
    split at finished
    · cases finished
      rfl
    · obtain ⟨ds, -, rfl⟩ := Option.map_eq_some_iff.mp finished
      rfl
  refine ⟨.refl ses, keeps.sound.congr bindings, keeps.kept.trans (Subst.extends_congr bindings), ?_,
    fun k => ?_, fun k v none some => ?_⟩
  · rw [Subst.openPlaces_congr bindings, ← bindings]
    exact keeps.binds.imp (congrArg Subst.bindings) And.right
  · have still := free k
    rw [← keeps.constraints] at still
    rw [finish, Subst.revalidate_of_free still, ite_self] at finished
    cases finished
    exact still
  · have some : r.get? v ≠ Option.none := by rwa [Subst.get?, bindings]
    have isRoot : ∀ {c u w}, ses.store.term? (s.deref ses.store c) = Option.some (.var w) →
        (s.bind w u).get? v ≠ Option.none → (s.tree ses.store c).HasVar v := by
      intro c u w var bound
      rw [Subst.get?_bind] at bound
      split at bound
      · rename_i eq
        rw [hs.tree_of_var var, eq]
        exact .var
      · exact absurd none bound
    cases settles with
    | left var => exact ⟨_, .head _, .inl (isRoot var some)⟩
    | right var => exact ⟨_, .head _, .inr (isRoot var some)⟩
    | _ => exact absurd none some

/-- Where no variable occurs twice, trees that are no applications join just if they do not clash. -/
theorem not_joins_of_clash {t u : Tree} (linear : Linear [(t, u)]) (clash : Tree.Clash t u)
    (other : ∀ op xs ys attrs attrs', ¬ (t = .app op xs attrs ∧ u = .app op ys attrs')) : ¬ Joins F t u := by
  have once : ∀ {v t u}, Linear [(t, u)] → t.HasVar v → ¬ u.HasVar v := by
    intro v t u linear left right
    have le : t.varCount v + u.varCount v ≤ 1 := linear v
    have := Tree.varCount_pos_iff.mpr left
    have := Tree.varCount_pos_iff.mpr right
    omega
  cases clash with
  | occursLeft has => exact absurd has (once linear .var)
  | occursRight has => exact absurd .var (once linear has)
  | values ne value =>
    rintro (_ | _ | _ | same | _)
    rcases same with rfl | same
    · exact ne rfl
    · cases value.symm.trans same
  | roots =>
    intro joins
    obtain ⟨rfl, -⟩ := joins_app_iff.mp joins
    exact other _ _ _ _ _ ⟨rfl, rfl⟩
  | leafApp => exact nofun
  | appLeaf => exact nofun

/-- What is no pair of applications unifies, if it matches at all. -/
theorem unify_resolves (h : Opposed F known ses s [(a, b)]) (ne : s.deref ses.store a ≠ s.deref ses.store b)
    (other : ses.store.app? (s.deref ses.store a) = none ∨ ses.store.app? (s.deref ses.store b) = none) :
    Delivers F known ses s (a, b) (Search.unify a b s ses) := by
  obtain ⟨ha, hb⟩ := h.stored _ (List.mem_singleton_self _)
  have hs := h.sound
  have noApps : ∀ {f g xs ys attrs attrs'}, ses.store.term? (s.deref ses.store a) = some (.app f xs attrs) →
      ses.store.term? (s.deref ses.store b) ≠ some (.app g ys attrs') := by
    intro f g xs ys attrs attrs' left right
    rw [Store.app?_eq_some_iff.mpr left, Store.app?_eq_some_iff.mpr right] at other
    simp at other
  rw [unify_apply, Subst.unify_eq_bind, hs.unifyBindings_settle ha hb]
  rcases hs.settle_cases ha hb with ⟨more, r, settled, settles⟩ | ⟨clashed, clash⟩
  · have alone : more = [] ∧ Joins F (s.tree ses.store a) (s.tree ses.store b) := by
      cases settles with
      | same eq => exact absurd eq ne
      | left var => exact ⟨rfl, hs.tree_of_var var ▸ .left _ _⟩
      | right var => exact ⟨rfl, hs.tree_of_var var ▸ .right _ _⟩
      | leaves left right value =>
        rw [hs.tree_of_leaf left, hs.tree_of_leaf right]
        exact ⟨rfl, .leaf (.inr value)⟩
      | operands left right => exact absurd right (noApps left)
    obtain ⟨rfl, joins⟩ := alone
    have one : ((settle ses.store a b s).bind fun r => Subst.bindPairs ses.store r.1 r.2).bind
        (finish ses.store s) = finish ses.store s r := by
      rw [settled]
      rfl
    rw [one]
    cases finished : finish ses.store s r with
    | none =>
      refine mismatch_resolves fun k => ?_
      have free := (settles.keeps hs ha hb).constraints.trans (h.free k)
      rw [finish, Subst.revalidate_of_free free, ite_self] at finished
      cases finished
    | some t =>
      have narrows := Narrows.of_settles hs ha hb h.free settles finished
      have counted := Session.count_keeps Counters.countUnification ses
      exact ⟨counted, .unit (fun ses' k => narrows.later (counted.trans k)) fun _ => joins⟩
  · rw [clashed]
    refine mismatch_resolves fun k => not_joins_of_clash (h.linear k) clash ?_
    rintro op xs ys attrs attrs' ⟨left, right⟩
    obtain ⟨us, left⟩ := hs.exists_app ha left
    obtain ⟨vs, right⟩ := hs.exists_app hb right
    exact noApps left right

/-! ## The matcher at every depth -/

theorem Opposed.deref (h : Opposed F known ses s [(a, b)]) :
    Opposed F known ses s [(s.deref ses.store a, s.deref ses.store b)] := by
  obtain ⟨ha, hb⟩ := h.stored _ (List.mem_singleton_self _)
  refine ⟨h.facts, h.sound, List.forall_mem_singleton.mpr ⟨h.sound.stored_deref ha, h.sound.stored_deref hb⟩,
    h.free, fun k => ?_⟩
  rw [readPairs, List.map_singleton, h.sound.tree_deref, h.sound.tree_deref]
  exact h.linear k

theorem Delivers.of_deref (hs : s.Sound ses.store) {out : Search × Session}
    (h : Delivers F known ses s (s.deref ses.store a, s.deref ses.store b) out) :
    Delivers F known ses s (a, b) out := by
  rwa [Delivers, readPairs, List.map_singleton, hs.tree_deref, hs.tree_deref] at h

theorem moduloWithin_resolves (hg : GoalResolves F known places size) (depth : Nat) :
    MatcherResolves F known places size depth (moduloWithin depth) := by
  induction depth with
  | zero => exact fun _ _ _ lt => absurd lt (Nat.not_lt_zero _)
  | succ depth ih =>
    rintro ses s ⟨a, b⟩ h card mass lt
    have hs := h.sound
    by_cases same : s.deref ses.store a = s.deref ses.store b
    · rw [moduloWithin_same depth same]
      refine ⟨.refl ses, .unit (fun ses' k => .of_keeps _ hs h.free k) fun _ => ?_⟩
      rw [← hs.tree_deref a, same, hs.tree_deref b]
      exact .refl _
    have unified : ses.store.app? (s.deref ses.store a) = none ∨ ses.store.app? (s.deref ses.store b) = none →
        Delivers F known ses s (a, b) (moduloWithin (depth + 1) a b s ses) := by
      intro other
      rw [moduloWithin_other depth same other]
      refine (unify_resolves h.deref ?_ ?_).of_deref hs
      · rwa [hs.deref_deref, hs.deref_deref]
      · rwa [hs.deref_deref, hs.deref_deref]
    cases left : ses.store.app? (s.deref ses.store a) with
    | none => exact unified (.inl left)
    | some x => cases right : ses.store.app? (s.deref ses.store b) with
      | none => exact unified (.inr right)
      | some y =>
        obtain ⟨f, us, attrs⟩ := x
        obtain ⟨g, vs, attrs'⟩ := y
        have left := Store.app?_eq_some_iff.mp left
        have right := Store.app?_eq_some_iff.mp right
        have iff : Joins F (s.tree ses.store (s.deref ses.store a)) (s.tree ses.store (s.deref ses.store b)) ↔
            f = g ∧ attrs.compatible attrs' = true ∧ OperandsJoin F (s.tree ses.store (s.deref ses.store a))
              (s.tree ses.store (s.deref ses.store b)) := by
          rw [hs.tree_app left, hs.tree_app right, joins_app_iff]
        rw [moduloWithin_app depth same left right]
        refine Delivers.of_deref hs ?_
        split
        · rename_i fits
          obtain ⟨rfl, fits⟩ := fits
          have pitted : Pitted F known places size depth ses s
              (s.deref ses.store a, s.deref ses.store b) := by
            refine ⟨h.deref, card, ?_, ?_⟩
            · rwa [hs.tree_deref, hs.tree_deref]
            · rw [hs.tree_deref, hs.tree_deref]
              exact Nat.le_of_lt_succ lt
          obtain ⟨keeps, resolved⟩ := matchOperands_resolves pitted ih hg left right
          refine ⟨keeps, resolved.congr fun _ => ?_⟩
          rw [iff]
          exact ((and_iff_right rfl).trans (and_iff_right fits)).symm
        · rename_i no
          refine mismatch_resolves fun _ joins => ?_
          obtain ⟨same, fits, -⟩ := iff.mp joins
          exact no ⟨same, fits⟩

/-- What is below some bounds is resolved with goals that are. -/
theorem GoalResolves.modulo (hg : GoalResolves F known places size) (h : Opposed F known ses s [p])
    (card : (s.openPlaces ses.store).card ≤ places)
    (mass : (s.tree ses.store p.1).mass F + (s.tree ses.store p.2).mass F ≤ size) :
    Resolves F known ses s [p] (.apply (.modulo p.1 p.2) s) := by
  refine .apply fun ses' k => ?_
  have h' := h.keeps k
  have read := readPairs_keeps h.sound h.stored k
  obtain ⟨left, right⟩ := Prod.mk.inj (List.singleton_inj.mp read)
  have lt : min (s.tree ses'.store p.1).depth (s.tree ses'.store p.2).depth < Subst.pairBound ses'.store :=
    Nat.lt_of_le_of_lt (Nat.min_le_left ..)
      (Nat.lt_of_lt_of_le (h'.sound.depth_tree_lt p.1) (Subst.depthBound_le_pairBound _))
  obtain ⟨keeps, resolved⟩ := moduloWithin_resolves hg (Subst.pairBound ses'.store) h'
    (Subst.openPlaces_keeps s k ▸ card) (by rwa [left, right]) lt
  rw [left, right, read] at resolved
  exact ⟨keeps, resolved.imp (fun _ _ met => met.back h.sound h.free k) fun _ => allJoin_single.symm⟩

/-- Matching comes to an end. Where no variable occurs twice, there is an answer just if the trees join. -/
theorem modulo_resolves (h : Opposed F known ses s [p]) :
    Resolves F known ses s [p] (.apply (.modulo p.1 p.2) s) := by
  suffices ∀ places size, GoalResolves F known places size from
    this _ _ h (.inr ⟨Nat.le_refl _, Nat.lt_succ_self _⟩)
  intro places
  induction places using Nat.strongRecOn with
  | ind places outer =>
    have fewer : ∀ {ses s p}, Opposed F known ses s [p] → (s.openPlaces ses.store).card < places →
        Resolves F known ses s [p] (.apply (.modulo p.1 p.2) s) := fun h lt =>
      outer _ lt _ h (.inr ⟨Nat.le_refl _, Nat.lt_succ_self _⟩)
    intro size
    induction size with
    | zero => exact fun h below => fewer h (below.resolve_right fun lt => Nat.not_lt_zero _ lt.2)
    | succ size ih =>
      intro ses s p h below
      rcases below with lt | ⟨card, mass⟩
      · exact fewer h lt
      · exact ih.modulo h card (Nat.le_of_lt_succ mass)

/-- Matching comes to an end, with finitely many answers, whatever variables stand on either side. -/
theorem modulo_drains (hs : s.Sound ses.store) (ha : ses.store.Stored a) (hb : ses.store.Stored b) :
    ∃ as, Process.Drains Search.turn ses (.apply (.modulo a b) s) as := by
  have opposed : Opposed ses.facts False ses s [(a, b)] :=
    ⟨rfl, hs, List.forall_mem_singleton.mpr ⟨ha, hb⟩, False.elim, False.elim⟩
  exact Halts.drains (modulo_resolves opposed)

/-- The products `(x * y) * x` and `y * (a * z)`, last. -/
def sharedFactors : Session := .holding ⟨["add", "mul"], ["add", "mul"]⟩
  [.var 0, .var 1, .var 2, .leaf (.input "a"), .app "mul" [⟨0⟩, ⟨1⟩] .unspecified,
    .app "mul" [⟨4⟩, ⟨0⟩] .unspecified, .app "mul" [⟨3⟩, ⟨2⟩] .unspecified,
    .app "mul" [⟨1⟩, ⟨6⟩] .unspecified]

theorem sharedFactors_drains : Subst.empty.Sound sharedFactors.store ∧ sharedFactors.store.Stored ⟨5⟩ ∧
    sharedFactors.store.Stored ⟨7⟩ ∧
      ∃ as, Process.Drains Search.turn sharedFactors (.apply (.modulo ⟨5⟩ ⟨7⟩) .empty) as := by
  have sound := Subst.Sound.empty (show sharedFactors.store.Valid by decide +kernel)
  have left : sharedFactors.store.Stored ⟨5⟩ := by decide +kernel
  have right : sharedFactors.store.Stored ⟨7⟩ := by decide +kernel
  exact ⟨sound, left, right, modulo_drains sound left right⟩

/-- Where no variable occurs twice, there is an answer just if the two trees join. -/
theorem exists_answer_iff_joins (hs : s.Sound ses.store) (ha : ses.store.Stored a)
    (hb : ses.store.Stored b) (free : s.constraints = [])
    (linear : Linear [(s.tree ses.store a, s.tree ses.store b)]) :
    (∃ s' ses', Answer ses (.apply (.modulo a b) s) s' ses') ↔
      Joins ses.facts (s.tree ses.store a) (s.tree ses.store b) := by
  have opposed : Opposed ses.facts True ses s [(a, b)] :=
    ⟨rfl, hs, List.forall_mem_singleton.mpr ⟨ha, hb⟩, fun _ => free, fun _ => linear⟩
  exact ((modulo_resolves opposed).exists_answer_iff trivial).trans allJoin_single

end Search

end Regraft
