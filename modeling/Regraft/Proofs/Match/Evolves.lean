import Regraft.Proofs.Match.Sound
import Regraft.Proofs.Search.Evolves

/-
  Elementary goals and matching modulo the facts only do acts of goals: they unify, require, record, and
  make terms of labels that are there already (`unify_evolves`, `modulo_evolves`). Nothing is
  assumed of the constants here, and nothing is said of what the answers mean.
-/

namespace Regraft

namespace Search

/-- What answers do to a store and a substitution. -/
abbrev Evolving (has : Tree.Label → Prop) (st : Store) (s : Subst) (ses : Session) (s' : Subst) :
    Prop := Subst.Evolves has st s ses.store s'

/-- With a chain of an operator comes the plain application to two operands, of which groups are made. -/
def Groups (F : Facts) (has : Tree.Label → Prop) : Prop :=
  ∀ op n attrs, has (.node op n attrs) → F.isChain op = true → has (.node op 2 .unspecified)

/-- A place in a search: the bindings are sound, and to terms over some labels. -/
structure Scene (F : Facts) (has : Tree.Label → Prop) (ses : Session) (s : Subst) : Prop where
  facts : ses.facts = F
  sound : s.Sound ses.store
  images : ∀ v, (s.image ses.store v).Over has

variable {F : Facts} {has : Tree.Label → Prop} {n : Nat} {ses ses' ses'' : Session} {st : Store}
  {s s' : Subst} {a b t : TermId} {op : String}

theorem Scene.advance (h : Scene F has ses s) (g : ses.Grows ses')
    (adv : Subst.Advance has ses.store s ses'.store s') : Scene F has ses' s' :=
  ⟨g.facts.trans h.facts, adv.sound, adv.images h.images⟩

theorem Scene.grows (h : Scene F has ses s) (g : ses.Grows ses') : Scene F has ses' s :=
  h.advance g (.of_grows h.sound g.store)

theorem given_grows (hs : s.Sound ses.store) (g : ses.Grows ses') (h : Subst.Given has ses.store s t) :
    Subst.Given has ses'.store s t := h.advance (.of_grows hs g.store)

/-- What evolves from a later store on evolves from the earlier one. -/
theorem Evolving.back (g : ses.Grows ses') (h : Evolving has ses'.store s ses'' s') :
    Evolving has ses.store s ses'' s' := (Subst.Evolves.refl.grows g.store).trans h

/-- A single answer that has evolved evolves on when the session grows. -/
theorem unit_evolves (h : Evolving has st s ses s') : MeetsFor (Evolving has st s) n ses (unit s') :=
  .unit fun _ g => h.grows g.store

theorem unify_evolves (ha : Subst.Given has ses.store s a) (hb : Subst.Given has ses.store s b) :
    ses.Grows (unify a b s ses).2 ∧
      MeetsFor (Evolving has ses.store s) n (unify a b s ses).2 (unify a b s ses).1 := by
  rw [unify_apply]
  split
  · exact ⟨Session.count_grows _ ses, .empty⟩
  · rename_i t eq
    exact ⟨Session.count_grows _ ses, unit_evolves (.unify .refl ha hb eq)⟩

/-! ## Matching -/

/-- A matcher that only does acts of goals. -/
def MatcherEvolves (F : Facts) (has : Tree.Label → Prop) (n : Nat) (m : Matcher) : Prop :=
  ∀ {ses s a b}, Scene F has ses s → Subst.Given has ses.store s a → Subst.Given has ses.store s b →
    ses.Grows (m a b s ses).2 ∧
      MeetsFor (Evolving has ses.store s) n (m a b s ses).2 (m a b s ses).1

/-- The same of the goals that a matcher leaves behind. -/
def ModuloEvolves (F : Facts) (has : Tree.Label → Prop) (n : Nat) : Prop :=
  ∀ {ses s a b}, Scene F has ses s → Subst.Given has ses.store s a → Subst.Given has ses.store s b →
    MeetsFor (Evolving has ses.store s) n ses (.apply (.modulo a b) s)

/-- Both terms of a pair are given. -/
def GivenPair (has : Tree.Label → Prop) (ses : Session) (s : Subst) (p : TermId × TermId) : Prop :=
  Subst.Given has ses.store s p.1 ∧ Subst.Given has ses.store s p.2

theorem foldl_modulo_evolves (hg : ModuloEvolves F has n) (scene : Scene F has ses s)
    {pairs : List (TermId × TermId)} (given : ∀ p ∈ pairs, GivenPair has ses s p) {inner : Search}
    (hi : MeetsFor (Evolving has ses.store s) n ses inner) :
    MeetsFor (Evolving has ses.store s) n ses
      ((pairs.map fun p => Goal.modulo p.1 p.2).foldl bind inner) := by
  induction pairs generalizing inner with
  | nil => exact hi
  | cons p rest ih =>
    rw [List.forall_mem_cons] at given
    refine ih given.2 (hi.bind fun ses' s' g evolved => ?_)
    have adv := evolved.advance scene.sound
    exact (hg (scene.advance g adv) (given.1.1.advance adv) (given.1.2.advance adv)).imp
      fun _ _ => evolved.trans

theorem matchPairs_evolves {m : Matcher} (hm : MatcherEvolves F has n m)
    (hg : ModuloEvolves F has n) (scene : Scene F has ses s) {pairs : List (TermId × TermId)}
    (given : ∀ p ∈ pairs, GivenPair has ses s p) :
    ses.Grows (matchPairs m s pairs ses).2 ∧
      MeetsFor (Evolving has ses.store s) n (matchPairs m s pairs ses).2
        (matchPairs m s pairs ses).1 := by
  match pairs with
  | [] => exact ⟨.refl ses, unit_evolves .refl⟩
  | [(a, b)] =>
    obtain ⟨left, right⟩ := given (a, b) (List.mem_singleton_self _)
    exact hm scene left right
  | (a, b) :: p :: rest =>
    rw [List.forall_mem_cons] at given
    exact ⟨.refl ses, foldl_modulo_evolves hg scene given.2 (hg scene given.1.1 given.1.2)⟩

theorem permuted_evolves {m : Matcher} (hm : MatcherEvolves F has n m) (hg : ModuloEvolves F has n)
    (scene : Scene F has ses s) {xs ys : List TermId}
    (left : ∀ x ∈ xs, Subst.Given has ses.store s x)
    (right : ∀ y ∈ ys, Subst.Given has ses.store s y) (orders : Orders) :
    MeetsFor (Evolving has ses.store s) n ses (permuted m orders xs ys s) := by
  generalize hk : orders.left = k
  induction k using Nat.strongRecOn generalizing orders with
  | ind k ih =>
    rw [permuted]
    split
    · exact .empty
    · rename_i order later next
      refine (MeetsFor.suspend fun ses' g => ?_).pred
      have pairs : ∀ p ∈ (order.filterMap (xs[·]?)).zip ys, GivenPair has ses' s p := by
        intro p hp
        obtain ⟨hx, hy⟩ := List.of_mem_zip hp
        obtain ⟨i, -, hx⟩ := List.mem_filterMap.mp hx
        exact ⟨given_grows scene.sound g (left _ (List.mem_of_getElem? hx)),
          given_grows scene.sound g (right _ hy)⟩
      obtain ⟨g', here⟩ := matchPairs_evolves hm hg (scene.grows g) pairs
      refine ⟨g', (here.imp fun _ _ => Evolving.back g).plus ?_⟩
      have rest := ih _ (hk ▸ Orders.left_lt_of_next? next) later rfl
      refine (MeetsFor.suspend fun ses'' g'' => ⟨.refl ses'', ?_⟩).pred
      exact rest.grows ((g.trans g').trans g'')

/-- Operands of the shorter chain, and the longer chain whose operands are handed to them. -/
structure Dealt (F : Facts) (has : Tree.Label → Prop) (op : String) (ses : Session) (s : Subst)
    (short : List TermId) (long : Chain) (trees : List Tree) : Prop where
  scene : Scene F has ses s
  two : has (.node op 2 .unspecified)
  given : ∀ u ∈ short, Subst.Given has ses.store s u
  reads : Chain.Reads op s ses.store has trees long
  overs : ∀ x ∈ trees, x.Over has
  single : ∀ x ∈ trees, ¬ x.IsApp op

theorem Dealt.grows {short : List TermId} {long : Chain} {trees : List Tree}
    (h : Dealt F has op ses s short long trees) (g : ses.Grows ses') :
    Dealt F has op ses' s short long trees where
  scene := h.scene.grows g
  two := h.two
  given u hu := given_grows h.scene.sound g (h.given u hu)
  reads := h.reads.grows h.scene.sound g.store
  overs := h.overs
  single := h.single

/-- The items of the longer chain are given as well. -/
theorem Dealt.items {short : List TermId} {long : Chain} {trees : List Tree}
    (h : Dealt F has op ses s short long trees) :
    ∀ u ∈ long.items, Subst.Given has ses.store s u := by
  intro u hu
  refine ⟨h.reads.stored u hu, h.overs _ ?_⟩
  rw [← h.reads.items_eq]
  exact List.mem_map_of_mem hu

theorem grouped_evolves {m : Matcher} (hm : MatcherEvolves F has n m) (hg : ModuloEvolves F has n)
    {short : List TermId} {long : Chain} {trees : List Tree} (pos : 0 < short.length)
    (h : Dealt F has op ses s short long trees) {shortFirst : Bool} {groupings : Groupings}
    (slots : groupings.absorbs.length = short.length)
    (operands : groupings.operands = long.items.length) :
    MeetsFor (Evolving has ses.store s) n ses (grouped m op short long shortFirst groupings s) := by
  generalize hk : groupings.left = k
  induction k using Nat.strongRecOn generalizing groupings with
  | ind k ih =>
    rw [grouped]
    split
    · exact .empty
    · rename_i assignment later next
      obtain ⟨length, -, ok, slots', operands', lt⟩ := Groupings.next?_spec (by omega) next
      refine (MeetsFor.suspend fun ses' g => ?_).pred
      have h' := h.grows g
      have given : ∀ slot ∈ List.range short.length, members assignment slot ≠ [] :=
        fun slot hslot => members_ne_nil ok (by rw [slots]; exact List.mem_range.mp hslot)
      obtain ⟨ts, st', eq, grows, made⟩ := groups_made h'.scene.sound h'.two h'.reads h'.overs
        h'.single (length.trans operands) given
      have g' : ses'.Grows { ses' with store := st' } := ⟨rfl, grows⟩
      have h'' := h'.grows g'
      rw [Session.onStore_apply, eq]
      simp only
      have group : ∀ t ∈ ts, Subst.Given has st' s t := by
        intro t ht
        obtain ⟨slot, -, stored, labels, -⟩ := exists_of_forall₂_right made ht
        exact ⟨stored, labels⟩
      have pairs : ∀ p ∈ if shortFirst then short.zip ts else ts.zip short,
          GivenPair has { ses' with store := st' } s p := by
        intro p hp
        cases shortFirst with
        | true =>
          obtain ⟨left, right⟩ := List.of_mem_zip hp
          exact ⟨h''.given _ left, group _ right⟩
        | false =>
          obtain ⟨left, right⟩ := List.of_mem_zip hp
          exact ⟨group _ left, h''.given _ right⟩
      obtain ⟨g'', here⟩ := matchPairs_evolves hm hg h''.scene pairs
      refine ⟨g'.trans g'', (here.imp fun _ _ => Evolving.back (g.trans g')).plus ?_⟩
      have rest := ih _ (hk ▸ lt) (slots' ▸ slots) (operands'.trans operands) rfl
      refine (MeetsFor.suspend fun ses₁ g₁ => ⟨.refl ses₁, ?_⟩).pred
      exact rest.grows (((g.trans g').trans g'').trans g₁)

theorem regroup_evolves {m : Matcher} (hm : MatcherEvolves F has n m) (hg : ModuloEvolves F has n)
    {x y : Chain} {xs ys : List Tree} (hxy : Dealt F has op ses s x.items y ys)
    (hyx : Dealt F has op ses s y.items x xs) :
    ses.Grows (regroup m op x y s ses).2 ∧ MeetsFor (Evolving has ses.store s) n
      (regroup m op x y s ses).2 (regroup m op x y s ses).1 := by
  unfold regroup
  by_cases lt : x.items.length < y.items.length
  · simp only [lt, if_true]
    split
    · rename_i some
      exact ⟨.refl ses, grouped_evolves hm hg (length_pos_of_contains some) hxy (List.length_map ..) rfl⟩
    · exact mismatch_setsUp ses (.refl ses)
  · simp only [lt, if_false]
    split
    · rename_i some
      exact ⟨.refl ses, grouped_evolves hm hg (length_pos_of_contains some) hyx (List.length_map ..) rfl⟩
    · exact mismatch_setsUp ses (.refl ses)

theorem dealt (groups : Groups F has) (scene : Scene F has ses s)
    (ha : Subst.Given has ses.store s a) (hb : Subst.Given has ses.store s b)
    (chain : F.isChain op = true) {xs : List TermId} {attrs : Attrs}
    (app : ses.store.term? a = some (.app op xs attrs)) :
    Dealt F has op ses s (Chain.flatten op s ses.store a).items
      (Chain.flatten op s ses.store b) ((s.tree ses.store b).items op) := by
  have readsA : Chain.Reads op s ses.store has _ _ :=
    Chain.flatten_reads scene.sound ha.stored ha.labels
  have readsB : Chain.Reads op s ses.store has _ _ :=
    Chain.flatten_reads scene.sound hb.stored hb.labels
  refine ⟨scene, ?_, fun u hu => ⟨readsA.stored u hu, ?_⟩, readsB, fun x hx => ?_, fun x hx => ?_⟩
  · have label := ha.labels
    rw [scene.sound.tree_app app, Tree.over_app] at label
    exact groups _ _ _ label.1 chain
  · have mem : s.tree ses.store u ∈ (s.tree ses.store a).items op := by
      rw [← readsA.items_eq]
      exact List.mem_map_of_mem hu
    exact ha.labels.of_mem_items mem
  · exact hb.labels.of_mem_items hx
  · exact Tree.not_isApp_of_mem_items hx

/-- The operands of a given application are given. -/
theorem given_operands (hs : s.Sound ses.store) (h : Subst.Given has ses.store s t)
    {xs : List TermId} {attrs : Attrs} (app : ses.store.term? t = some (.app op xs attrs)) :
    ∀ x ∈ xs, Subst.Given has ses.store s x := by
  intro x hx
  have labels := h.labels
  rw [hs.tree_app app, Tree.over_app] at labels
  exact ⟨hs.valid.stored app hx, labels.2 _ (List.mem_map_of_mem hx)⟩

theorem matchOperands_evolves {m : Matcher} (groups : Groups F has) (hm : MatcherEvolves F has n m)
    (hg : ModuloEvolves F has n) (scene : Scene F has ses s) (ha : Subst.Given has ses.store s a)
    (hb : Subst.Given has ses.store s b) {xs ys : List TermId} {attrs attrs' : Attrs}
    (appA : ses.store.term? a = some (.app op xs attrs))
    (appB : ses.store.term? b = some (.app op ys attrs')) :
    ses.Grows (matchOperands m op a b xs ys s ses).2 ∧ MeetsFor (Evolving has ses.store s) n
      (matchOperands m op a b xs ys s ses).2 (matchOperands m op a b xs ys s ses).1 := by
  have left := given_operands scene.sound ha appA
  have right := given_operands scene.sound hb appB
  unfold matchOperands
  rw [scene.facts, show (F.isCommutative op && F.isAssociative op) = F.isChain op from rfl]
  by_cases chain : F.isChain op = true
  · rw [if_pos chain]
    have hab := dealt groups scene ha hb chain appA
    have hba := dealt groups scene hb ha chain appB
    simp only
    split
    · exact ⟨.refl ses, permuted_evolves hm hg scene hab.given hba.given _⟩
    · exact regroup_evolves hm hg hab hba
  · rw [if_neg chain]
    split
    · exact mismatch_setsUp ses (.refl ses)
    · split
      · exact ⟨.refl ses, permuted_evolves hm hg scene left right _⟩
      · exact matchPairs_evolves hm hg scene fun p hp =>
          ⟨left _ (List.of_mem_zip hp).1, right _ (List.of_mem_zip hp).2⟩

/-- The matcher evolves at every depth. -/
theorem moduloWithin_evolves (groups : Groups F has) (hg : ModuloEvolves F has n) (depth : Nat) :
    MatcherEvolves F has n (moduloWithin depth) := by
  induction depth with
  | zero => exact fun {ses _ _ _} _ _ _ => ⟨.refl ses, .never⟩
  | succ depth ih =>
    intro ses s a b scene ha hb
    have ha' : Subst.Given has ses.store s (s.deref ses.store a) :=
      ⟨scene.sound.stored_deref ha.stored, by rw [scene.sound.tree_deref]; exact ha.labels⟩
    have hb' : Subst.Given has ses.store s (s.deref ses.store b) :=
      ⟨scene.sound.stored_deref hb.stored, by rw [scene.sound.tree_deref]; exact hb.labels⟩
    rw [moduloWithin]
    simp only
    split
    · exact ⟨.refl ses, unit_evolves .refl⟩
    · split
      · rename_i f xs attrs g ys attrs' appA appB
        split
        · rename_i fits
          obtain ⟨rfl, -⟩ := fits
          exact matchOperands_evolves groups ih hg scene ha' hb' (Store.app?_eq_some_iff.mp appA)
            (Store.app?_eq_some_iff.mp appB)
        · exact mismatch_setsUp ses (.refl ses)
      · exact unify_evolves ha' hb'

/-- Matching modulo the facts only does acts of goals. -/
theorem modulo_evolves (groups : Groups F has) (n : Nat) : ModuloEvolves F has n := by
  induction n with
  | zero => exact fun _ _ _ => trivial
  | succ n ih =>
    intro ses s a b scene ha hb
    refine .apply fun ses' g => ?_
    obtain ⟨g', meets⟩ := moduloWithin_evolves groups ih (Subst.pairBound ses'.store) (scene.grows g)
      (given_grows scene.sound g ha) (given_grows scene.sound g hb)
    exact ⟨g', meets.imp fun _ _ => Evolving.back g⟩

end Search

end Regraft
