import Regraft.Proofs.Match.Complete
import Regraft.Proofs.Match.Solves
import Regraft.Proofs.Match.Strands

/-
  Matching a ground term with a pattern comes to an end, and its answers are just the ways to match the
  two trees (`modulo_gives`). Goals that a match leaves behind are about ground trees of less mass, where
  a chain counts as one application however it is nested, so that a group made anew does not count
  more than the chain it was taken from (`Tree.mass_le_items`). The matcher that goes down at once comes
  to an end by its depth.
-/

namespace Regraft

namespace Tree

variable {F : Facts} {op : String} {t u : Tree}

/-! ## Mass -/

mutual

/-- The number of applications and leaves of a tree below an operator, where an application of the same
    operator counts as part of its chain. -/
def massBelow (F : Facts) (above : Option String) : Tree → Nat
  | app op args _ => massesBelow F op args + if F.isChain op ∧ above = some op then 0 else 1
  | _ => 1

def massesBelow (F : Facts) (op : String) : List Tree → Nat
  | [] => 0
  | t :: rest => massBelow F (some op) t + massesBelow F op rest

end

/-- The number of applications and leaves of a tree, where a chain counts as one application. -/
abbrev mass (F : Facts) (t : Tree) : Nat := t.massBelow F none

theorem massesBelow_eq_sum (F : Facts) (op : String) (ts : List Tree) :
    massesBelow F op ts = (ts.map (massBelow F (some op))).sum := by
  induction ts with
  | nil => rfl
  | cons t rest ih => rw [massesBelow, List.map_cons, List.sum_cons, ih]

/-- An operand of a chain counts as much as its own chain. -/
theorem massBelow_of_chain (chain : F.isChain op = true) (t : Tree) :
    t.massBelow F (some op) = ((t.items op).map (mass F)).sum := by
  induction t with
  | app f args attrs ih =>
    by_cases hf : f = op
    · subst hf
      rw [items_app_self, massBelow, massesBelow_eq_sum, if_pos ⟨chain, rfl⟩, Nat.add_zero,
        List.flatMap_def, List.map_flatten, List.sum_flatten, List.map_map, List.map_map]
      exact congrArg List.sum (List.map_congr_left ih)
    · have other : ¬ (F.isChain f = true ∧ some op = some f) := fun h => hf (Option.some.inj h.2).symm
      have alone : ¬ (F.isChain f = true ∧ none = some f) := nofun
      rw [items_of_not_isApp (t := app f args attrs) hf, List.map_singleton, List.sum_singleton,
        mass, massBelow, massBelow, if_neg other, if_neg alone]
  | _ => rfl

theorem massBelow_of_not_chain (chain : ¬ F.isChain op = true) (t : Tree) :
    t.massBelow F (some op) = t.mass F := by
  cases t with
  | app f args attrs =>
    have other : ¬ (F.isChain f = true ∧ some op = some f) := fun h =>
      chain (Option.some.inj h.2 ▸ h.1)
    have alone : ¬ (F.isChain f = true ∧ none = some f) := nofun
    rw [mass, massBelow, massBelow, if_neg other, if_neg alone]
  | _ => rfl

theorem mass_app (F : Facts) (op : String) (args : List Tree) (attrs : Attrs) :
    (app op args attrs).mass F = ((operands F op args).map (mass F)).sum + 1 := by
  have alone : ¬ (F.isChain op = true ∧ none = some op) := nofun
  rw [mass, massBelow, massesBelow_eq_sum, if_neg alone]
  congr 1
  unfold operands
  split
  · rename_i chain
    rw [List.flatMap_def, List.map_flatten, List.sum_flatten, List.map_map, List.map_map]
    exact congrArg List.sum (List.map_congr_left fun t _ => massBelow_of_chain chain t)
  · rename_i chain
    exact congrArg List.sum (List.map_congr_left fun t _ => massBelow_of_not_chain chain t)

theorem mass_pos (F : Facts) (t : Tree) : 0 < t.mass F := by
  cases t with
  | app op args attrs =>
    rw [mass_app]
    exact Nat.succ_pos _
  | _ => exact Nat.one_pos

theorem mass_le_sum {ts : List Tree} (h : t ∈ ts) : t.mass F ≤ (ts.map (mass F)).sum :=
  le_sum (List.mem_map_of_mem h)

/-- An operand has less mass than the application. -/
theorem mass_lt_of_mem {args : List Tree} {attrs : Attrs} (h : t ∈ operands F op args) :
    t.mass F < (app op args attrs).mass F := by
  rw [mass_app]
  exact Nat.lt_succ_of_le (mass_le_sum h)

/-- A tree counts at most one more than its chain. -/
theorem mass_le_items (chain : F.isChain op = true) (t : Tree) :
    t.mass F ≤ ((t.items op).map (mass F)).sum + 1 := by
  by_cases h : t.IsApp op
  · cases t with
    | app f args attrs =>
      obtain rfl : f = op := h
      rw [mass_app, operands, if_pos chain, items_app_self]
    | _ => exact h.elim
  · rw [items_of_not_isApp h, List.map_singleton, List.sum_singleton]
    exact Nat.le_succ _

theorem depth_lt_of_mem_operands {args : List Tree} {attrs : Attrs} (h : t ∈ operands F op args) :
    t.depth < (app op args attrs).depth := by
  unfold operands at h
  split at h
  · obtain ⟨u, hu, ht⟩ := List.mem_flatMap.mp h
    exact Nat.lt_of_le_of_lt (depth_le_of_mem_items ht) (depth_lt hu)
  · exact depth_lt h

/-! ## Groups -/

variable {assignment : List Nat} {trees gs : List Tree}

/-- What is added up over the operands of a chain is as much over the groups that it is split into. -/
theorem sum_map_groups (f : Tree → Nat) {slots : List Nat} (made : List.Forall₂ (fun slot g =>
      items op g = (Search.members assignment slot).filterMap (trees[·]?)) slots gs) :
    (gs.map fun g => ((items op g).map f).sum).sum = ((slots.flatMap fun slot =>
      (Search.members assignment slot).filterMap (trees[·]?)).map f).sum := by
  induction made with
  | nil => rfl
  | cons eq _ ih =>
    rw [List.map_cons, List.sum_cons, ih, eq, List.flatMap_cons, List.map_append, List.sum_append]

/-- Groups that a chain is split into have all its operands. -/
theorem sum_map_groups_eq (f : Tree → Nat) {n : Nat} (length : assignment.length = trees.length)
    (bound : ∀ d ∈ assignment, d < n) (made : List.Forall₂ (fun slot g => items op g =
      (Search.members assignment slot).filterMap (trees[·]?)) (List.range n) gs) :
    (gs.map fun g => ((items op g).map f).sum).sum = (trees.map f).sum := by
  rw [sum_map_groups f made]
  exact ((Search.flatMap_members_perm length bound).map _).sum_eq

/-- Groups that a chain is split into have no more mass than the chain, and less if there are several. -/
theorem mass_groups {args : List Tree} {attrs : Attrs} {n : Nat} (chain : F.isChain op = true)
    (whole : trees = operands F op args) (length : assignment.length = trees.length)
    (bound : ∀ d ∈ assignment, d < n) (given : ∀ slot < n, Search.members assignment slot ≠ [])
    (made : List.Forall₂ (fun slot g => items op g =
      (Search.members assignment slot).filterMap (trees[·]?)) (List.range n) gs) :
    ∀ g ∈ gs, g.mass F ≤ (app op args attrs).mass F ∧
      (2 ≤ gs.length → g.mass F < (app op args attrs).mass F) := by
  let chains : List Nat := gs.map fun g => ((items op g).map (mass F)).sum
  have total : chains.sum + 1 = (app op args attrs).mass F := by
    rw [mass_app, ← whole, sum_map_groups_eq (mass F) length bound made]
  have pos : ∀ k ∈ chains, 0 < k := by
    intro k hk
    obtain ⟨g, hg, rfl⟩ := List.mem_map.mp hk
    obtain ⟨slot, hslot, eq⟩ := exists_of_forall₂_right made hg
    obtain ⟨i, hi⟩ := List.exists_mem_of_ne_nil _ (given slot (List.mem_range.mp hslot))
    have lt := (List.getElem?_eq_some_iff.mp (Search.mem_members.mp hi)).1
    rw [length] at lt
    have mem : trees[i] ∈ items op g := by
      rw [eq]
      exact List.mem_filterMap.mpr ⟨i, hi, List.getElem?_eq_getElem lt⟩
    exact Nat.lt_of_lt_of_le (mass_pos F _) (mass_le_sum mem)
  intro g hg
  have here : ((items op g).map (mass F)).sum ∈ chains := List.mem_map.mpr ⟨g, hg, rfl⟩
  have le := mass_le_items chain g
  refine ⟨?_, fun two => ?_⟩
  · have := le_sum here
    omega
  · have := Search.lt_sum pos (by rwa [List.length_map]) here
    omega

end Tree

namespace Search

open Regraft.Tree (Matches Lineup Strand fill andThen only)

variable {F : Facts} {size depth : Nat} {d : List (Tree × Tree)} {ses ses' : Session} {st : Store} {s s' : Subst}
  {a b : TermId} {op : String} {m : Matcher} {σ θ : UInt32 → Tree}

/-! ## Ways -/

/-- The trees of pairs of terms. -/
abbrev readPairs (s : Subst) (st : Store) (pairs : List (TermId × TermId)) : List (Tree × Tree) :=
  pairs.map fun p => (s.tree st p.1, s.tree st p.2)

/-- The ways to match some pairs of terms. -/
def ways (F : Facts) (s : Subst) (st : Store) (pairs : List (TermId × TermId)) :
    Set (UInt32 → Tree) := {θ | Matches F (readPairs s st pairs) θ}

/-- The trees of pairs that an answer has met. -/
theorem readPairs_after {pairs : List (TermId × TermId)}
    (h : ∀ p ∈ pairs, Facing F ses s p.1 p.2)
    (solved : Subst.Solves d ses.store s ses'.store s' σ) :
    readPairs s' ses'.store pairs = fill σ (readPairs s ses.store pairs) := by
  rw [readPairs, fill, List.map_map]
  refine List.map_congr_left fun p hp => ?_
  have p := h p hp
  rw [solved.tree_of_ground p.sound p.left p.ground, solved.tree_eq p.sound p.right]
  rfl

/-- One list of pairs after another. -/
theorem ways_append (ps qs : List (TermId × TermId)) : ways F s st (ps ++ qs) =
    ⋃ σ ∈ ways F s st ps, andThen σ '' {τ | Matches F (fill σ (readPairs s st qs)) τ} := by
  ext θ
  simp only [ways, readPairs, List.map_append, Set.mem_ofPred_eq, Set.mem_iUnion, Set.mem_image,
    exists_prop, Matches.append_iff]
  constructor
  · exact fun ⟨σ, τ, first, later, eq⟩ => ⟨σ, first, τ, later, eq.symm⟩
  · exact fun ⟨σ, first, τ, later, eq⟩ => ⟨σ, τ, first, later, eq.symm⟩

/-- Goals about ground trees below a mass come to an end, and answer the ways to match. -/
def GoalGives (F : Facts) (size : Nat) : Prop :=
  ∀ {ses s a b}, Facing F ses s a b → (s.tree ses.store a).mass F < size →
    Gives True (Solving [] ses.store s) ses (.apply (.modulo a b) s) (ways F s ses.store [(a, b)])

/-- A matcher does so for ground trees up to a mass and patterns below a depth. -/
def MatcherGives (F : Facts) (size depth : Nat) (m : Matcher) : Prop :=
  ∀ {ses s a b}, Facing F ses s a b → (s.tree ses.store a).mass F ≤ size →
    (s.tree ses.store b).depth < depth →
    Provides True (Solving [] ses.store s) ses (m a b s) (ways F s ses.store [(a, b)])

/-! ## Pairs in a given order -/

theorem foldl_modulo_gives (hg : GoalGives F size) {done rest : List (TermId × TermId)}
    (h : ∀ p ∈ rest, Facing F ses s p.1 p.2)
    (below : ∀ p ∈ rest, (s.tree ses.store p.1).mass F < size) {inner : Search}
    (hi : Gives True (Solving [] ses.store s) ses inner (ways F s ses.store done)) :
    Gives True (Solving [] ses.store s) ses
      ((rest.map fun p => Goal.modulo p.1 p.2).foldl bind inner)
      (ways F s ses.store (done ++ rest)) := by
  induction rest generalizing done inner with
  | nil => rwa [List.append_nil]
  | cons p rest ih =>
    rw [List.forall_mem_cons] at h below
    rw [List.append_cons]
    refine ih h.2 below.2 ?_
    rw [ways_append]
    refine hi.bind_after (e := []) fun σ _ ses' s' l solved => ?_
    have met := h.1.after l.grows solved
    have trees := readPairs_after (List.forall_mem_singleton.mpr h.1) solved
    have gives := hg met (by rw [solved.tree_of_ground h.1.sound h.1.left h.1.ground]; exact below.1)
    rwa [ways, trees] at gives

/-- Several pairs are matched as goals. A single one is matched at once, so that its pattern has to be
    below the depth as well. -/
theorem matchPairs_gives (hm : MatcherGives F size depth m) (hg : GoalGives F size)
    (hs : s.Sound ses.store) (free : s.constraints = []) {pairs : List (TermId × TermId)}
    (h : ∀ p ∈ pairs, Facing F ses s p.1 p.2)
    (le : ∀ p ∈ pairs, (s.tree ses.store p.1).mass F ≤ size)
    (several : 2 ≤ pairs.length → ∀ p ∈ pairs, (s.tree ses.store p.1).mass F < size)
    (single : ∀ p, pairs = [p] → (s.tree ses.store p.2).depth < depth) :
    Provides True (Solving [] ses.store s) ses (matchPairs m s pairs) (ways F s ses.store pairs) := by
  match pairs with
  | [] =>
    intro ses' l _
    refine ⟨.refl ses', fun _ => ?_⟩
    have only : ways F s ses.store [] = {Tree.var} := by
      ext θ
      constructor
      · rintro ⟨⟩
        rfl
      · rintro rfl
        exact Matches.nil
    rw [only]
    exact .unit fun ses'' l' => .of_grows hs free (l.trans l').grows.store
  | [(a, b)] =>
    have mem := List.mem_singleton_self (a, b)
    exact hm (h (a, b) mem) (le (a, b) mem) (single (a, b) rfl)
  | (a, b) :: p :: rest =>
    intro ses' l _
    refine ⟨.refl ses', fun _ => .later ?_ l⟩
    have below := several (by simp)
    rw [List.forall_mem_cons] at h below
    have first : Gives True (Solving [] ses.store s) ses (.apply (.modulo a b) s)
        (ways F s ses.store [(a, b)]) := hg h.1 below.1
    exact foldl_modulo_gives hg h.2 below.2 first

/-! ## Pairs in any order -/

/-- Operands of a ground tree and of a pattern, each of which can meet each. -/
structure Across (F : Facts) (size : Nat) (ses : Session) (s : Subst) (xs ys : List TermId) :
    Prop where
  sound : s.Sound ses.store
  free : s.constraints = []
  facing : ∀ x ∈ xs, ∀ y ∈ ys, Facing F ses s x y
  below : ∀ x ∈ xs, (s.tree ses.store x).mass F < size

/-- Pairs of an order of the operands. -/
theorem Across.pairs_gives {xs ys : List TermId} (h : Across F size ses s xs ys)
    (hm : MatcherGives F size depth m) (hg : GoalGives F size)
    (single : ∀ y, ys = [y] → (s.tree ses.store y).depth < depth) {zs : List TermId}
    (perm : zs.Perm xs) (length : xs.length = ys.length) :
    Provides True (Solving [] ses.store s) ses (matchPairs m s (zs.zip ys))
      (ways F s ses.store (zs.zip ys)) := by
  have left : ∀ p ∈ zs.zip ys, p.1 ∈ xs := fun p hp =>
    perm.mem_iff.mp (List.of_mem_zip hp).1
  refine matchPairs_gives hm hg h.sound h.free
    (fun p hp => h.facing p.1 (left p hp) p.2 (List.of_mem_zip hp).2)
    (fun p hp => Nat.le_of_lt (h.below p.1 (left p hp)))
    (fun _ p hp => h.below p.1 (left p hp)) fun p hp => single p.2 ?_
  rw [← List.map_snd_zip (Nat.le_of_eq (length.symm.trans perm.length_eq.symm)), hp]
  rfl

/-- One of the last orders of some operands has a property. -/
def SomeOrder {α : Type} (xs : List α) (left : Nat) (P : List α → Prop) : Prop :=
  ∃ rank, factorial xs.length - left ≤ rank ∧ rank < factorial xs.length ∧
    P ((arrangement xs.length rank (List.range xs.length)).filterMap (xs[·]?))

section

variable {α : Type} {xs : List α} {P : List α → Prop}

theorem not_someOrder_zero : ¬ SomeOrder xs 0 P := by
  rintro ⟨rank, behind, lt, -⟩
  omega

theorem someOrder_succ {left : Nat} (le : left + 1 ≤ factorial xs.length) :
    SomeOrder xs (left + 1) P ↔ P ((arrangement xs.length (factorial xs.length - (left + 1))
      (List.range xs.length)).filterMap (xs[·]?)) ∨ SomeOrder xs left P := by
  constructor
  · rintro ⟨rank, behind, lt, here⟩
    by_cases turn : rank = factorial xs.length - (left + 1)
    · exact .inl (turn ▸ here)
    · exact .inr ⟨rank, by omega, lt, here⟩
  · rintro (here | ⟨rank, behind, lt, here⟩)
    · exact ⟨_, Nat.le_refl _, by omega, here⟩
    · exact ⟨rank, by omega, lt, here⟩

/-- All orders are among them. -/
theorem someOrder_all : SomeOrder xs (factorial xs.length) P ↔ ∃ zs, zs.Perm xs ∧ P zs := by
  constructor
  · rintro ⟨rank, -, lt, here⟩
    exact ⟨_, filterMap_perm (arrangement_perm (List.length_range ..) lt), here⟩
  · rintro ⟨zs, perm, here⟩
    obtain ⟨order, ordered, rfl⟩ := exists_order perm
    obtain ⟨rank, lt, rfl⟩ := exists_arrangement (List.length_range ..) ordered
    exact ⟨rank, by omega, lt, here⟩

/-- An order of what is made of operands is made of an order of the operands. -/
theorem exists_perm_map {β : Type} {f : α → β} {zs : List β} :
    zs.Perm (xs.map f) ↔ ∃ ws : List α, ws.Perm xs ∧ zs = ws.map f := by
  constructor
  · intro perm
    obtain ⟨order, ordered, rfl⟩ := exists_order perm
    rw [List.length_map] at ordered
    exact ⟨_, filterMap_perm ordered, (filterMap_map f xs order).symm⟩
  · rintro ⟨ws, perm, rfl⟩
    exact perm.map f

end

/-- The ways to match in one of the last orders. -/
def orderWays (F : Facts) (s : Subst) (st : Store) (xs ys : List TermId) (left : Nat) :
    Set (UInt32 → Tree) := {θ | SomeOrder xs left fun zs => θ ∈ ways F s st (zs.zip ys)}

theorem orderWays_zero {xs ys : List TermId} : orderWays F s st xs ys 0 = ∅ :=
  Set.eq_empty_of_forall_notMem fun θ => not_someOrder_zero (P := fun zs => θ ∈ ways F s st (zs.zip ys))

theorem orderWays_succ {xs ys : List TermId} {left : Nat} (le : left + 1 ≤ factorial xs.length) :
    orderWays F s st xs ys (left + 1) = ways F s st
      (((arrangement xs.length (factorial xs.length - (left + 1)) (List.range xs.length)).filterMap
        (xs[·]?)).zip ys) ∪ orderWays F s st xs ys left :=
  Set.ext fun θ => someOrder_succ (P := fun zs => θ ∈ ways F s st (zs.zip ys)) le

theorem permuted_gives_left {xs ys : List TermId} (h : Across F size ses s xs ys)
    (hm : MatcherGives F size depth m) (hg : GoalGives F size)
    (single : ∀ y, ys = [y] → (s.tree ses.store y).depth < depth) (length : xs.length = ys.length)
    {left : Nat} (le : left ≤ factorial xs.length) :
    Gives True (Solving [] ses.store s) ses (permuted m ⟨xs.length, left⟩ xs ys s)
      (orderWays F s ses.store xs ys left) := by
  induction left with
  | zero =>
    rw [permuted]
    simp only [Orders.next?]
    exact orderWays_zero (F := F) ▸ .empty
  | succ left ih =>
    have perm : (arrangement xs.length (factorial xs.length - (left + 1))
        (List.range xs.length)).Perm (List.range xs.length) :=
      arrangement_perm (List.length_range ..) (by omega)
    rw [permuted, orderWays_succ le]
    simp only [Orders.next?]
    refine .suspend fun ses' l tidy => ?_
    obtain ⟨goes, here⟩ := h.pairs_gives hm hg single (filterMap_perm perm) length ses' l tidy
    refine ⟨goes, fun room => (here room).plus (.suspend fun ses'' l' _ => ⟨.refl ses'', fun _ => ?_⟩)⟩
    exact (ih (by omega)).later ((l.trans goes.later).trans l')

/-- All orders are tried. -/
theorem permuted_gives {xs ys : List TermId} (h : Across F size ses s xs ys)
    (hm : MatcherGives F size depth m) (hg : GoalGives F size)
    (single : ∀ y, ys = [y] → (s.tree ses.store y).depth < depth) (length : xs.length = ys.length) :
    Gives True (Solving [] ses.store s) ses (permuted m (.all xs.length) xs ys s)
      {θ | ∃ zs : List Tree, zs.Perm (xs.map (s.tree ses.store)) ∧
        Matches F (zs.zip (ys.map (s.tree ses.store))) θ} := by
  refine (permuted_gives_left h hm hg single length (Nat.le_refl _)).congr (Set.ext fun θ => ?_)
  have read : ∀ zs : List TermId, readPairs s ses.store (zs.zip ys) =
      (zs.map (s.tree ses.store)).zip (ys.map (s.tree ses.store)) := by
    intro zs
    rw [List.zip_map]
    rfl
  refine (someOrder_all (P := fun zs => θ ∈ ways F s ses.store (zs.zip ys))).trans ⟨?_, ?_⟩
  · rintro ⟨zs, perm, matched⟩
    exact ⟨_, perm.map _, read zs ▸ matched⟩
  · rintro ⟨_, ordered, matched⟩
    obtain ⟨zs, perm, rfl⟩ := exists_perm_map.mp ordered
    refine ⟨zs, perm, ?_⟩
    rw [ways, Set.mem_ofPred_eq, read]
    exact matched

end Search

/-! ## Chains of different length -/

namespace Groupings

variable {g g' : Groupings} {assignment : List Nat}

/-- The way behind which a number of ways are left. -/
def way (g : Groupings) (code : Nat) : List Nat :=
  digits g.absorbs.length g.operands (g.absorbs.length.pow g.operands - (code + 1))

theorem not_admissible_of_next?_eq_none (h : g.next? = none) {code : Nat} (lt : code < g.left) :
    ¬ admissible g.absorbs (g.way code) = true := by
  intro ok
  obtain ⟨assignment, left, found, -⟩ := search_complete lt ok
  rw [next?, found] at h
  cases h

/-- The next way is the one behind which those are left, and no admissible way is passed over. -/
theorem next?_way (h : g.next? = some (assignment, g')) : ∃ left < g.left,
    g' = { g with left } ∧ assignment = g.way left ∧ admissible g.absorbs (g.way left) = true ∧
      ∀ code < g.left, admissible g.absorbs (g.way code) = true → code ≤ left := by
  have lt := left_lt_of_next? h
  unfold next? at h
  split at h
  · cases h
  · rename_i left found
    cases h
    obtain ⟨ok, eq⟩ := search_sound found
    refine ⟨left, lt, rfl, eq, by rwa [eq] at ok, fun code lt ok => ?_⟩
    obtain ⟨other, left', found', le⟩ := search_complete lt ok
    cases found.symm.trans found'
    exact le

end Groupings

namespace Search

open Session (Goes)
open Regraft.Tree (Matches Lineup Strand fill andThen only)

variable {F : Facts} {size depth : Nat} {ses ses' : Session} {s : Subst} {op : String} {m : Matcher}
  {args : List Tree} {attrs : Attrs} {short : List TermId} {long : Chain} {assignment : List Nat}

/-- The chain of a ground tree, and the operands of a pattern that are fewer. -/
structure Handing (F : Facts) (size depth : Nat) (op : String) (args : List Tree) (attrs : Attrs)
    (ses : Session) (s : Subst) (short : List TermId) (long : Chain) : Prop where
  facts : ses.facts = F
  sound : s.Sound ses.store
  free : s.constraints = []
  chain : F.isChain op = true
  ground : (Tree.app op args attrs).Ground
  le : (Tree.app op args attrs).mass F ≤ size
  stored : ∀ u ∈ short, ses.store.Stored u
  lower : ∀ u ∈ short, (s.tree ses.store u).depth < depth
  reads : Chain.Reads op s ses.store (fun _ => True) (Tree.operands F op args) long
  shows : long.Shows s ses.store (Strand.of op (.app op args attrs))

theorem Handing.grows (h : Handing F size depth op args attrs ses s short long)
    (g : ses.Grows ses') : Handing F size depth op args attrs ses' s short long where
  facts := g.facts.trans h.facts
  sound := h.sound.grows g.store
  free := h.free
  chain := h.chain
  ground := h.ground
  le := h.le
  stored u hu := g.store.stored (h.stored u hu)
  lower u hu := by
    rw [h.sound.tree_grows g.store (h.stored u hu)]
    exact h.lower u hu
  reads := h.reads.grows h.sound g.store
  shows := h.shows.grows h.sound g.store

theorem Handing.items_eq (h : Handing F size depth op args attrs ses s short long) :
    Tree.operands F op args = (Tree.app op args attrs).items op := by
  rw [Tree.operands, if_pos h.chain, Tree.items_app_self]

/-- The ways to match the operands of a pattern with the groups that an assignment makes. -/
def handWays (F : Facts) (op : String) (whole : Tree) (patterns : List Tree)
    (assignment : List Nat) : Set (UInt32 → Tree) :=
  {θ | ∃ ts : List Tree, List.Forall₂ (fun slot t =>
      (Strand.of op whole).group op (members assignment slot) = some t)
        (List.range patterns.length) ts ∧ Matches F (ts.zip patterns) θ}

/-- What is made for the members of a list is made in one way. -/
theorem exists_forall₂_some_iff {α β : Type} {make : α → Option β} {xs : List α} {ts : List β}
    {P : List β → Prop} (made : List.Forall₂ (fun x t => make x = some t) xs ts) :
    (∃ us, List.Forall₂ (fun x t => make x = some t) xs us ∧ P us) ↔ P ts := by
  constructor
  · rintro ⟨us, others, here⟩
    have unique : us = ts := List.right_unique_forall₂'
      (fun _ _ _ h h' => Option.some.inj (h.symm.trans h')) others made
    rwa [unique] at here
  · exact fun here => ⟨ts, made, here⟩

/-- Groups of the chain of a tree are made, and no variables. -/
theorem exists_groups {t : Tree} {trees : List Tree} {n : Nat} (hs : s.Sound ses.store)
    (reads : Chain.Reads op s ses.store (fun _ => True) trees long)
    (shows : long.Shows s ses.store (Strand.of op t)) (single : ∀ x ∈ trees, ¬ x.IsApp op)
    (length : assignment.length = long.items.length)
    (given : ∀ slot < n, members assignment slot ≠ []) :
    ∃ ts ses', Session.onStore (groups op long assignment (List.range n)) ses = (some ts, ses') ∧
      ses.Keeps ses' ∧ List.Forall₂ (fun slot u => ses'.store.Stored u ∧
        (s.tree ses'.store u).items op = (members assignment slot).filterMap (trees[·]?) ∧
          (Strand.of op t).group op (members assignment slot) = some (s.tree ses'.store u))
        (List.range n) ts := by
  obtain ⟨ts, st', eq, grows, made⟩ := groups_made hs trivial reads (fun x _ => Tree.over_any x) single
    length fun slot hslot => given slot (List.mem_range.mp hslot)
  have same := groups_sameVars op long assignment (List.range n) ses.store
  rw [eq] at same
  have shown := (groups_show hs shows eq).2
  refine ⟨ts, { ses with store := st' }, by rw [Session.onStore_apply, eq], ⟨⟨rfl, grows⟩, same⟩, ?_⟩
  rw [List.forall₂_iff_get] at made shown ⊢
  refine ⟨made.1, fun i hi hi' => ?_⟩
  obtain ⟨stored, -, items⟩ := made.2 i hi hi'
  exact ⟨stored, items, (shown.2 i hi hi').2⟩

/-- The groups of an admissible assignment are made, and matched with the operands of the pattern. -/
theorem Handing.groups_gives (h : Handing F size depth op args attrs ses s short long)
    (hm : MatcherGives F size depth m) (hg : GoalGives F size)
    (length : assignment.length = long.items.length) (bound : ∀ d ∈ assignment, d < short.length)
    (given : ∀ slot < short.length, members assignment slot ≠ []) :
    ∃ ts ses', Session.onStore (groups op long assignment (List.range short.length)) ses =
        (some ts, ses') ∧ ses.Keeps ses' ∧
      Goes True ses' (matchPairs m s (ts.zip short) ses').2 ∧
      Gives True (Solving [] ses.store s)
        (matchPairs m s (ts.zip short) ses').2 (matchPairs m s (ts.zip short) ses').1
        (handWays F op (.app op args attrs) (short.map (s.tree ses.store)) assignment) := by
  have single : ∀ x ∈ Tree.operands F op args, ¬ x.IsApp op := by
    intro x hx
    rw [h.items_eq] at hx
    exact Tree.not_isApp_of_mem_items hx
  obtain ⟨ts, ses', eq, keeps, made⟩ := exists_groups h.sound h.reads h.shows single length given
  have h' := h.grows keeps.grows
  have count : long.items.length = (Tree.operands F op args).length := by
    rw [← h.reads.items_eq, List.length_map]
  have items : List.Forall₂ (fun slot g => Tree.items op g =
      (members assignment slot).filterMap ((Tree.operands F op args)[·]?)) (List.range short.length)
      (ts.map (s.tree ses'.store)) := List.forall₂_map_right_iff.mpr (made.imp fun _ _ h => h.2.1)
  have light : ∀ g ∈ ts.map (s.tree ses'.store), g.mass F ≤ (Tree.app op args attrs).mass F ∧
      (2 ≤ (ts.map (s.tree ses'.store)).length → g.mass F < (Tree.app op args attrs).mass F) :=
    Tree.mass_groups h.chain rfl (length.trans count) bound given items
  have facing : ∀ p ∈ ts.zip short, Facing F ses' s p.1 p.2 := by
    intro p hp
    obtain ⟨slot, -, stored, eq, -⟩ := exists_of_forall₂_right made (List.of_mem_zip hp).1
    refine ⟨h'.facts, h'.sound, h'.free, stored, h'.stored _ (List.of_mem_zip hp).2, ?_⟩
    refine h.ground.of_items fun w (hw : w ∈ Tree.items op _) => ?_
    rw [eq] at hw
    obtain ⟨i, -, hi⟩ := List.mem_filterMap.mp hw
    rw [← h.items_eq]
    exact List.mem_of_getElem? hi
  have mass := fun p (hp : p ∈ ts.zip short) =>
    light _ (List.mem_map_of_mem (f := s.tree ses'.store) (List.of_mem_zip hp).1)
  have several : 2 ≤ (ts.zip short).length → 2 ≤ (ts.map (s.tree ses'.store)).length := by
    rw [List.length_zip, List.length_map]
    omega
  have lower : ∀ p, ts.zip short = [p] → (s.tree ses'.store p.2).depth < depth := by
    intro p hp
    have mem : p ∈ ts.zip short := hp ▸ List.mem_singleton_self p
    exact h'.lower p.2 (List.of_mem_zip mem).2
  obtain ⟨goes, gives⟩ := matchPairs_gives hm hg h'.sound h'.free facing
    (fun p hp => Nat.le_trans (mass p hp).1 h.le)
    (fun two p hp => Nat.lt_of_lt_of_le ((mass p hp).2 (several two)) h.le) lower
    _ (.refl _) (Store.tidyUnless_true _)
  refine ⟨ts, ses', eq, keeps, goes, ?_⟩
  refine ((gives (Store.roomyUnless_true _)).back h.sound h.free keeps.grows.store).congr (Set.ext fun θ => ?_)
  have patterns : short.map (s.tree ses'.store) = short.map (s.tree ses.store) :=
    List.map_congr_left fun u hu => h.sound.tree_grows keeps.grows.store (h.stored u hu)
  have read : readPairs s ses'.store (ts.zip short) =
      (ts.map (s.tree ses'.store)).zip (short.map (s.tree ses.store)) := by
    rw [← patterns, List.zip_map]
    rfl
  have trees : List.Forall₂ (fun slot t => (Strand.of op (.app op args attrs)).group op
      (members assignment slot) = some t) (List.range short.length) (ts.map (s.tree ses'.store)) :=
    List.forall₂_map_right_iff.mpr (made.imp fun _ _ h => h.2.2)
  rw [ways, Set.mem_ofPred_eq, read, handWays, Set.mem_ofPred_eq, List.length_map]
  exact (exists_forall₂_some_iff (P := fun us => Matches F (us.zip _) θ) trees).symm

/-- One of the groupings that are left has a property. -/
def SomeGrouping (g : Groupings) (P : List Nat → Prop) : Prop :=
  ∃ code < g.left, admissible g.absorbs (g.way code) = true ∧ P (g.way code)

section

variable {g g' : Groupings} {P : List Nat → Prop}

theorem not_someGrouping (h : g.next? = none) : ¬ SomeGrouping g P := by
  rintro ⟨code, behind, ok, -⟩
  exact Groupings.not_admissible_of_next?_eq_none h behind ok

theorem someGrouping_of_next? (h : g.next? = some (assignment, g')) :
    SomeGrouping g P ↔ P assignment ∨ SomeGrouping g' P := by
  obtain ⟨left, lt, rfl, rfl, ok, last⟩ := Groupings.next?_way h
  constructor
  · rintro ⟨code, behind, ok', here⟩
    rcases Nat.lt_or_eq_of_le (last code behind ok') with before | rfl
    · exact .inr ⟨code, before, ok', here⟩
    · exact .inl here
  · rintro (here | ⟨code, behind, ok', here⟩)
    · exact ⟨left, lt, ok, here⟩
    · exact ⟨code, Nat.lt_trans behind lt, ok', here⟩

/-- All groupings are among them. -/
theorem someGrouping_all {n : Nat} {absorbs : List Bool} (some : absorbs.contains true = true) :
    SomeGrouping (.all n absorbs) P ↔ ∃ assignment : List Nat, assignment.length = n ∧
      (∀ d ∈ assignment, d < absorbs.length) ∧ admissible absorbs assignment = true ∧
        P assignment := by
  generalize hall : Groupings.all n absorbs = all
  have filled : absorbs.isEmpty = false := by
    cases absorbs with
    | nil => cases some
    | cons _ _ => rfl
  have pos : 0 < absorbs.length :=
    List.length_pos_of_ne_nil fun none => by rw [none] at filled; cases filled
  have slots : all.absorbs = absorbs := hall ▸ rfl
  have operands : all.operands = n := hall ▸ rfl
  have left : all.left = absorbs.length.pow n := by
    rw [← hall]
    show (if _ then 0 else _) = _
    rw [filled]
    rfl
  constructor
  · rintro ⟨code, -, ok, here⟩
    rw [slots] at ok
    refine ⟨_, ?_, fun d hd => ?_, ok, here⟩
    · rw [Groupings.way, length_digits, operands]
    · rw [← slots]
      exact lt_of_mem_digits (slots ▸ pos) hd
  · rintro ⟨assignment, length, bound, ok, here⟩
    obtain ⟨code, lt, eq⟩ := exists_digits bound
    rw [length] at lt eq
    have turn : all.way (all.left - 1 - code) = assignment := by
      unfold Groupings.way
      rw [left, slots, operands, show absorbs.length.pow n - (absorbs.length.pow n - 1 - code + 1) =
        code by omega]
      exact eq
    exact ⟨all.left - 1 - code, by omega, by rwa [turn, slots], by rwa [turn]⟩

end

/-- The ways to match in one of the groupings that are left. -/
def groupWays (F : Facts) (op : String) (whole : Tree) (patterns : List Tree) (g : Groupings) :
    Set (UInt32 → Tree) :=
  {θ | SomeGrouping g fun assignment => θ ∈ handWays F op whole patterns assignment}

theorem groupWays_of_none {whole : Tree} {patterns : List Tree} {g : Groupings} (h : g.next? = none) :
    groupWays F op whole patterns g = ∅ :=
  Set.eq_empty_of_forall_notMem fun θ =>
    not_someGrouping (P := fun assignment => θ ∈ handWays F op whole patterns assignment) h

theorem groupWays_of_next? {whole : Tree} {patterns : List Tree} {g g' : Groupings}
    (h : g.next? = some (assignment, g')) : groupWays F op whole patterns g =
      handWays F op whole patterns assignment ∪ groupWays F op whole patterns g' :=
  Set.ext fun θ =>
    someGrouping_of_next? (P := fun assignment => θ ∈ handWays F op whole patterns assignment) h

/-- All ways to hand out the chain of a ground tree are tried. -/
theorem Handing.grouped_gives (h : Handing F size depth op args attrs ses s short long)
    (hm : MatcherGives F size depth m) (hg : GoalGives F size) {groupings : Groupings}
    (slots : groupings.absorbs.length = short.length) (pos : 0 < short.length)
    (operands : groupings.operands = long.items.length) :
    Gives True (Solving [] ses.store s) ses (grouped m op short long false groupings s)
      (groupWays F op (.app op args attrs) (short.map (s.tree ses.store)) groupings) := by
  generalize hk : groupings.left = k
  induction k using Nat.strongRecOn generalizing groupings with
  | ind k ih =>
    rw [grouped]
    split
    · rename_i none
      exact groupWays_of_none none ▸ .empty
    · rename_i assignment later next
      obtain ⟨length, bound, ok, slots', operands', lt⟩ := Groupings.next?_spec (by omega) next
      have given : ∀ slot < short.length, members assignment slot ≠ [] :=
        fun slot hslot => members_ne_nil ok (by omega)
      rw [groupWays_of_next? next]
      refine .suspend fun ses' l _ => ?_
      have h' := h.grows l.grows
      obtain ⟨ts, ses₁, eq, keeps, goes, here⟩ := h'.groups_gives hm hg (length.trans operands)
        (fun d hd => slots ▸ bound d hd) given
      have patterns : short.map (s.tree ses'.store) = short.map (s.tree ses.store) :=
        List.map_congr_left fun u hu => h.sound.tree_grows l.grows.store (h.stored u hu)
      have goes' : Goes True ses' (matchPairs m s (ts.zip short) ses₁).2 := keeps.goes.trans goes
      rw [eq]
      simp only [Bool.false_eq_true, if_false]
      refine ⟨goes', fun _ => .plus ?_ (.suspend fun ses₂ l' _ => ⟨.refl ses₂, fun _ => ?_⟩)⟩
      · rw [← patterns]
        exact here.back h.sound h.free l.grows.store
      · exact (ih _ (hk ▸ lt) (slots'.symm ▸ slots) (operands'.trans operands) rfl).later
          ((l.trans goes'.later).trans l')

/-! ## The matcher -/

section

variable {xs ys : List Tree} {a b : Attrs} {P : List (Tree × Tree) → Prop}

/-- With equally many operands, a commutative operator pairs them up in any order. -/
theorem exists_lineup_of_commutative (comm : F.isCommutative op = true)
    (length : (Tree.operands F op xs).length = (Tree.operands F op ys).length) :
    (∃ pairs, Lineup F (.app op xs a) (.app op ys b) pairs ∧ P pairs) ↔
      ∃ zs : List Tree, zs.Perm (Tree.operands F op xs) ∧ P (zs.zip (Tree.operands F op ys)) := by
  constructor
  · rintro ⟨_, ⟨-, arranged⟩ | ⟨-, longer⟩, here⟩
    · exact ⟨_, arranged.perm.symm, here⟩
    · omega
  · rintro ⟨zs, perm, here⟩
    exact ⟨_, .pair length (.inr ⟨comm, perm.symm⟩), here⟩

theorem exists_lineup_of_ordered (comm : ¬ F.isCommutative op = true)
    (length : (Tree.operands F op xs).length = (Tree.operands F op ys).length) :
    (∃ pairs, Lineup F (.app op xs a) (.app op ys b) pairs ∧ P pairs) ↔
      P ((Tree.operands F op xs).zip (Tree.operands F op ys)) := by
  constructor
  · rintro ⟨_, ⟨-, rfl | ⟨comm', -⟩⟩ | ⟨-, longer⟩, here⟩
    · exact here
    · exact absurd comm' comm
    · omega
  · exact fun here => ⟨_, .pair length (.inl rfl), here⟩

/-- A longer chain is handed out in groups. -/
theorem exists_lineup_of_longer (chain : F.isChain op = true)
    (longer : (Tree.operands F op ys).length < (Tree.operands F op xs).length)
    (absorbs : ((Tree.operands F op ys).map Tree.isVar).contains true = true) :
    (∃ pairs, Lineup F (.app op xs a) (.app op ys b) pairs ∧ P pairs) ↔
      SomeGrouping (.all (Tree.operands F op xs).length ((Tree.operands F op ys).map Tree.isVar))
        fun assignment => ∃ ts : List Tree, List.Forall₂ (fun slot t =>
          (Strand.of op (.app op xs a)).group op (members assignment slot) = some t)
            (List.range (Tree.operands F op ys).length) ts ∧
              P (ts.zip (Tree.operands F op ys)) := by
  rw [someGrouping_all absorbs, List.length_map]
  constructor
  · rintro ⟨_, lineup, here⟩
    cases lineup with
    | pair length => omega
    | group _ _ _ length bound ok made => exact ⟨_, length, bound, ok, _, made, here⟩
  · rintro ⟨assignment, length, bound, ok, ts, made, here⟩
    exact ⟨_, .group chain longer absorbs length bound ok made, here⟩

/-- Different numbers of operands are not paired up unless a variable takes several. -/
theorem not_lineup {pairs : List (Tree × Tree)}
    (length : (Tree.operands F op xs).length ≠ (Tree.operands F op ys).length)
    (none : F.isChain op = true → (Tree.operands F op ys).length < (Tree.operands F op xs).length →
      ((Tree.operands F op ys).map Tree.isVar).contains true = false) :
    ¬ Lineup F (.app op xs a) (.app op ys b) pairs := by
  rintro (⟨length'⟩ | ⟨chain, longer, absorbs⟩)
  · exact length length'
  · rw [none chain longer] at absorbs
    cases absorbs

end

/-- How the operands of two applications are paired up. -/
def lineupWays (F : Facts) (t u : Tree) : Set (UInt32 → Tree) :=
  {θ | ∃ pairs, Lineup F t u pairs ∧ Matches F pairs θ}

section

variable {xs ys : List Tree} {a b : Attrs}

theorem lineupWays_of_commutative (comm : F.isCommutative op = true)
    (length : (Tree.operands F op xs).length = (Tree.operands F op ys).length) :
    lineupWays F (.app op xs a) (.app op ys b) =
      {θ | ∃ zs : List Tree, zs.Perm (Tree.operands F op xs) ∧
        Matches F (zs.zip (Tree.operands F op ys)) θ} :=
  Set.ext fun _ => exists_lineup_of_commutative comm length

theorem lineupWays_of_ordered (comm : ¬ F.isCommutative op = true)
    (length : (Tree.operands F op xs).length = (Tree.operands F op ys).length) :
    lineupWays F (.app op xs a) (.app op ys b) =
      {θ | Matches F ((Tree.operands F op xs).zip (Tree.operands F op ys)) θ} :=
  Set.ext fun _ => exists_lineup_of_ordered comm length

theorem lineupWays_of_longer (chain : F.isChain op = true)
    (longer : (Tree.operands F op ys).length < (Tree.operands F op xs).length)
    (absorbs : ((Tree.operands F op ys).map Tree.isVar).contains true = true) :
    lineupWays F (.app op xs a) (.app op ys b) =
      groupWays F op (.app op xs a) (Tree.operands F op ys)
        (.all (Tree.operands F op xs).length ((Tree.operands F op ys).map Tree.isVar)) :=
  Set.ext fun _ => exists_lineup_of_longer chain longer absorbs

theorem lineupWays_eq_empty (length : (Tree.operands F op xs).length ≠ (Tree.operands F op ys).length)
    (none : F.isChain op = true → (Tree.operands F op ys).length < (Tree.operands F op xs).length →
      ((Tree.operands F op ys).map Tree.isVar).contains true = false) :
    lineupWays F (.app op xs a) (.app op ys b) = ∅ :=
  Set.eq_empty_of_forall_notMem fun _ ⟨_, lineup, _⟩ => not_lineup length none lineup

end

/-- An operand of a pattern that absorbs is a variable. -/
theorem isVar_tree (hs : s.Sound ses.store) {u : TermId} (hu : ses.store.Stored u) :
    (ses.store.var? (s.deref ses.store u)).isSome = (s.tree ses.store u).isVar := by
  obtain ⟨x, hx⟩ := Store.term?_of_stored (hs.stored_deref hu)
  cases x with
  | var v =>
    rw [Store.var?_eq_some_iff.mpr hx, hs.tree_of_var hx]
    rfl
  | leaf l =>
    rw [Store.var?, hx, hs.tree_of_leaf hx]
    rfl
  | app f args attrs =>
    rw [Store.var?, hx, hs.tree_of_app hx]
    rfl

theorem map_isVar (hs : s.Sound ses.store) {us : List TermId} (stored : ∀ u ∈ us, ses.store.Stored u) :
    us.map (fun u => (ses.store.var? (s.deref ses.store u)).isSome) =
      (us.map (s.tree ses.store)).map Tree.isVar := by
  rw [List.map_map]
  exact List.map_congr_left fun u hu => isVar_tree hs (stored u hu)

variable {a b : TermId} {xs ys : List TermId} {attrs' : Attrs}

/-- The operands of a ground application, each beside some terms of a pattern. -/
theorem Facing.across (h : Facing F ses s a b) (left : s.tree ses.store a = .app op args attrs)
    (le : (s.tree ses.store a).mass F ≤ size) (storedX : ∀ x ∈ xs, ses.store.Stored x)
    (storedY : ∀ y ∈ ys, ses.store.Stored y)
    (read : xs.map (s.tree ses.store) = Tree.operands F op args) : Across F size ses s xs ys where
  sound := h.sound
  free := h.free
  facing x hx y hy := by
    refine h.part (storedX x hx) (storedY y hy) fun v hv => h.ground v ?_
    rw [left, Tree.Alike.hasVar_operands (F := F), ← read]
    exact ⟨_, List.mem_map_of_mem hx, hv⟩
  below x hx := by
    refine Nat.lt_of_lt_of_le ?_ le
    rw [left]
    exact Tree.mass_lt_of_mem (read ▸ List.mem_map_of_mem hx)

/-- The chain of a term, with nothing said of the labels. -/
theorem flatten_operands (hs : s.Sound ses.store) (ha : ses.store.Stored a)
    (chain : F.isChain op = true) (tree : s.tree ses.store a = .app op args attrs) :
    Chain.Reads op s ses.store (fun _ => True) (Tree.operands F op args)
      (Chain.flatten op s ses.store a) := by
  rw [Tree.operands, if_pos chain, ← Tree.items_app_self op args attrs, ← tree]
  exact Chain.flatten_reads hs ha (Tree.over_any _)

theorem mismatch_gives {t u : Tree} (none : lineupWays F t u = ∅) :
    Goes True ses (mismatch ses).2 ∧ Gives True (Solving [] ses.store s) (mismatch ses).2
      (mismatch ses).1 (lineupWays F t u) :=
  ⟨(Session.count_keeps _ ses).goes, none ▸ .empty⟩

theorem regroup_gives (hm : MatcherGives F size depth m) (hg : GoalGives F size)
    (h : Facing F ses s a b) (left : s.tree ses.store a = .app op args attrs) {us : List Tree}
    (right : s.tree ses.store b = .app op us attrs') (chain : F.isChain op = true)
    (le : (s.tree ses.store a).mass F ≤ size) (lt : (s.tree ses.store b).depth < depth + 1)
    (length : (Chain.flatten op s ses.store a).items.length ≠
      (Chain.flatten op s ses.store b).items.length) :
    let r := regroup m op (Chain.flatten op s ses.store a) (Chain.flatten op s ses.store b) s ses
    Goes True ses r.2 ∧ Gives True (Solving [] ses.store s) r.2 r.1
      (lineupWays F (.app op args attrs) (.app op us attrs')) := by
  have x := flatten_operands h.sound h.left chain left
  have y := flatten_operands h.sound h.right chain right
  have shows : Chain.Shows s ses.store (Chain.flatten op s ses.store a) _ :=
    Chain.flatten_shows h.sound h.left
  rw [left] at shows
  generalize Chain.flatten op s ses.store a = long at x shows length ⊢
  generalize Chain.flatten op s ses.store b = short at y length ⊢
  have countX : long.items.length = (Tree.operands F op args).length := by
    rw [← x.items_eq, List.length_map]
  have countY : short.items.length = (Tree.operands F op us).length := by
    rw [← y.items_eq, List.length_map]
  unfold regroup
  by_cases shorter : long.items.length < short.items.length
  · -- A ground chain has no variable that could take several operands.
    have none : (long.items.map fun u =>
        (ses.store.var? (s.deref ses.store u)).isSome).contains true = false := by
      rw [map_isVar h.sound x.stored, x.items_eq, ← Bool.not_eq_true, List.contains_iff_mem]
      intro mem
      obtain ⟨t, ht, var⟩ := List.mem_map.mp mem
      cases t with
      | var v =>
        refine h.ground v ?_
        rw [left, Tree.Alike.hasVar_operands (F := F)]
        exact ⟨_, ht, .var⟩
      | _ => cases var
    simp only [shorter, decide_true, if_true, none]
    exact mismatch_gives (lineupWays_eq_empty (by omega) fun _ longer => by omega)
  · simp only [shorter, decide_false, if_false, map_isVar h.sound y.stored, y.items_eq]
    split
    · rename_i absorbs
      refine ⟨.refl ses, ?_⟩
      rw [lineupWays_of_longer chain (by omega) absorbs, ← countX, ← y.items_eq]
      have handing : Handing F size depth op args attrs ses s short.items long := by
        refine ⟨h.facts, h.sound, h.free, chain, left ▸ h.ground, left ▸ le, y.stored, fun u hu => ?_,
          x, shows⟩
        have mem : s.tree ses.store u ∈ Tree.operands F op us :=
          y.items_eq ▸ List.mem_map_of_mem hu
        have : _ < (Tree.app op us attrs').depth := Tree.depth_lt_of_mem_operands mem
        rw [← right] at this
        omega
      refine handing.grouped_gives hm hg ?_ ?_ rfl
      · show (List.map _ _).length = _
        rw [List.length_map, List.length_map]
      · rw [countY]
        exact List.length_pos_of_ne_nil fun none => by rw [none] at absorbs; cases absorbs
    · rename_i absorbs
      exact mismatch_gives (lineupWays_eq_empty (by omega) fun _ _ => by simpa using absorbs)

/-- The operands of two applications are matched in all ways to pair them up. -/
theorem matchOperands_gives (hm : MatcherGives F size depth m) (hg : GoalGives F size)
    (h : Facing F ses s a b) (ha : ses.store.term? a = some (.app op xs attrs))
    (hb : ses.store.term? b = some (.app op ys attrs')) (le : (s.tree ses.store a).mass F ≤ size)
    (lt : (s.tree ses.store b).depth < depth + 1) :
    let r := matchOperands m op a b xs ys s ses
    Goes True ses r.2 ∧ Gives True (Solving [] ses.store s) r.2 r.1
      (lineupWays F (s.tree ses.store a) (s.tree ses.store b)) := by
  have left := h.sound.tree_app ha
  have right := h.sound.tree_app hb
  have lower : ∀ {us : List TermId}, us.map (s.tree ses.store) =
      Tree.operands F op (ys.map (s.tree ses.store)) →
      ∀ u, us = [u] → (s.tree ses.store u).depth < depth := by
    rintro _ read u rfl
    have mem : s.tree ses.store u ∈ Tree.operands F op (ys.map (s.tree ses.store)) := by
      rw [← read]
      exact List.mem_singleton_self _
    have : _ < (Tree.app op (ys.map (s.tree ses.store)) attrs').depth :=
      Tree.depth_lt_of_mem_operands mem
    rw [← right] at this
    omega
  unfold matchOperands
  rw [h.facts, show (F.isCommutative op && F.isAssociative op) = F.isChain op from rfl]
  by_cases chain : F.isChain op = true
  · have x := flatten_operands h.sound h.left chain left
    have y := flatten_operands h.sound h.right chain right
    rw [if_pos chain]
    dsimp only
    split
    · rename_i length
      refine ⟨.refl ses, ?_⟩
      have counts : ((Chain.flatten op s ses.store a).items.map (s.tree ses.store)).length =
          ((Chain.flatten op s ses.store b).items.map (s.tree ses.store)).length := by
        rwa [List.length_map, List.length_map]
      rw [x.items_eq, y.items_eq] at counts
      rw [left, right, lineupWays_of_commutative (Facts.commutative_of_isChain chain) counts,
        ← x.items_eq, ← y.items_eq]
      exact permuted_gives (h.across left le x.stored y.stored x.items_eq) hm hg (lower y.items_eq)
        length
    · rename_i length
      obtain ⟨goes, gives⟩ := regroup_gives hm hg h left right chain le lt length
      exact ⟨goes, by rw [left, right]; exact gives⟩
  · have plain : ∀ ts, Tree.operands F op ts = ts := fun ts => if_neg chain
    have across : Across F size ses s xs ys := h.across left le
      (fun x hx => h.sound.valid.stored ha hx) (fun y hy => h.sound.valid.stored hb hy) (plain _).symm
    rw [if_neg chain]
    split
    · rename_i length
      have none : lineupWays F (.app op (xs.map (s.tree ses.store)) attrs)
          (.app op (ys.map (s.tree ses.store)) attrs') = ∅ :=
        lineupWays_eq_empty (by rwa [plain, plain, List.length_map, List.length_map])
          fun chain' => absurd chain' chain
      obtain ⟨goes, gives⟩ := mismatch_gives none
      exact ⟨goes, by rw [left, right]; exact gives⟩
    · rename_i length
      have length : xs.length = ys.length := not_not.mp length
      have counts : (Tree.operands F op (xs.map (s.tree ses.store))).length =
          (Tree.operands F op (ys.map (s.tree ses.store))).length := by
        rwa [plain, plain, List.length_map, List.length_map]
      split
      · rename_i comm
        refine ⟨.refl ses, ?_⟩
        rw [left, right, lineupWays_of_commutative comm counts, plain, plain]
        exact permuted_gives across hm hg (lower (plain _).symm) length
      · rename_i comm
        obtain ⟨goes, gives⟩ := across.pairs_gives hm hg (lower (plain _).symm) (.refl xs) length
          ses (.refl ses) (Store.tidyUnless_true _)
        refine ⟨goes, (gives (Store.roomyUnless_true _)).congr ?_⟩
        rw [left, right, lineupWays_of_ordered comm counts, plain, plain, ways, readPairs,
          List.zip_map]
        rfl

/-- What is no pair of applications unifies, if it matches at all. -/
theorem unify_gives (h : Facing F ses s a b) (ne : s.deref ses.store a ≠ s.deref ses.store b)
    (other : ∀ x y, ses.store.app? (s.deref ses.store a) = some x →
      ses.store.app? (s.deref ses.store b) ≠ some y) :
    Provides True (Solving [] ses.store s) ses (Search.unify a b s) (ways F s ses.store [(a, b)]) := by
  have hs := h.sound
  obtain ⟨x, hx⟩ := Store.term?_of_stored (hs.stored_deref h.left)
  obtain ⟨y, hy⟩ := Store.term?_of_stored (hs.stored_deref h.right)
  have asGround : ∀ {ways : Set (UInt32 → Tree)}, (s.tree ses.store b).Ground →
      (∀ θ, θ ∈ ways ↔ Tree.Agree (s.tree ses.store a) (s.tree ses.store b) ∧ θ = .var) →
      Provides True (Solving [] ses.store s) ses (Search.unify a b s) ways := by
    intro ways ground eq
    rw [show ways = _ from Set.ext eq]
    exact h.unify_ground ground
  cases y with
  | var v =>
    have ways : ways F s ses.store [(a, b)] = {only v (s.tree ses.store a)} := by
      ext θ
      show Matches F [(s.tree ses.store a, s.tree ses.store b)] θ ↔ _
      rw [hs.tree_of_var hy, Matches.var_iff h.ground]
      rfl
    rw [ways]
    exact h.unify_right hy
  | leaf m =>
    refine asGround (hs.tree_of_leaf hy ▸ fun v => Tree.not_hasVar_leaf) fun θ => ?_
    show Matches F [(s.tree ses.store a, s.tree ses.store b)] θ ↔ _
    rw [hs.tree_of_leaf hy]
    cases x with
    | var v => exact absurd hx (hs.ne_var_of_ground h.ground v)
    | leaf l =>
      rw [hs.tree_of_leaf hx, Matches.leaf_iff]
      refine and_congr_left fun _ => ⟨?_, ?_⟩
      · rintro (rfl | value)
        · exact .refl _
        · exact .leaf value
      · rintro (_ | value | _)
        · exact .inl rfl
        · exact .inr value
    | app f xs attrs =>
      rw [hs.tree_of_app hx]
      exact ⟨nofun, fun mem => nomatch mem.1⟩
  | app g ys attrs' => cases x with
    | var v => exact absurd hx (hs.ne_var_of_ground h.ground v)
    | leaf l =>
      refine unify_fails (Set.eq_empty_of_forall_notMem fun θ mem => ?_) fun ses' grows => ?_
      · rw [ways, readPairs, List.map_singleton, hs.tree_of_leaf hx, hs.tree_of_app hy] at mem
        cases mem
      · obtain ⟨n, -, eq⟩ := Subst.unifyBindings_eq s ses'.store a b
        have none : s.unifyBindings ses'.store a b = none := by
          rw [eq, Subst.unifyWithin, hs.deref_grows grows.store h.left,
            hs.deref_grows grows.store h.right, grows.store.keeps _ _ hx, grows.store.keeps _ _ hy]
          simp only [ne, if_false]
        rw [Subst.unify, none]
    | app f xs attrs =>
      exact absurd (Store.app?_eq_some_iff.mpr hy) (other _ _ (Store.app?_eq_some_iff.mpr hx))

/-- The matcher comes to an end at every depth, with the ways to match. -/
theorem moduloWithin_gives (hg : GoalGives F size) (depth : Nat) :
    MatcherGives F size depth (moduloWithin depth) := by
  induction depth with
  | zero => exact fun _ _ lt => absurd lt (Nat.not_lt_zero _)
  | succ depth ih =>
    intro ses₀ s a b h₀ le₀ lt₀ ses l _
    have h := (h₀.grows l.grows).deref
    have left := h₀.sound.tree_grows l.grows.store h₀.left
    have right := h₀.sound.tree_grows l.grows.store h₀.right
    have hs := h.sound
    rw [← left, ← hs.tree_deref] at le₀
    rw [← right, ← hs.tree_deref] at lt₀
    suffices Goes True ses (moduloWithin (depth + 1) a b s ses).2 ∧
        Gives True (Solving [] ses.store s) (moduloWithin (depth + 1) a b s ses).2
          (moduloWithin (depth + 1) a b s ses).1
          (ways F s ses.store [(s.deref ses.store a, s.deref ses.store b)]) by
      refine ⟨this.1, fun _ => (this.2.back h₀.sound h₀.free l.grows.store).congr ?_⟩
      rw [ways, ways, readPairs, readPairs, List.map_singleton, List.map_singleton, hs.tree_deref,
        hs.tree_deref, left, right]
    rw [moduloWithin]
    simp only
    split
    · rename_i same
      refine ⟨.refl ses, ?_⟩
      have one : ways F s ses.store [(s.deref ses.store a, s.deref ses.store b)] = {Tree.var} := by
        ext θ
        show Matches F [(s.tree ses.store _, s.tree ses.store _)] θ ↔ _
        rw [← same, Matches.self_iff h.ground]
        rfl
      rw [one]
      exact .unit fun ses' l' => .of_grows hs h.free l'.grows.store
    · rename_i ne
      split
      · rename_i f xs attrs g ys attrs' ha hb
        have ha := Store.app?_eq_some_iff.mp ha
        have hb := Store.app?_eq_some_iff.mp hb
        have ground := h.ground
        have one : ∀ θ, θ ∈ ways F s ses.store [(s.deref ses.store a, s.deref ses.store b)] ↔
            f = g ∧ attrs.compatible attrs' = true ∧ θ ∈ lineupWays F
              (s.tree ses.store (s.deref ses.store a)) (s.tree ses.store (s.deref ses.store b)) := by
          intro θ
          show Matches F [(s.tree ses.store _, s.tree ses.store _)] θ ↔ _
          rw [hs.tree_app ha] at ground ⊢
          rw [hs.tree_app hb, Matches.app_iff ground]
          rfl
        split
        · rename_i cond
          obtain ⟨rfl, fits⟩ := cond
          obtain ⟨goes, gives⟩ := matchOperands_gives ih hg h ha hb le₀ lt₀
          refine ⟨goes, gives.congr (Set.ext fun θ => ?_)⟩
          rw [one]
          exact (and_iff_right rfl).trans (and_iff_right fits) |>.symm
        · rename_i no
          refine ⟨(Session.count_keeps _ ses).goes, Gives.empty.congr ?_⟩
          refine (Set.eq_empty_of_forall_notMem fun θ mem => ?_).symm
          obtain ⟨same, fits, -⟩ := (one θ).mp mem
          exact no ⟨same, fits⟩
      · rename_i other
        refine (unify_gives h ?_ ?_ ses (.refl ses) (Store.tidyUnless_true _)).imp id fun gives =>
          gives (Store.roomyUnless_true _)
        · rwa [hs.deref_deref, hs.deref_deref]
        · rw [hs.deref_deref, hs.deref_deref]
          rintro ⟨f, xs, attrs⟩ ⟨g, ys, attrs'⟩ ha hb
          exact other _ _ _ _ _ _ ha hb

/-- Matching a ground term with a pattern comes to an end, and answers the ways to match the two
    trees. -/
theorem modulo_gives (h : Facing F ses s a b) : Gives True (Solving [] ses.store s) ses
    (.apply (.modulo a b) s) (ways F s ses.store [(a, b)]) := by
  suffices ∀ size, GoalGives F size from this _ h (Nat.lt_succ_self _)
  intro size
  induction size with
  | zero => exact fun _ lt => absurd lt (Nat.not_lt_zero _)
  | succ size ih =>
    intro ses s a b h lt
    refine .apply fun ses' l tidy => ?_
    have h' := h.grows l.grows
    have right := h.sound.tree_grows l.grows.store h.right
    have below : (s.tree ses.store b).depth < Subst.pairBound ses'.store := by
      rw [← right]
      exact Nat.lt_of_lt_of_le (h'.sound.depth_tree_lt b) (Subst.depthBound_le_pairBound _)
    exact moduloWithin_gives ih _ h (Nat.le_of_lt_succ lt) below ses' l tidy

end Search

end Regraft
