import Regraft.Proofs.Match.Lighter
import Mathlib.Algebra.Order.BigOperators.Group.List

/-
  What is counted in trees, such as the ends of branches or the applications of one operator. Where
  applications of chains count nothing as long as they have operands, what the operands of a pattern
  are paired up with counts at most as much as the matched tree (`Lineup.exists_parts`), even if it is made
  anew from a part of a chain. Every item of a chain is given a share for this, so that each stretch counts
  at most the shares of its items (`Strand.Shares`); an operand that contributes no items, such as a
  product of nothing, is shared out to its neighbours.
-/

namespace Regraft

/-- What is counted in a tree: where it ends, and at applications of an operator to some number of
    operands. -/
structure Tally where
  ending : Nat
  node : String → Nat → Nat

namespace Tally

/-- The ends of all branches: variables, leaves, and applications to no operands. -/
def leaves : Tally := ⟨1, fun _ n => if n = 0 then 1 else 0⟩

/-- The applications of one operator. -/
def uses (op : String) : Tally := ⟨0, fun f _ => if f = op then 1 else 0⟩

/-- Nothing is counted at applications of chains that have operands. -/
def Weightless (F : Facts) (c : Tally) : Prop :=
  ∀ op n, F.isChain op = true → n ≠ 0 → c.node op n = 0

theorem leaves_weightless (F : Facts) : leaves.Weightless F := fun _ _ _ ne => if_neg ne

theorem uses_weightless {F : Facts} {op : String} (plain : F.isChain op = false) :
    (uses op).Weightless F := by
  intro f n chain _
  refine if_neg ?_
  rintro rfl
  exact absurd (plain.symm.trans chain) Bool.false_ne_true

end Tally

namespace Tree

variable {F : Facts} {op : String} {t u : Tree} {c : Tally}

/-! ## Counts -/

/-- The count of a tally in a tree. -/
def count (c : Tally) : Tree → Nat :=
  fold (fun _ => c.ending) (fun _ => c.ending) (fun op _ counts => c.node op counts.length + counts.sum)
    fun _ => c.ending

theorem count_app (c : Tally) (op : String) (args : List Tree) (attrs : Attrs) :
    (app op args attrs).count c = c.node op args.length + (args.map (count c)).sum := by
  rw [count, fold_app, List.length_map]

@[simp] theorem count_var (c : Tally) (v : UInt32) : (var v).count c = c.ending := rfl

@[simp] theorem count_leaf (c : Tally) (l : Leaf) : (leaf l).count c = c.ending := rfl

/-- Every tree ends somewhere. -/
theorem leaves_pos (t : Tree) : 0 < t.count .leaves := by
  induction t with
  | app op args attrs ih =>
    rw [count_app]
    cases args with
    | nil => exact Nat.one_pos
    | cons t rest =>
      have first := ih t (.head _)
      rw [List.map_cons, List.sum_cons]
      omega
  | _ => exact Nat.one_pos

/-- Trees count the same if they are alike without any facts. -/
theorem Alike.count_eq (h : Alike .none t u) : t.count c = u.count c := by
  have plain : ∀ op ts, operands .none op ts = ts := fun op ts => if_neg nofun
  induction h using Alike.induct with
  | var v => rfl
  | leaf l m same => rfl
  | app op xs ys a b h =>
    rw [plain, plain] at h
    obtain ⟨zs, arranged, h⟩ := h
    obtain rfl : xs = zs := arranged.resolve_right nofun
    have same : xs.map (count c) = ys.map (count c) :=
      map_eq_of_zip h.length_eq fun p hp => (List.forall₂_zip h hp).2
    rw [count_app, count_app, h.length_eq, same]
  | unknown id => rfl

/-! ## Shares -/

namespace Strand

variable {s : Strand} {shares more : List Nat} {positions : List Nat} {g : Tree}

/-- Each item of a chain counts at most its share, and each stretch that has items at most theirs. -/
structure Shares (c : Tally) (s : Strand) (shares : List Nat) : Prop where
  items : List.Forall₂ (fun t n => t.count c ≤ n) s.items shares
  spans : ∀ span ∈ s.spans, span.1 < span.2.1 → span.2.1 ≤ shares.length ∧
    span.2.2.count c ≤ ((shares.drop span.1).take (span.2.1 - span.1)).sum

/-- Shares may be larger. -/
theorem Shares.mono (h : Shares c s shares) (le : List.Forall₂ (· ≤ ·) shares more) :
    Shares c s more where
  items := by
    have both := h.items.length_eq
    refine List.forall₂_iff_get.mpr ⟨both.trans le.length_eq, fun i hi hm => ?_⟩
    exact Nat.le_trans (h.items.get hi (both ▸ hi)) (le.get (both ▸ hi) hm)
  spans span hs lt := by
    obtain ⟨bound, count⟩ := h.spans span hs lt
    exact ⟨le.length_eq ▸ bound, Nat.le_trans count
      (List.forall₂_take _ (List.forall₂_drop _ le)).sum_le_sum⟩

theorem take_drop_append {i j : Nat} (le : j ≤ shares.length) (more : List Nat) :
    ((shares ++ more).drop i).take (j - i) = (shares.drop i).take (j - i) := by
  by_cases lt : i ≤ j
  · rw [List.drop_append_of_le_length (Nat.le_trans lt le),
      List.take_append_of_le_length (by rw [List.length_drop]; omega)]
  · rw [Nat.sub_eq_zero_of_le (Nat.le_of_not_le lt), List.take_zero, List.take_zero]

/-- A single item more, with its count as its share. -/
theorem Shares.item (h : Shares c s shares) (ht : ¬ t.IsApp op) :
    Shares c (append op s t) (shares ++ [t.count c]) := by
  rw [append_of_not_isApp s ht]
  refine ⟨List.rel_append h.items (.cons (Nat.le_refl _) .nil), fun span hs lt => ?_⟩
  obtain ⟨bound, count⟩ := h.spans span hs lt
  rw [take_drop_append bound, List.length_append]
  exact ⟨Nat.le_add_right_of_le bound, count⟩

/-- What is appended to a chain has shares that add up to its count, if it has items at all. -/
theorem Shares.append (h : Shares c s shares) (light : c.Weightless F) (chain : F.isChain op = true)
    (t : Tree) : ∃ more, Shares c (append op s t) (shares ++ more) ∧
      (more = [] ∨ more.sum = t.count c) := by
  induction t generalizing s shares with
  | app f args attrs ih =>
    by_cases hf : f = op
    · subst hf
      have all : ∀ ts : List Tree, (∀ t ∈ ts, t ∈ args) → ∀ s shares, Shares c s shares → ∃ more,
          Shares c (appendAll f s ts) (shares ++ more) ∧ more.sum ≤ (ts.map (count c)).sum := by
        intro ts
        induction ts with
        | nil =>
          intro _ s shares h
          exact ⟨[], by rwa [appendAll, List.append_nil], Nat.le_refl 0⟩
        | cons t rest ihTs =>
          intro mem s shares h
          rw [List.forall_mem_cons] at mem
          obtain ⟨first, h, eq⟩ := ih t mem.1 h
          obtain ⟨others, h, le⟩ := ihTs mem.2 _ _ h
          refine ⟨first ++ others, by rwa [appendAll, ← List.append_assoc], ?_⟩
          rw [List.sum_append, List.map_cons, List.sum_cons]
          rcases eq with rfl | eq
          · exact Nat.le_trans (Nat.le_of_eq (Nat.zero_add _)) (Nat.le_add_left_of_le le)
          · exact Nat.add_le_add (Nat.le_of_eq eq) le
      obtain ⟨more, inner, le⟩ := all args (fun _ h => h) s shares h
      have start : s.items.length = shares.length := h.items.length_eq
      have stop : (appendAll f s args).items.length = (shares ++ more).length := inner.items.length_eq
      rw [Strand.append, if_pos rfl]
      dsimp only
      rw [start, stop]
      cases more with
      | nil =>
        refine ⟨[], ⟨inner.items, fun span hs lt => ?_⟩, .inl rfl⟩
        rcases List.mem_append.mp hs with hs | hs
        · exact inner.spans span hs lt
        · rw [List.mem_singleton.mp hs, List.append_nil] at lt
          exact absurd lt (Nat.lt_irrefl _)
      | cons n rest =>
        -- What the operands without items count is added to the first share.
        have operands : args.length ≠ 0 := by
          intro none
          rw [List.length_eq_zero_iff.mp none, appendAll, start, List.length_append] at stop
          exact absurd stop (by rw [List.length_cons]; omega)
        have total : (app f args attrs).count c = (args.map (count c)).sum := by
          rw [count_app, light f _ chain operands, Nat.zero_add]
        rw [List.sum_cons] at le
        let raised := (n + ((args.map (count c)).sum - (n + rest.sum))) :: rest
        have sum : raised.sum = (app f args attrs).count c := by
          rw [List.sum_cons, total]
          omega
        have up : List.Forall₂ (· ≤ ·) (shares ++ n :: rest) (shares ++ raised) :=
          List.rel_append (List.forall₂_same.mpr fun _ _ => Nat.le_refl _)
            (.cons (Nat.le_add_right ..) (List.forall₂_same.mpr fun _ _ => Nat.le_refl _))
        refine ⟨raised, ⟨(inner.mono up).items, fun span hs lt => ?_⟩, .inr sum⟩
        rcases List.mem_append.mp hs with hs | hs
        · exact (inner.mono up).spans span hs lt
        · rw [List.mem_singleton.mp hs]
          have length : (shares ++ n :: rest).length = (shares ++ raised).length := up.length_eq
          dsimp only
          rw [length, List.drop_left, List.length_append, Nat.add_sub_cancel_left, List.take_length, sum]
          exact ⟨Nat.le_refl _, Nat.le_refl _⟩
    · exact ⟨_, h.item hf, .inr (Nat.add_zero _)⟩
  | _ => exact ⟨_, h.item id, .inr (Nat.add_zero _)⟩

/-- The items of a tree have shares that count at most as much as the tree. -/
theorem exists_shares (light : c.Weightless F) (chain : F.isChain op = true) (t : Tree) :
    ∃ shares, Shares c (of op t) shares ∧ shares.sum ≤ t.count c := by
  have start : Shares c ⟨[], []⟩ [] := ⟨.nil, nofun⟩
  obtain ⟨shares, h, eq⟩ := start.append light chain t
  refine ⟨shares, h, ?_⟩
  rcases eq with rfl | eq
  · exact Nat.zero_le _
  · exact Nat.le_of_eq eq

/-! ## Groups -/

theorem count_foldl (light : c.Weightless F) (chain : F.isChain op = true) (t : Tree)
    (rest : List Tree) : (rest.foldl (fun t u => .app op [t, u] .unspecified) t).count c =
      ((t :: rest).map (count c)).sum := by
  induction rest generalizing t with
  | nil => rfl
  | cons u rest ih =>
    have pair : (app op [t, u] .unspecified).count c = t.count c + u.count c := by
      rw [count_app, light op _ chain (by simp)]
      simp
    rw [List.foldl_cons, ih, List.map_cons, List.sum_cons, pair, List.map_cons, List.map_cons,
      List.sum_cons, List.sum_cons, Nat.add_assoc]

/-- A group counts at most the shares of its items. -/
theorem Shares.group_le (h : Shares c s shares) (light : c.Weightless F) (chain : F.isChain op = true)
    (ascending : positions.Pairwise (· < ·)) (hg : s.group op positions = some g) :
    g.count c ≤ (positions.filterMap (shares[·]?)).sum := by
  have each := Search.forall₂_filterMap h.items positions
  unfold group at hg
  split at hg
  · cases hg
  · rename_i x eq
    obtain rfl := Option.some.inj hg
    rw [eq] at each
    generalize positions.filterMap (shares[·]?) = counts at each ⊢
    cases each with
    | cons le _ =>
      rw [List.sum_cons]
      exact Nat.le_add_right_of_le le
  · rename_i x rest _ eq
    rw [eq] at each
    split at hg
    · rename_i span found
      obtain rfl := Option.some.inj hg
      obtain ⟨⟨first, stop⟩, cons, found⟩ := Option.bind_eq_some_iff.mp found
      obtain ⟨head, last, getLast, rfl, gapless⟩ := Chain.consecutive_eq_some cons
      have bounds := List.find?_some found
      simp only [decide_eq_true_eq] at bounds
      have pos : 0 < positions.length := by
        cases positions with
        | nil => cases head
        | cons => exact Nat.succ_pos _
      obtain ⟨-, count⟩ := h.spans span (List.mem_of_find?_eq_some found) (by omega)
      have range := eq_range'_of_ascending ascending head getLast gapless
      rw [bounds.1, bounds.2, gapless, Nat.add_sub_cancel_left] at count
      rw [range, filterMap_range']
      exact count
    · obtain rfl := Option.some.inj hg
      rw [count_foldl light chain]
      refine List.Forall₂.sum_le_sum ?_
      rw [List.forall₂_map_left_iff]
      exact each

variable {assignment slots : List Nat} {gs : List Tree}

/-- Groups for several slots count at most the shares of the items that are handed to them. -/
theorem Shares.sum_groups_le (h : Shares c s shares) (light : c.Weightless F)
    (chain : F.isChain op = true) (made : List.Forall₂ (fun slot g => s.group op
      (Search.members assignment slot) = some g) slots gs) :
    (gs.map (count c)).sum ≤ (slots.flatMap fun slot =>
      (Search.members assignment slot).filterMap (shares[·]?)).sum := by
  induction made with
  | nil => exact Nat.le_refl 0
  | cons hg _ ih =>
    rw [List.map_cons, List.sum_cons, List.flatMap_cons, List.sum_append]
    exact Nat.add_le_add (h.group_le light chain (Search.members_ascending ..) hg) ih

end Strand

/-! ## Lineups -/

/-- The operands of a chain count at most as much as the trees that they were read from. -/
theorem sum_operands_le (light : c.Weightless F) (args : List Tree) :
    ((operands F op args).map (count c)).sum ≤ (args.map (count c)).sum := by
  unfold operands
  split
  · rename_i chain
    rw [List.flatMap_def, List.map_flatten, List.sum_flatten, List.map_map, List.map_map]
    refine List.sum_le_sum fun t _ => ?_
    obtain ⟨shares, h, le⟩ := Strand.exists_shares light chain t
    have items := (Strand.of_reads op t).items_eq
    refine Nat.le_trans (List.Forall₂.sum_le_sum ?_) le
    rw [List.forall₂_map_left_iff, ← items]
    exact h.items
  · exact Nat.le_refl _

/-- What the operands of a pattern are paired up with counts, as operands of the same operator, at most
    as much as the tree. -/
theorem Lineup.exists_parts {ys : List Tree} {b : Attrs} {ps : List (Tree × Tree)}
    (h : Lineup F t (app op ys b) ps) (some : operands F op ys ≠ []) :
    ∃ gs : List Tree, ps = gs.zip (operands F op ys) ∧ gs.length = (operands F op ys).length ∧
      ∀ c : Tally, c.Weightless F → c.node op gs.length + (gs.map (count c)).sum ≤ t.count c := by
  generalize hu : app op ys b = u at h
  cases h with
  | @pair _ xs _ zs a _ length arranged =>
    cases hu
    have perm := arranged.perm
    refine ⟨zs, rfl, perm.length_eq.symm.trans length, fun c light => ?_⟩
    rw [count_app, ← (perm.map (count c)).sum_eq]
    refine Nat.add_le_add ?_ (sum_operands_le light xs)
    rw [← perm.length_eq]
    by_cases chain : F.isChain op = true
    · have ne : (operands F op xs).length ≠ 0 := by
        rw [length]
        exact fun none => some (List.length_eq_zero_iff.mp none)
      rw [light op _ chain ne]
      exact Nat.zero_le _
    · rw [operands, if_neg chain]
  | @group _ xs _ gs a _ assignment chain longer absorbs length bound ok made =>
    cases hu
    have count := made.length_eq
    rw [List.length_range] at count
    refine ⟨gs, rfl, count.symm, fun c light => ?_⟩
    have ne : gs.length ≠ 0 := by
      rw [← count]
      exact fun none => some (List.length_eq_zero_iff.mp none)
    rw [light op _ chain ne, Nat.zero_add]
    obtain ⟨shares, h, le⟩ := Strand.exists_shares light chain (app op xs a)
    refine Nat.le_trans (h.sum_groups_le light chain made) ?_
    have all : assignment.length = shares.length := by
      rw [← h.items.length_eq, (Strand.of_reads op (app op xs a)).items_eq, items_app_self, length,
        operands, if_pos chain]
    rw [(Search.flatMap_members_perm all bound).sum_eq]
    exact le

end Tree

end Regraft
