import Mathlib.Data.List.GetD
import Mathlib.Order.Bounds.Basic
import Regraft.Graph.Basic
import Regraft.Proofs.Tensor.Broadcast

/-
  Types of chains of operands. One shape is below another if its axes, counted from the last one, stretch
  to those of the other. Two shapes have a common shape just when some shape is above both, and then it is
  their least upper bound (`Shape.isPartialJoin_broadcast`). Element types are ordered by width, and an
  operation of two operands that does not leave the integers has as its type the least upper bound of the
  types of its operands (`Op.isPartialJoin_infer`). What such an operation makes of a chain of operands
  depends neither on their order nor on how they are bracketed, nor on how often one occurs
  (`IsPartialJoin.combine?_congr`), and it fails for no part of a chain for which it does not fail
  (`IsPartialJoin.exists_combine?_of_subset`). Hence the laws of common shapes, and that operands may be
  regrouped and permuted without a change of type (`Shape.broadcast_laws`).
-/

namespace Regraft

/-! ## Chains of operands -/

/-- Operands of an operation with two operands, bracketed in some way. -/
inductive Bracketing (α : Type)
  | single (x : α)
  | pair (left right : Bracketing α)

namespace Bracketing

variable {α : Type}

/-- The operands from left to right. -/
def leaves : Bracketing α → List α
  | single x => [x]
  | pair left right => left.leaves ++ right.leaves

/-- Combine the operands as they are bracketed; where one operation fails, all fails. -/
def combine? (f : α → α → Option α) : Bracketing α → Option α
  | single x => some x
  | pair left right => (left.combine? f).bind fun x => (right.combine? f).bind (f x)

end Bracketing

/-- An operation that has the least upper bound of two values, and fails just where they have none. -/
structure IsPartialJoin {α : Type} [PartialOrder α] (join : α → α → Option α) : Prop where
  le_iff {a b c : α} : join a b = some c → ∀ u, c ≤ u ↔ a ≤ u ∧ b ≤ u
  bounded {a b u : α} : a ≤ u → b ≤ u → ∃ c, join a b = some c

namespace IsPartialJoin

variable {α : Type} [PartialOrder α] {join : α → α → Option α} {g g' : Bracketing α} {a b c u : α}

/-- A chain has the least upper bound of its operands. -/
theorem isLUB_combine? (h : IsPartialJoin join) (eq : g.combine? join = some c) :
    IsLUB {x | x ∈ g.leaves} c := by
  induction g generalizing c with
  | single x =>
    obtain rfl : x = c := Option.some.inj eq
    simp [Bracketing.leaves]
  | pair left right ihl ihr =>
    obtain ⟨a, hl, eq⟩ := Option.bind_eq_some_iff.mp eq
    obtain ⟨b, hr, eq⟩ := Option.bind_eq_some_iff.mp eq
    rw [isLUB_iff_le_iff]
    intro u
    rw [h.le_iff eq u, isLUB_le_iff (ihl hl), isLUB_le_iff (ihr hr)]
    simp only [mem_upperBounds, Set.mem_ofPred_eq, Bracketing.leaves, List.mem_append, or_imp,
      forall_and]

/-- Operands with an upper bound can be combined. -/
theorem exists_combine? (h : IsPartialJoin join) (bound : ∀ x ∈ g.leaves, x ≤ u) :
    ∃ c, g.combine? join = some c := by
  induction g with
  | single x => exact ⟨x, rfl⟩
  | pair left right ihl ihr =>
    simp only [Bracketing.leaves, List.mem_append, or_imp, forall_and] at bound
    obtain ⟨a, hl⟩ := ihl bound.1
    obtain ⟨b, hr⟩ := ihr bound.2
    have left_le : a ≤ u := (isLUB_le_iff (h.isLUB_combine? hl)).mpr bound.1
    have right_le : b ≤ u := (isLUB_le_iff (h.isLUB_combine? hr)).mpr bound.2
    obtain ⟨c, hc⟩ := h.bounded left_le right_le
    exact ⟨c, by simp [Bracketing.combine?, hl, hr, hc]⟩

/-- The result of a chain is said by an order alone, and so is that there is one. -/
theorem combine?_eq_some_iff (h : IsPartialJoin join) :
    g.combine? join = some c ↔ IsLUB {x | x ∈ g.leaves} c := by
  constructor
  · exact h.isLUB_combine?
  · intro least
    obtain ⟨d, hd⟩ := h.exists_combine? fun x mem => least.1 mem
    rw [hd, (h.isLUB_combine? hd).unique least]

/-- Order, brackets and repetitions make no difference. -/
theorem combine?_congr (h : IsPartialJoin join) (same : ∀ x, x ∈ g.leaves ↔ x ∈ g'.leaves) :
    g.combine? join = g'.combine? join := by
  ext c
  rw [h.combine?_eq_some_iff, h.combine?_eq_some_iff]
  simp only [same]

/-- Some of the operands of a chain can be combined if the chain can. -/
theorem exists_combine?_of_subset (h : IsPartialJoin join) (sub : g'.leaves ⊆ g.leaves)
    (eq : g.combine? join = some c) : ∃ d, g'.combine? join = some d :=
  h.exists_combine? fun _ mem => (h.isLUB_combine? eq).1 (sub mem)

/-! ### Laws of the operation, as chains of two and three operands -/

theorem comm (h : IsPartialJoin join) (a b : α) : join a b = join b a := by
  change (Bracketing.pair (.single a) (.single b)).combine? join =
    (Bracketing.pair (.single b) (.single a)).combine? join
  exact h.combine?_congr (by simp [Bracketing.leaves, or_comm])

theorem self (h : IsPartialJoin join) (a : α) : join a a = some a := by
  change (Bracketing.pair (.single a) (.single a)).combine? join = (Bracketing.single a).combine? join
  exact h.combine?_congr (by simp [Bracketing.leaves])

theorem assoc (h : IsPartialJoin join) (a b c : α) :
    ((join a b).bind fun x => join x c) = (join b c).bind (join a) := by
  change (Bracketing.pair (.pair (.single a) (.single b)) (.single c)).combine? join =
    (Bracketing.pair (.single a) (.pair (.single b) (.single c))).combine? join
  exact h.combine?_congr (by simp [Bracketing.leaves])

theorem of_le (h : IsPartialJoin join) (le : a ≤ b) : join a b = some b := by
  have lub : IsLUB {x | x ∈ (Bracketing.pair (.single a) (.single b)).leaves} b := by
    rw [isLUB_iff_le_iff]
    intro u
    simp only [mem_upperBounds, Set.mem_ofPred_eq, Bracketing.leaves, List.mem_append,
      List.mem_singleton, forall_eq_or_imp, forall_eq]
    exact ⟨fun hb => ⟨le.trans hb, hb⟩, fun hb => hb.2⟩
  exact h.combine?_eq_some_iff.mpr lub

end IsPartialJoin

/-! ## Axes from the end -/

namespace Shape

variable {s a b c u : Shape}

/-- The size of an axis, counted from the last one; an axis that is not there has size one. -/
def fromEnd (s : Shape) (k : Nat) : Nat := s.dims.reverse.getD k 1

theorem fromEnd_of_rank_le {k : Nat} (h : s.rank ≤ k) : s.fromEnd k = 1 := by
  unfold fromEnd
  rw [List.getD_eq_default]
  rwa [List.length_reverse]

theorem padded_eq_map {r : Nat} (h : s.rank ≤ r) :
    padded r s.dims = (List.range r).reverse.map s.fromEnd := by
  unfold rank at h
  refine List.ext_getElem (by simp [length_padded h]) fun i hi hi' => ?_
  have lt : i < r := by rwa [length_padded h] at hi
  simp only [List.getElem_map, List.getElem_reverse, List.length_range, List.getElem_range, fromEnd,
    padded]
  rw [List.getElem_append]
  split
  · rename_i padding
    rw [List.length_replicate] at padding
    rw [List.getElem_replicate, List.getD_eq_default _ _ (by rw [List.length_reverse]; omega)]
  · rename_i within
    rw [List.length_replicate] at within
    rw [List.getD_eq_getElem _ _ (by rw [List.length_reverse]; omega), List.getElem_reverse]
    congr 1
    rw [List.length_replicate]
    omega

theorem dims_eq_map (s : Shape) : s.dims = (List.range s.rank).reverse.map s.fromEnd := by
  rw [← padded_eq_map (Nat.le_refl _)]
  simp [padded, rank]

/-- The common axes are looked for one by one, each at the same distance from the last. -/
theorem broadcast_eq (a b : Shape) :
    a.broadcast b = ((List.range (max a.rank b.rank)).reverse.mapM fun k =>
      axis (a.fromEnd k) (b.fromEnd k)).map Shape.mk := by
  unfold broadcast
  simp only [padded_eq_map (Nat.le_max_left a.rank b.rank), padded_eq_map (Nat.le_max_right a.rank b.rank),
    List.zip_map', List.mapM_map]
  rfl

theorem broadcast_eq_some_iff : a.broadcast b = some c ↔ c.rank = max a.rank b.rank ∧
    ∀ k, axis (a.fromEnd k) (b.fromEnd k) = some (c.fromEnd k) := by
  have at_dims : ((List.range (max a.rank b.rank)).reverse.mapM fun k =>
      axis (a.fromEnd k) (b.fromEnd k)) = some c.dims ↔ a.broadcast b = some c := by
    rw [broadcast_eq, Option.map_eq_some_iff]
    constructor
    · exact fun h => ⟨_, h, rfl⟩
    · rintro ⟨dims, h, rfl⟩
      exact h
  rw [← at_dims, mapM_eq_some_iff]
  constructor
  · intro h
    have rank : c.rank = max a.rank b.rank := by
      simpa [Shape.rank] using h.length_eq.symm
    refine ⟨rank, fun k => ?_⟩
    rw [dims_eq_map c, rank, List.forall₂_map_right_iff, List.forall₂_same] at h
    rcases Nat.lt_or_ge k (max a.rank b.rank) with lt | ge
    · exact h k (by simpa using lt)
    · rw [fromEnd_of_rank_le (Nat.le_trans (Nat.le_max_left ..) ge),
        fromEnd_of_rank_le (Nat.le_trans (Nat.le_max_right ..) ge),
        fromEnd_of_rank_le (Nat.le_trans (Nat.le_of_eq rank) ge)]
      rfl
  · rintro ⟨rank, each⟩
    rw [dims_eq_map c, rank, List.forall₂_map_right_iff, List.forall₂_same]
    exact fun k _ => each k

theorem exists_broadcast (each : ∀ k, ∃ d, axis (a.fromEnd k) (b.fromEnd k) = some d) :
    ∃ c, a.broadcast b = some c := by
  rw [broadcast_eq]
  obtain ⟨dims, h⟩ := exists_mapM (f := fun k => axis (a.fromEnd k) (b.fromEnd k)) fun k
    (_ : k ∈ (List.range (max a.rank b.rank)).reverse) => each k
  exact ⟨⟨dims⟩, by rw [h]; rfl⟩

theorem stretches_iff : s.Stretches c ↔ s.rank ≤ c.rank ∧ ∀ k, Stretch (s.fromEnd k) (c.fromEnd k) := by
  have last (h : s.rank ≤ c.rank) :
      c.dims.drop (c.rank - s.rank) = (List.range s.rank).reverse.map c.fromEnd := by
    rw [c.dims_eq_map, ← List.map_drop, List.drop_reverse, List.length_range, List.take_range,
      show min (c.rank - (c.rank - s.rank)) c.rank = s.rank by omega]
  constructor
  · rintro ⟨rank, axes⟩
    refine ⟨rank, fun k => ?_⟩
    rw [last rank, s.dims_eq_map, List.forall₂_map_left_iff, List.forall₂_map_right_iff,
      List.forall₂_same] at axes
    rcases Nat.lt_or_ge k s.rank with lt | ge
    · exact axes k (by simpa using lt)
    · exact .inl (fromEnd_of_rank_le ge)
  · rintro ⟨rank, each⟩
    refine ⟨rank, ?_⟩
    rw [last rank, s.dims_eq_map, List.forall₂_map_left_iff, List.forall₂_map_right_iff,
      List.forall₂_same]
    exact fun k _ => each k

theorem ext_fromEnd (rank : a.rank = b.rank) (each : ∀ k, a.fromEnd k = b.fromEnd k) : a = b := by
  have dims : a.dims = b.dims := by
    rw [a.dims_eq_map, b.dims_eq_map, rank]
    exact List.map_congr_left fun k _ => each k
  exact congrArg Shape.mk dims

/-! ## The order of stretching -/

/-- A shape is below those that it stretches to. -/
instance : PartialOrder Shape where
  le := Stretches
  le_refl s := stretches_iff.mpr ⟨Nat.le_refl _, fun _ => .inr rfl⟩
  le_trans a b c hab hbc := by
    rw [stretches_iff] at hab hbc ⊢
    refine ⟨Nat.le_trans hab.1 hbc.1, fun k => ?_⟩
    have first := hab.2 k
    have second := hbc.2 k
    unfold Stretch at first second ⊢
    omega
  le_antisymm a b hab hba := by
    rw [stretches_iff] at hab hba
    refine ext_fromEnd (Nat.le_antisymm hab.1 hba.1) fun k => ?_
    have there := hab.2 k
    have back := hba.2 k
    unfold Stretch at there back
    omega

theorem le_iff : a ≤ b ↔ a.rank ≤ b.rank ∧ ∀ k, Stretch (a.fromEnd k) (b.fromEnd k) := stretches_iff

theorem scalar_le (s : Shape) : scalar ≤ s := by
  rw [le_iff]
  refine ⟨Nat.zero_le _, fun k => .inl ?_⟩
  exact fromEnd_of_rank_le (Nat.zero_le k)

theorem exists_axis {x y e : Nat} (hx : Stretch x e) (hy : Stretch y e) : ∃ d, axis x y = some d := by
  unfold Stretch at hx hy
  unfold axis
  split
  · exact ⟨_, rfl⟩
  · split
    · exact ⟨_, rfl⟩
    · exact ⟨x, if_pos (by omega)⟩

theorem stretch_axis {x y d e : Nat} (h : axis x y = some d) (hx : Stretch x e) (hy : Stretch y e) :
    Stretch d e := by
  unfold axis at h
  grind

/-- The common shape is the least one that both shapes stretch to. -/
theorem isPartialJoin_broadcast : IsPartialJoin broadcast where
  le_iff {a b c} h u := by
    obtain ⟨rank, each⟩ := broadcast_eq_some_iff.mp h
    obtain ⟨left, right⟩ : a ≤ c ∧ b ≤ c := stretches_of_broadcast h
    constructor
    · exact fun hu => ⟨left.trans hu, right.trans hu⟩
    · rintro ⟨ha, hb⟩
      rw [le_iff] at ha hb ⊢
      exact ⟨rank ▸ Nat.max_le.mpr ⟨ha.1, hb.1⟩, fun k => stretch_axis (each k) (ha.2 k) (hb.2 k)⟩
  bounded ha hb := exists_broadcast fun k => exists_axis ((le_iff.mp ha).2 k) ((le_iff.mp hb).2 k)

end Shape

/-! ## Types of operations -/

namespace ElemType

theorem width_injective : Function.Injective width := by
  intro a b h
  cases a <;> cases b <;> first | rfl | cases h

instance : PartialOrder ElemType := PartialOrder.lift width width_injective

theorem width_promote (a b : ElemType) : (a.promote b).width = max a.width b.width := by
  unfold promote
  split <;> omega

theorem promote_le_iff {a b t : ElemType} : a.promote b ≤ t ↔ a ≤ t ∧ b ≤ t := by
  change (a.promote b).width ≤ t.width ↔ a.width ≤ t.width ∧ b.width ≤ t.width
  rw [width_promote, Nat.max_le]

end ElemType

/-- The type of an operation on operands bracketed in some way. -/
def Bracketing.infer (op : Op) : Bracketing ValueType → Except GraphError ValueType
  | single type => .ok type
  | pair left right => do
    let l ← left.infer op
    let r ← right.infer op
    op.infer [l, r]

theorem Bracketing.toOption_infer (op : Op) (g : Bracketing ValueType) :
    (g.infer op).toOption = g.combine? fun l r => (op.infer [l, r]).toOption := by
  induction g with
  | single type => rfl
  | pair left right ihl ihr =>
    unfold infer combine?
    rw [← ihl, ← ihr]
    cases left.infer op with
    | error e => rfl
    | ok l => cases right.infer op <;> rfl

namespace Op

variable {f : Binary}

theorem toOption_infer_binary (integral : f ≠ .div) (l r : ValueType) :
    ((binary f).infer [l, r]).toOption = (l.2.broadcast r.2).map fun shape => (l.1.promote r.1, shape) := by
  obtain ⟨lt, ls⟩ := l
  obtain ⟨rt, rs⟩ := r
  dsimp only [infer]
  cases ls.broadcast rs with
  | none => rfl
  | some shape => simp [integral, Except.toOption]

/-- The type of the result is the least one above the types of both operands. -/
theorem isPartialJoin_infer (integral : f ≠ .div) :
    IsPartialJoin fun l r : ValueType => ((binary f).infer [l, r]).toOption where
  le_iff {l r type} h u := by
    rw [toOption_infer_binary integral, Option.map_eq_some_iff] at h
    obtain ⟨shape, common, rfl⟩ := h
    rw [Prod.le_def, Prod.le_def, Prod.le_def, ElemType.promote_le_iff,
      Shape.isPartialJoin_broadcast.le_iff common u.2]
    tauto
  bounded {l r u} hl hr := by
    obtain ⟨shape, common⟩ := Shape.isPartialJoin_broadcast.bounded hl.2 hr.2
    exact ⟨_, by rw [toOption_infer_binary integral, common]; rfl⟩

end Op

/-- Broadcasting is commutative, idempotent and associative, with the scalar shape as its unit, a missing
    common shape being passed on. If a chain of shapes has a common shape, so have all shapes that occur
    in it, in any order and bracketing. And the type of an operation other than division on a chain of
    operands, or that there is none, does not depend on their order and bracketing. -/
theorem Shape.broadcast_laws :
    (∀ a b : Shape, a.broadcast b = b.broadcast a) ∧
    (∀ a : Shape, a.broadcast a = some a) ∧
    (∀ a : Shape, a.broadcast .scalar = some a ∧ Shape.scalar.broadcast a = some a) ∧
    (∀ a b c : Shape, ((a.broadcast b).bind fun d => d.broadcast c) = (b.broadcast c).bind a.broadcast) ∧
    (∀ g g' : Bracketing Shape, g'.leaves ⊆ g.leaves → (g.combine? broadcast).isSome →
      (g'.combine? broadcast).isSome) ∧
    (∀ f : Binary, f ≠ .div → ∀ g g' : Bracketing ValueType, g.leaves.Perm g'.leaves →
      (g.infer (.binary f)).toOption = (g'.infer (.binary f)).toOption) := by
  have scalar_left (a : Shape) : Shape.scalar.broadcast a = some a :=
    isPartialJoin_broadcast.of_le (scalar_le a)
  refine ⟨isPartialJoin_broadcast.comm, isPartialJoin_broadcast.self, fun a => ⟨?_, scalar_left a⟩,
    isPartialJoin_broadcast.assoc, fun g g' sub some => ?_, fun f integral g g' perm => ?_⟩
  · rw [isPartialJoin_broadcast.comm, scalar_left]
  · obtain ⟨c, eq⟩ := Option.isSome_iff_exists.mp some
    exact Option.isSome_iff_exists.mpr (isPartialJoin_broadcast.exists_combine?_of_subset sub eq)
  · rw [Bracketing.toOption_infer, Bracketing.toOption_infer]
    exact (Op.isPartialJoin_infer integral).combine?_congr fun _ => perm.mem_iff

/-- Three operands of different element types and ranks, one of them with an empty axis. -/
theorem Shape.broadcast_laws_threeRanks :
    let x : ValueType := (.i32, ⟨[2, 1, 1]⟩)
    let y : ValueType := (.f32, ⟨[0]⟩)
    let z : ValueType := (.i64, ⟨[3, 1]⟩)
    (Bracketing.combine? broadcast (.pair (.single z.2) (.pair (.single x.2) (.single y.2)))).isSome ∧
    (Bracketing.combine? broadcast (.pair (.single y.2) (.single z.2))).isSome ∧
    (Bracketing.infer (.binary .add) (.pair (.single z) (.pair (.single x) (.single y)))).toOption =
      some (.f32, ⟨[2, 3, 0]⟩) ∧
    (Bracketing.infer (.binary .add) (.pair (.pair (.single y) (.single z)) (.single x))).toOption =
      some (.f32, ⟨[2, 3, 0]⟩) := by
  intro x y z
  obtain ⟨-, -, -, -, part, regroup⟩ := Shape.broadcast_laws
  have whole : (Bracketing.combine? broadcast
    (.pair (.single z.2) (.pair (.single x.2) (.single y.2)))).isSome := by decide
  have type : (Bracketing.infer (.binary .add)
    (.pair (.single z) (.pair (.single x) (.single y)))).toOption = some (.f32, ⟨[2, 3, 0]⟩) := by decide
  refine ⟨whole, part _ _ ?_ whole, type, ?_⟩
  · decide
  · rw [← type]
    exact regroup .add (by decide) _ _ (by decide)

end Regraft
