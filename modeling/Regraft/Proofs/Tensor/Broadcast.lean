import Regraft.Tensor.Basic
import Regraft.Proofs.Results

/-
  Elements of tensors and their positions. The multi-indices of a shape stand in the order of their
  positions (`Shape.indices_map_position`), so the elements of a tensor that fills its shape are there and
  determine it (`Tensor.ext_at`). When two shapes have a common shape, an index of it reads an index of
  either (`Shape.within_restrict`), and two tensors that fill their shapes combine to just one tensor of
  the common shape (`Tensor.exists_zipWith?`, `Tensor.Combines.unique`).
-/

namespace Regraft

/-! ## Positions -/

namespace Shape

variable {s a b c : Shape} {dims index : List Nat} {k : Nat}

/-- An index with one entry below the size of each axis. -/
def Within (s : Shape) (index : List Nat) : Prop := List.Forall₂ (· < ·) index s.dims

theorem mem_indicesOf : index ∈ indicesOf dims ↔ List.Forall₂ (· < ·) index dims := by
  induction dims generalizing index with
  | nil => rw [indicesOf, List.mem_singleton, List.forall₂_nil_right_iff]
  | cons d rest ih =>
    rw [indicesOf, List.mem_flatMap, List.forall₂_cons_right_iff]
    simp only [List.mem_map, List.mem_range, ih]
    constructor
    · rintro ⟨i, lt, index, within, rfl⟩
      exact ⟨i, index, lt, within, rfl⟩
    · rintro ⟨i, index, lt, within, rfl⟩
      exact ⟨i, lt, index, within, rfl⟩

theorem flatMap_range_mul (d n : Nat) :
    ((List.range d).flatMap fun i => (List.range n).map fun k => i * n + k) = List.range (d * n) := by
  induction d with
  | zero => rw [Nat.zero_mul, List.range_zero, List.flatMap_nil]
  | succ d ih =>
    rw [List.range_succ, List.flatMap_append, ih, List.flatMap_singleton, Nat.succ_mul, List.range_add]

/-- Row-major order runs through the positions one by one. -/
theorem indicesOf_map_positionIn (dims : List Nat) :
    (indicesOf dims).map (positionIn dims) = List.range (dims.foldr (· * ·) 1) := by
  induction dims with
  | nil => rfl
  | cons d rest ih =>
    rw [indicesOf, List.map_flatMap, List.foldr_cons, ← flatMap_range_mul, ← ih]
    simp only [List.map_map]
    rfl

theorem positionIn_lt (h : List.Forall₂ (· < ·) index dims) :
    positionIn dims index < dims.foldr (· * ·) 1 := by
  have mem := List.mem_map_of_mem (f := positionIn dims) (mem_indicesOf.mpr h)
  rw [indicesOf_map_positionIn] at mem
  exact List.mem_range.mp mem

/-- An index reads no position past the last element. -/
theorem position_lt (h : s.Within index) : s.position index < s.numel := positionIn_lt h

theorem mem_indices : index ∈ s.indices ↔ s.Within index := by
  unfold indices
  split
  · rename_i none
    refine ⟨nofun, fun within => ?_⟩
    have lt := position_lt within
    rw [none] at lt
    exact absurd lt (Nat.not_lt_zero _)
  · exact mem_indicesOf

theorem indices_map_position (s : Shape) : s.indices.map s.position = List.range s.numel := by
  unfold indices
  split
  · rename_i none
    rw [none]
    rfl
  · exact indicesOf_map_positionIn s.dims

theorem length_indices (s : Shape) : s.indices.length = s.numel := by
  rw [← List.length_map, indices_map_position, List.length_range]

/-- Every position is that of an index. -/
theorem exists_within (lt : k < s.numel) : ∃ index, s.Within index ∧ s.position index = k := by
  rw [← List.mem_range, ← indices_map_position] at lt
  obtain ⟨index, mem, eq⟩ := List.mem_map.mp lt
  exact ⟨index, mem_indices.mp mem, eq⟩

/-- An index stands at its position. -/
theorem getElem?_position (h : s.Within index) : s.indices[s.position index]? = some index := by
  obtain ⟨k, place⟩ := List.mem_iff_getElem?.mp (mem_indices.mpr h)
  have same : (s.indices.map s.position)[k]? = some (s.position index) := by
    rw [List.getElem?_map, place]
    rfl
  rw [indices_map_position] at same
  obtain ⟨_, eq⟩ := List.getElem?_eq_some_iff.mp same
  rw [List.getElem_range] at eq
  rw [← eq]
  exact place

/-! ## Common shapes -/

/-- An axis stretches to one of its own size, and to any if its size is one. -/
def Stretch (x d : Nat) : Prop := x = 1 ∨ x = d

/-- The axes of a shape stretch to the last axes of another. -/
structure Stretches (s c : Shape) : Prop where
  rank : s.rank ≤ c.rank
  axes : List.Forall₂ Stretch s.dims (c.dims.drop (c.rank - s.rank))

theorem stretches_of_padded (rank : s.rank ≤ c.rank)
    (axes : List.Forall₂ Stretch (padded c.rank s.dims) c.dims) :
    s.Stretches c := by
  refine ⟨rank, ?_⟩
  have dropped := List.forall₂_drop (c.rank - s.rank) axes
  have length : (List.replicate (c.rank - s.rank) 1).length = c.rank - s.rank :=
    List.length_replicate
  have padding : padded c.rank s.dims = List.replicate (c.rank - s.rank) 1 ++ s.dims := rfl
  rwa [padding, List.drop_left' length] at dropped

theorem stretch_of_axis {x y d : Nat} (h : axis x y = some d) : Stretch x d ∧ Stretch y d := by
  unfold axis at h
  split at h
  · rename_i eq
    cases h
    exact ⟨.inr rfl, .inr eq.symm⟩
  · split at h
    · rename_i one
      cases h
      exact ⟨.inl one, .inr rfl⟩
    · split at h
      · rename_i one
        cases h
        exact ⟨.inr rfl, .inl one⟩
      · cases h

theorem length_padded {rank : Nat} (h : dims.length ≤ rank) : (padded rank dims).length = rank := by
  rw [padded, List.length_append, List.length_replicate, Nat.sub_add_cancel h]

theorem stretches_of_broadcast (h : a.broadcast b = some c) : a.Stretches c ∧ b.Stretches c := by
  obtain ⟨dims, axes, rfl⟩ := Option.map_eq_some_iff.mp h
  have left := Nat.le_max_left a.rank b.rank
  have right := Nat.le_max_right a.rank b.rank
  have lengths : (padded (max a.rank b.rank) a.dims).length =
      (padded (max a.rank b.rank) b.dims).length := by
    rw [length_padded left, length_padded right]
  have each := (mapM_eq_some_iff.mp axes).imp fun p d h => stretch_of_axis h
  have rank : dims.length = max a.rank b.rank := by
    rw [← each.length_eq, List.length_zip, ← lengths, Nat.min_self, length_padded left]
  have firsts : List.Forall₂ Stretch (padded (max a.rank b.rank) a.dims) dims := by
    rw [← List.map_fst_zip (Nat.le_of_eq lengths), List.forall₂_map_left_iff]
    exact each.imp fun _ _ h => h.1
  have seconds : List.Forall₂ Stretch (padded (max a.rank b.rank) b.dims) dims := by
    rw [← List.map_snd_zip (Nat.le_of_eq lengths.symm), List.forall₂_map_left_iff]
    exact each.imp fun _ _ h => h.2
  rw [← rank] at left right firsts seconds
  exact ⟨stretches_of_padded left firsts, stretches_of_padded right seconds⟩

/-- An index of a common shape reads an index of the shape that stretches to it. -/
theorem Stretches.within_restrict (h : s.Stretches c) (within : c.Within index) :
    s.Within (s.restrict index) := by
  have aligned := List.forall₂_drop (c.rank - s.rank) within
  have length : index.length = c.rank := within.length_eq
  unfold Within restrict
  rw [length]
  generalize index.drop (c.rank - s.rank) = index at aligned
  have axes := h.axes
  generalize c.dims.drop (c.rank - s.rank) = sizes at aligned axes
  generalize s.dims = dims at axes
  induction axes generalizing index with
  | nil => exact .nil
  | @cons x d _ _ stretch _ ih =>
    cases aligned with
    | cons lt aligned =>
      refine .cons ?_ (ih _ aligned)
      dsimp only
      split
      · rename_i one
        rw [one]
        exact Nat.one_pos
      · rename_i many
        rw [stretch.resolve_left many]
        exact lt

end Shape

/-! ## Elements -/

namespace Tensor

variable {f : Float → Float → Float} {a b t u : Tensor} {c : Shape} {index : List Nat}

theorem fills_iff : t.fills = true ↔ t.shape.numel = t.data.length := decide_eq_true_iff

/-- The element of a tensor at an index. -/
def at? (t : Tensor) (index : List Nat) : Option Float := t.data[t.shape.position index]?

/-- A tensor that fills its shape has an element at every index of it. -/
theorem exists_at? (h : t.fills = true) (within : t.shape.Within index) : ∃ x, t.at? index = some x := by
  have lt := Shape.position_lt within
  rw [fills_iff.mp h] at lt
  exact ⟨_, List.getElem?_eq_getElem lt⟩

/-- Tensors of one shape that fill it and have the same elements are the same. -/
theorem ext_at (ht : t.fills = true) (hu : u.fills = true) (shape : t.shape = u.shape)
    (same : ∀ index, t.shape.Within index → t.at? index = u.at? index) : t = u := by
  obtain ⟨s, xs⟩ := t
  obtain ⟨s', ys⟩ := u
  obtain rfl : s = s' := shape
  have left : s.numel = xs.length := fills_iff.mp ht
  have right : s.numel = ys.length := fills_iff.mp hu
  congr 1
  refine List.ext_getElem? fun k => ?_
  rcases Nat.lt_or_ge k s.numel with lt | ge
  · obtain ⟨index, within, rfl⟩ := Shape.exists_within lt
    exact same index within
  · rw [List.getElem?_eq_none (left ▸ ge), List.getElem?_eq_none (right ▸ ge)]

/-- A tensor of the common shape combines two tensors element by element. -/
structure Combines (f : Float → Float → Float) (a b t : Tensor) : Prop where
  fills : t.fills = true
  shape : a.shape.broadcast b.shape = some t.shape
  element : ∀ index, t.shape.Within index → ∃ x y, a.at? (a.shape.restrict index) = some x ∧
    b.at? (b.shape.restrict index) = some y ∧ t.at? index = some (f x y)

theorem Combines.unique (ht : Combines f a b t) (hu : Combines f a b u) : t = u := by
  have shape : t.shape = u.shape := Option.some.inj (ht.shape.symm.trans hu.shape)
  refine ext_at ht.fills hu.fills shape fun index within => ?_
  obtain ⟨x, y, left, right, here⟩ := ht.element index within
  obtain ⟨x', y', left', right', there⟩ := hu.element index (shape ▸ within)
  rw [here, there, Option.some.inj (left.symm.trans left'), Option.some.inj (right.symm.trans right')]

theorem getD_of_at? {x : Float} (h : t.at? index = some x) :
    t.data.toArray.getD (t.shape.position index) 0.0 = x := by
  have h : t.data[t.shape.position index]? = some x := h
  rw [Array.getD_eq_getD_getElem?, List.getElem?_toArray, h]
  rfl

/-- Tensors that fill their shapes combine where the shapes have a common shape. -/
theorem exists_zipWith? (ha : a.fills = true) (hb : b.fills = true)
    (common : a.shape.broadcast b.shape = some c) :
    ∃ t, zipWith? f a b = some t ∧ t.shape = c ∧ Combines f a b t := by
  obtain ⟨left, right⟩ := Shape.stretches_of_broadcast common
  unfold zipWith?
  rw [ha, hb, common]
  refine ⟨_, rfl, rfl, ?_, common, fun index within => ?_⟩
  · rw [fills_iff, List.length_map, Shape.length_indices]
  · obtain ⟨x, hx⟩ := exists_at? ha (left.within_restrict within)
    obtain ⟨y, hy⟩ := exists_at? hb (right.within_restrict within)
    refine ⟨x, y, hx, hy, ?_⟩
    unfold at?
    rw [List.getElem?_map, Shape.getElem?_position within, Option.map_some, getD_of_at? hx,
      getD_of_at? hy]

end Tensor

end Regraft
