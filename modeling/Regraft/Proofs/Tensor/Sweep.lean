import Regraft.Proofs.Tensor.Broadcast

/-
  Combining two tensors by a loop over positions. An index of the common shape is counted up from zero,
  the last axis running fastest (`Shape.advance_cases`), and strides lead from it to the element of an
  operand that it reads (`Shape.Stretches.offset_eq`). Turn by turn the loop finds an element of either
  operand and appends their combination, so that it ends with the combined tensor
  (`Tensor.Combines.turns`), which is there just when both tensors fill their shapes and these have a
  common shape (`Tensor.zipWith?_elementwise`).
-/

namespace Regraft

namespace Shape

variable {s c : Shape} {dims sizes index : List Nat}

/-! ## Strides -/

/-- How far apart neighbours along some last axes of an operand are, zero where an axis is stretched to
    another size, and how many elements these axes hold. -/
def stridesOf : List (Nat × Nat) → List Nat × Nat
  | [] => ([], 1)
  | (d, size) :: axes =>
    let (strides, span) := stridesOf axes
    ((if d = 1 ∧ size ≠ 1 then 0 else span) :: strides, d * span)

/-- The strides of an operand along all axes of a common shape, zero along those that it lacks. -/
def strides (s c : Shape) : List Nat :=
  List.replicate (c.rank - s.rank) 0 ++ (stridesOf (s.dims.zip (c.dims.drop (c.rank - s.rank)))).1

/-- The position that an index leads to with some strides. -/
def offset : List Nat → List Nat → Nat
  | stride :: strides, i :: index => i * stride + offset strides index
  | _, _ => 0

theorem offset_replicate_zero (n : Nat) (index : List Nat) : offset (List.replicate n 0) index = 0 := by
  induction n generalizing index with
  | zero => rfl
  | succ n ih => cases index <;> simp [List.replicate_succ, offset, ih]

theorem offset_append {strides strides' index index' : List Nat} (h : index.length = strides.length) :
    offset (strides ++ strides') (index ++ index') = offset strides index + offset strides' index' := by
  induction strides generalizing index with
  | nil =>
    rw [List.length_eq_zero_iff.mp h]
    simp [offset]
  | cons stride strides ih =>
    cases index with
    | nil => cases h
    | cons i index => simp [offset, ih (Nat.succ.inj h), Nat.add_assoc]

theorem span_stridesOf (h : dims.length = sizes.length) :
    (stridesOf (dims.zip sizes)).2 = dims.foldr (· * ·) 1 := by
  induction dims generalizing sizes with
  | nil => rfl
  | cons d dims ih =>
    cases sizes with
    | nil => cases h
    | cons size sizes => exact congrArg (d * ·) (ih (Nat.succ.inj h))

/-- Along the axes that an operand has, strides lead to the position of the index that is read. -/
theorem offset_stridesOf (axes : List.Forall₂ Stretch dims sizes)
    (within : List.Forall₂ (· < ·) index sizes) :
    offset (stridesOf (dims.zip sizes)).1 index =
      positionIn dims ((dims.zip index).map fun (d, i) => if d = 1 then 0 else i) := by
  induction axes generalizing index with
  | nil => cases within; rfl
  | @cons d size dims sizes stretch axes ih =>
    cases within with
    | @cons i _ index _ lt within =>
      have span := span_stridesOf axes.length_eq
      simp only [List.zip_cons_cons, stridesOf, List.map_cons, positionIn, ← ih within, offset, span]
      congr 1
      unfold Stretch at stretch
      by_cases one : d = 1
      · by_cases stretched : size = 1
        · obtain rfl : i = 0 := by omega
          simp [one, stretched]
        · simp [one, stretched]
      · simp [one]

/-- Strides lead from an index of a common shape to the element that it reads. -/
theorem Stretches.offset_eq (h : s.Stretches c) (within : c.Within index) :
    offset (s.strides c) index = s.position (s.restrict index) := by
  have length : index.length = c.rank := within.length_eq
  have lacking : (index.take (c.rank - s.rank)).length = c.rank - s.rank := by
    rw [List.length_take, length]
    omega
  have aligned := List.forall₂_drop (c.rank - s.rank) within
  unfold strides position restrict
  rw [← offset_stridesOf h.axes (length ▸ aligned), length]
  conv_lhs => rw [← List.take_append_drop (c.rank - s.rank) index]
  rw [offset_append (by rw [lacking, List.length_replicate]), offset_replicate_zero, Nat.zero_add]

/-! ## Counting an index up -/

/-- Count an index up by one, from its last axis. An axis that has reached its size starts again at zero,
    and the axis before it counts; the flag says that all axes have started again. -/
def advance : List Nat → List Nat → List Nat × Bool
  | d :: dims, i :: index =>
    match advance dims index with
    | (index, false) => (i :: index, false)
    | (index, true) => if i + 1 < d then ((i + 1) :: index, false) else (0 :: index, true)
  | _, _ => ([], true)

/-- The index at which counting starts. -/
def zeros (dims : List Nat) : List Nat := List.replicate dims.length 0

theorem zeros_within (within : List.Forall₂ (· < ·) index dims) :
    List.Forall₂ (· < ·) (zeros dims) dims := by
  induction within with
  | nil => exact .nil
  | cons lt _ ih => exact .cons (Nat.zero_lt_of_lt lt) ih

theorem positionIn_zeros (dims : List Nat) : positionIn dims (zeros dims) = 0 := by
  induction dims with
  | nil => rfl
  | cons d dims ih =>
    change 0 * dims.foldr (· * ·) 1 + positionIn dims (zeros dims) = 0
    rw [ih, Nat.zero_mul]

/-- Counting goes to the index at the next position, or from the last one back to the start. -/
theorem advance_cases (within : List.Forall₂ (· < ·) index dims) :
    (∃ next, advance dims index = (next, false) ∧ List.Forall₂ (· < ·) next dims ∧
      positionIn dims next = positionIn dims index + 1) ∨
    (advance dims index = (zeros dims, true) ∧ positionIn dims index + 1 = dims.foldr (· * ·) 1) := by
  induction within with
  | nil => exact .inr ⟨rfl, rfl⟩
  | @cons i d index dims lt within ih =>
    rcases ih with ⟨next, eq, within', position⟩ | ⟨eq, last⟩
    · refine .inl ⟨i :: next, ?_, .cons lt within', ?_⟩
      · simp [advance, eq]
      · simp only [positionIn, position]
        omega
    · by_cases more : i + 1 < d
      · refine .inl ⟨(i + 1) :: zeros dims, ?_, .cons more (zeros_within within), ?_⟩
        · simp [advance, eq, more]
        · simp only [positionIn, positionIn_zeros, ← last, Nat.succ_mul]
          omega
      · obtain rfl : d = i + 1 := by omega
        refine .inr ⟨?_, ?_⟩
        · simp [advance, eq, zeros, List.replicate_succ]
        · simp only [positionIn, List.foldr_cons, ← last, Nat.succ_mul]
          omega

end Shape

/-! ## The loop -/

namespace Tensor

variable {f : Float → Float → Float} {a b t : Tensor} {k : Nat}

/-- The index whose turn it is, and the values so far. -/
structure Sweep where
  index : List Nat
  values : List Float

namespace Sweep

def start (c : Shape) : Sweep := ⟨Shape.zeros c.dims, []⟩

/-- One turn: read an element of either operand, append their combination, and count the index up. There
    is no turn where an operand has no element. -/
def turn (f : Float → Float → Float) (a b : Tensor) (c : Shape) (w : Sweep) : Option Sweep := do
  let x ← a.data[Shape.offset (a.shape.strides c) w.index]?
  let y ← b.data[Shape.offset (b.shape.strides c) w.index]?
  some ⟨(Shape.advance c.dims w.index).1, w.values ++ [f x y]⟩

/-- Some turns, one after the other. -/
def turns (f : Float → Float → Float) (a b : Tensor) (c : Shape) : Nat → Sweep → Option Sweep
  | 0, w => some w
  | n + 1, w => (w.turn f a b c).bind (turns f a b c n)

/-- After `k` turns the first `k` elements of a tensor are there, and the index is at the next one, or
    back at the start when there is none. -/
structure Reaches (t : Tensor) (k : Nat) (w : Sweep) : Prop where
  le : k ≤ t.shape.numel
  inside : k < t.shape.numel → t.shape.Within w.index ∧ t.shape.position w.index = k
  wraps : k = t.shape.numel → w.index = Shape.zeros t.shape.dims
  values : w.values = t.data.take k

theorem reaches_start (t : Tensor) : Reaches t 0 (start t.shape) where
  le := Nat.zero_le _
  inside pos := by
    obtain ⟨index, within, -⟩ := Shape.exists_within pos
    exact ⟨Shape.zeros_within within, Shape.positionIn_zeros _⟩
  wraps _ := rfl
  values := rfl

variable {w : Sweep}

/-- A turn finds both elements. -/
theorem Reaches.turn (h : Combines f a b t) (reaches : Reaches t k w) (lt : k < t.shape.numel) :
    ∃ w', w.turn f a b t.shape = some w' ∧ Reaches t (k + 1) w' := by
  obtain ⟨within, position⟩ := reaches.inside lt
  obtain ⟨left, right⟩ := Shape.stretches_of_broadcast h.shape
  obtain ⟨x, y, hx, hy, here⟩ := h.element w.index within
  unfold at? at hx hy here
  rw [← left.offset_eq within] at hx
  rw [← right.offset_eq within] at hy
  rw [position] at here
  refine ⟨⟨(Shape.advance t.shape.dims w.index).1, w.values ++ [f x y]⟩, ?_, lt, ?_, ?_, ?_⟩
  · simp [Sweep.turn, hx, hy]
  · intro more
    rcases Shape.advance_cases within with ⟨next, eq, within', position'⟩ | ⟨-, last⟩
    · rw [eq]
      exact ⟨within', position'.trans (congrArg (· + 1) position)⟩
    · change t.shape.position w.index + 1 = t.shape.numel at last
      omega
  · intro all
    rcases Shape.advance_cases within with ⟨next, -, within', position'⟩ | ⟨eq, -⟩
    · have bound := Shape.position_lt within'
      change t.shape.position next = t.shape.position w.index + 1 at position'
      omega
    · rw [eq]
  · rw [reaches.values, List.take_add_one, here, Option.toList_some]

theorem Reaches.turns (h : Combines f a b t) (reaches : Reaches t k w) {n : Nat}
    (all : k + n = t.shape.numel) :
    ∃ w', Sweep.turns f a b t.shape n w = some w' ∧ Reaches t t.shape.numel w' := by
  induction n generalizing k w with
  | zero => exact ⟨w, rfl, all ▸ reaches⟩
  | succ n ih =>
    obtain ⟨next, turn, reaches⟩ := reaches.turn h (by omega)
    obtain ⟨last, later, reaches⟩ := ih reaches (by omega)
    exact ⟨last, by rw [Sweep.turns, turn, Option.bind_some, later], reaches⟩

end Sweep

/-- The loop takes a turn for every element and ends with those of the combined tensor. -/
theorem Combines.turns (h : Combines f a b t) :
    Sweep.turns f a b t.shape t.shape.numel (.start t.shape) = some ⟨Shape.zeros t.shape.dims, t.data⟩ := by
  obtain ⟨w, turns, reaches⟩ := (Sweep.reaches_start t).turns h (Nat.zero_add _)
  have values : w.values = t.data := by
    rw [reaches.values, fills_iff.mp h.fills, List.take_length]
  rw [turns, ← values, ← reaches.wraps rfl]

theorem zipWith?_eq_none_iff : zipWith? f a b = none ↔
    a.fills = false ∨ b.fills = false ∨ a.shape.broadcast b.shape = none := by
  unfold zipWith?
  cases a.fills <;> cases b.fills <;> simp

theorem combines_of_zipWith? (h : zipWith? f a b = some t) : Combines f a b t := by
  have here : ¬ (a.fills = false ∨ b.fills = false ∨ a.shape.broadcast b.shape = none) := by
    rw [← zipWith?_eq_none_iff (f := f), h]
    exact Option.some_ne_none t
  simp only [not_or, Bool.not_eq_false, Option.eq_none_iff_forall_ne_some, not_forall, not_not] at here
  obtain ⟨left, right, c, common⟩ := here
  obtain ⟨u, eq, -, combines⟩ := exists_zipWith? (f := f) left right common
  cases h.symm.trans eq
  exact combines

/-- Two tensors cannot be combined just when one of them does not fill its shape or they have no common
    shape. Otherwise the result has the common shape and as many elements as it has positions, and at the
    position of each index stands the combination of the elements that the index reads in the operands.
    The loop with strides makes these elements one after the other, and no turn of it reads a position
    at which there is no element. -/
theorem zipWith?_elementwise (f : Float → Float → Float) (a b : Tensor) :
    (zipWith? f a b = none ↔
      a.fills = false ∨ b.fills = false ∨ a.shape.broadcast b.shape = none) ∧
    ∀ t, zipWith? f a b = some t →
      a.shape.broadcast b.shape = some t.shape ∧
      t.data.length = t.shape.numel ∧
      (∀ index, t.shape.Within index → ∃ x y, a.at? (a.shape.restrict index) = some x ∧
        b.at? (b.shape.restrict index) = some y ∧ t.at? index = some (f x y)) ∧
      Sweep.turns f a b t.shape t.shape.numel (.start t.shape) =
        some ⟨Shape.zeros t.shape.dims, t.data⟩ := by
  refine ⟨zipWith?_eq_none_iff, fun t h => ?_⟩
  have combines := combines_of_zipWith? h
  exact ⟨combines.shape, (fills_iff.mp combines.fills).symm, combines.element, combines.turns⟩

/-- A column and a row: both are stretched, and the row lacks an axis. -/
theorem zipWith?_elementwise_columnRow :
    let column : Tensor := ⟨⟨[2, 1]⟩, [1.0, 2.0]⟩
    let row : Tensor := ⟨⟨[3]⟩, [3.0, 4.0, 5.0]⟩
    let t : Tensor := ⟨⟨[2, 3]⟩, [1.0, 1.0, 1.0, 2.0, 2.0, 2.0]⟩
    zipWith? (fun x _ => x) column row = some t ∧
    t.data.length = t.shape.numel ∧
    (∃ x y, column.at? (column.shape.restrict [1, 2]) = some x ∧
      row.at? (row.shape.restrict [1, 2]) = some y ∧ t.at? [1, 2] = some x) ∧
    Sweep.turns (fun x _ => x) column row t.shape 6 ⟨[0, 0], []⟩ = some ⟨[0, 0], t.data⟩ := by
  intro column row t
  have result : zipWith? (fun x _ => x) column row = some t := by rfl
  obtain ⟨-, length, element, turns⟩ := (zipWith?_elementwise (fun x _ => x) column row).2 t result
  exact ⟨result, length, element [1, 2] (.cons (by decide) (.cons (by decide) .nil)), turns⟩

end Tensor

end Regraft
