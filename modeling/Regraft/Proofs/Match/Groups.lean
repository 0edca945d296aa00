import Regraft.Match.Modulo
import Regraft.Proofs.Match.Chain

/-
  Handing the operands of a chain to slots. The members of the slots are all positions, each once
  (`members_perm`), so that the groups made for the slots together have the whole chain as operands. Every
  way to match operands is among the ways that are tried: a permutation of operands comes from an order of
  their positions (`exists_order`), and operands that are split up among slots are handed to them by some
  assignment (`exists_assignment`).
-/

namespace Regraft

namespace Search

/-! ## Members -/

theorem mem_members {assignment : List Nat} {slot i : Nat} :
    i ∈ members assignment slot ↔ assignment[i]? = some slot := by
  unfold members
  rw [List.mem_filter, List.mem_range, decide_eq_true_eq, and_iff_right_iff_imp]
  intro h
  exact (List.getElem?_eq_some_iff.mp h).1

theorem members_ascending (assignment : List Nat) (slot : Nat) :
    (members assignment slot).Pairwise (· < ·) := List.pairwise_lt_range.filter _

theorem range_filterMap {α : Type*} (xs : List α) :
    (List.range xs.length).filterMap (xs[·]?) = xs := by
  rw [List.range_eq_range', filterMap_range', List.drop_zero, List.take_length]

/-- An order of the positions gives a permutation. -/
theorem filterMap_perm {α : Type*} {xs : List α} {order : List Nat}
    (h : order.Perm (List.range xs.length)) : (order.filterMap (xs[·]?)).Perm xs := by
  have perm := h.filterMap (xs[·]?)
  rwa [range_filterMap] at perm

theorem length_members (assignment : List Nat) (slot : Nat) :
    (members assignment slot).length = assignment.count slot := by
  conv => rhs; rw [← range_filterMap assignment]
  rw [members, ← List.countP_eq_length_filter, List.count, List.countP_filterMap]
  refine List.countP_congr fun i _ => ?_
  cases assignment[i]? <;> simp

/-- The members of all slots are all positions, each once. -/
theorem members_perm {assignment : List Nat} {slots : Nat} (h : ∀ d ∈ assignment, d < slots) :
    ((List.range slots).flatMap (members assignment)).Perm (List.range assignment.length) := by
  refine (List.perm_ext_iff_of_nodup ?_ List.nodup_range).mpr fun i => ?_
  · rw [List.nodup_flatMap]
    refine ⟨fun slot _ => List.nodup_range.filter _, ?_⟩
    refine List.nodup_range.imp fun {a b} ne => ?_
    intro i ha hb
    rw [mem_members] at ha hb
    exact ne (Option.some.inj (ha.symm.trans hb))
  · rw [List.mem_flatMap, List.mem_range]
    constructor
    · rintro ⟨slot, -, hi⟩
      exact (List.getElem?_eq_some_iff.mp (mem_members.mp hi)).1
    · intro hi
      refine ⟨assignment[i], List.mem_range.mpr (h _ (List.getElem_mem hi)), ?_⟩
      exact mem_members.mpr (List.getElem?_eq_getElem hi)

/-- The operands of all slots are all operands. -/
theorem flatMap_members_perm {α : Type*} {xs : List α} {assignment : List Nat} {slots : Nat}
    (length : assignment.length = xs.length) (h : ∀ d ∈ assignment, d < slots) :
    ((List.range slots).flatMap fun slot => (members assignment slot).filterMap (xs[·]?)).Perm
      xs := by
  have perm := (members_perm h).filterMap (xs[·]?)
  rw [length, range_filterMap, List.filterMap_flatMap] at perm
  exact perm

/-! ## Groups -/

variable {op : String} {s : Subst} {st st' : Store} {has : Tree.Label → Prop}

/-- The groups that are made for slots. -/
theorem groups_made (hs : s.Sound st) (two : has (.node op 2 .unspecified)) {trees : List Tree}
    {long : Chain} (h : Chain.Reads op s st has trees long) (overs : ∀ x ∈ trees, x.Over has)
    (single : ∀ x ∈ trees, ¬ x.IsApp op) {assignment : List Nat}
    (length : assignment.length = long.items.length) {slots : List Nat}
    (given : ∀ slot ∈ slots, members assignment slot ≠ []) :
    ∃ ts st', groups op long assignment slots st = (some ts, st') ∧ st.Grows st' ∧
      List.Forall₂ (fun slot t => st'.Stored t ∧ (s.tree st' t).Over has ∧
        (s.tree st' t).items op = (members assignment slot).filterMap (trees[·]?)) slots ts := by
  induction slots generalizing st with
  | nil => exact ⟨[], st, rfl, .refl st, .nil⟩
  | cons slot rest ih =>
    rw [List.forall_mem_cons] at given
    have ne : (members assignment slot).filterMap (long.items[·]?) ≠ [] := by
      obtain ⟨i, hi⟩ := List.exists_mem_of_ne_nil _ given.1
      have bound := (List.getElem?_eq_some_iff.mp (mem_members.mp hi)).1
      rw [length] at bound
      exact List.ne_nil_of_mem (List.mem_filterMap.mpr ⟨i, hi, List.getElem?_eq_getElem bound⟩)
    obtain ⟨t, st₁, group, made⟩ := Chain.group_made hs two h overs single
      (members_ascending assignment slot) ne
    obtain ⟨ts, st₂, groups, grows, all⟩ := ih (hs.grows made.grows) (h.grows hs made.grows) given.2
    refine ⟨t :: ts, st₂, ?_, made.grows.trans grows, .cons ⟨grows.stored made.stored, ?_⟩ all⟩
    · rw [Search.groups, group]
      simp only [groups]
    · rw [(hs.grows made.grows).tree_grows grows made.stored]
      exact ⟨made.labels, made.items_eq⟩

end Search

namespace Search

variable {α β : Type*}

/-- A permutation of a list takes its items in some order of the positions. -/
theorem exists_order {xs zs : List α} (h : zs.Perm xs) :
    ∃ order : List Nat, order.Perm (List.range xs.length) ∧ order.filterMap (xs[·]?) = zs := by
  have positions : List.Forall₂ (fun x i => xs[i]? = some x) xs (List.range xs.length) := by
    refine List.forall₂_iff_get.mpr ⟨by rw [List.length_range], fun i hi _ => ?_⟩
    simp
  obtain ⟨order, taken, perm⟩ := List.perm_comp_forall₂ h positions
  refine ⟨order, perm, ?_⟩
  clear perm positions h
  induction taken with
  | nil => rfl
  | cons hx _ ih => rw [List.filterMap_cons_some hx, ih]

/-- Items at the same positions of two lists are related when the lists are. -/
theorem forall₂_filterMap {R : α → β → Prop} {xs : List α} {ys : List β}
    (h : List.Forall₂ R xs ys) (positions : List Nat) :
    List.Forall₂ R (positions.filterMap (xs[·]?)) (positions.filterMap (ys[·]?)) := by
  induction positions with
  | nil => exact .nil
  | cons i rest ih =>
    by_cases hi : i < xs.length
    · have hj : i < ys.length := h.length_eq ▸ hi
      rw [List.filterMap_cons_some (List.getElem?_eq_getElem hi),
        List.filterMap_cons_some (List.getElem?_eq_getElem hj)]
      exact .cons (h.get hi hj) ih
    · have hj : ¬ i < ys.length := h.length_eq ▸ hi
      rw [List.filterMap_cons_none (List.getElem?_eq_none (by omega)),
        List.filterMap_cons_none (List.getElem?_eq_none (by omega))]
      exact ih

/-! ## Tagged items -/

/-- The items of some parts, each with the number of its part, counted from `n`. -/
def tagged (parts : List (List α)) (n : Nat) : List (α × Nat) :=
  (parts.zipIdx n).flatMap fun part => part.1.map (·, part.2)

theorem tagged_cons (part : List α) (parts : List (List α)) (n : Nat) :
    tagged (part :: parts) n = part.map (·, n) ++ tagged parts (n + 1) := rfl

theorem map_fst_tagged (parts : List (List α)) (n : Nat) :
    (tagged parts n).map Prod.fst = parts.flatten := by
  induction parts generalizing n with
  | nil => rfl
  | cons part parts ih =>
    rw [tagged_cons, List.map_append, ih, List.flatten_cons, List.map_map]
    congr 1
    exact List.map_id part

theorem tag_bounds {parts : List (List α)} {n : Nat} {x : α × Nat} (h : x ∈ tagged parts n) :
    n ≤ x.2 ∧ x.2 < n + parts.length := by
  induction parts generalizing n with
  | nil => cases h
  | cons part parts ih =>
    rw [tagged_cons, List.mem_append, List.mem_map] at h
    rw [List.length_cons]
    rcases h with ⟨y, -, rfl⟩ | h
    · exact ⟨Nat.le_refl n, by show n < _; omega⟩
    · have := ih h
      omega

/-- The items with one tag are those of the part of that number. -/
theorem filter_tagged {parts : List (List α)} {part : List α} {n i : Nat}
    (h : parts[i]? = some part) :
    ((tagged parts n).filter (·.2 = n + i)).map Prod.fst = part := by
  induction parts generalizing n i with
  | nil => cases h
  | cons first parts ih =>
    rw [tagged_cons, List.filter_append, List.map_append]
    cases i with
    | zero =>
      obtain rfl : first = part := Option.some.inj h
      have later : (tagged parts (n + 1)).filter (·.2 = n + 0) = [] := by
        refine List.filter_eq_nil_iff.mpr fun x hx => ?_
        have := tag_bounds hx
        simp only [decide_eq_true_eq]
        omega
      have here : (first.map (·, n)).filter (·.2 = n + 0) = first.map (·, n) :=
        List.filter_eq_self.mpr fun x hx => by
          obtain ⟨y, -, rfl⟩ := List.mem_map.mp hx
          simp
      rw [later, here, List.map_map, List.map_nil, List.append_nil]
      exact List.map_id first
    | succ i =>
      have here : (first.map (·, n)).filter (·.2 = n + (i + 1)) = [] := by
        refine List.filter_eq_nil_iff.mpr fun x hx => ?_
        obtain ⟨y, -, rfl⟩ := List.mem_map.mp hx
        simp
      rw [here, List.map_nil, List.nil_append, show n + (i + 1) = n + 1 + i by omega]
      exact ih h

/-- The items that the tags hand to a slot. -/
theorem members_tags (items : List (α × Nat)) (slot : Nat) :
    (members (items.map Prod.snd) slot).filterMap ((items.map Prod.fst)[·]?) =
      (items.filter (·.2 = slot)).map Prod.fst := by
  conv => rhs; rw [← range_filterMap items]
  rw [members, List.filterMap_filter, List.filter_filterMap, List.map_filterMap, List.length_map]
  congr 1
  funext i
  rw [List.getElem?_map, List.getElem?_map]
  cases items[i]? with
  | none => rfl
  | some x =>
    obtain ⟨y, j⟩ := x
    by_cases h : j = slot <;> simp [h]

/-- Items that some parts consist of can be handed to slots so that each slot gets its part. -/
theorem exists_assignment {parts : List (List α)} {zs : List α} (h : zs.Perm parts.flatten) :
    ∃ assignment : List Nat, assignment.length = zs.length ∧
      (∀ slot ∈ assignment, slot < parts.length) ∧ ∀ slot part, parts[slot]? = some part →
        ((members assignment slot).filterMap (zs[·]?)).Perm part := by
  have graph : List.Forall₂ (fun x y => y.1 = x) parts.flatten (tagged parts 0) := by
    rw [← map_fst_tagged parts 0, List.forall₂_map_left_iff, List.forall₂_same]
    exact fun _ _ => rfl
  obtain ⟨items, taken, perm⟩ := List.perm_comp_forall₂ h graph
  have fst : items.map Prod.fst = zs := by
    rw [← List.forall₂_eq_eq_eq, List.forall₂_map_left_iff]
    exact List.Forall₂.flip taken
  refine ⟨items.map Prod.snd, ?_, fun slot hslot => ?_, fun slot part hpart => ?_⟩
  · rw [← fst, List.length_map, List.length_map]
  · obtain ⟨x, hx, rfl⟩ := List.mem_map.mp hslot
    have := tag_bounds (perm.mem_iff.mp hx)
    omega
  · rw [← fst, members_tags, ← filter_tagged (n := 0) hpart, Nat.zero_add]
    exact (perm.filter _).map _

end Search

end Regraft
