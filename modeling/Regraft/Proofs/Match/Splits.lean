import Regraft.Proofs.Match.Groups
import Regraft.Proofs.Match.Enumeration
import Regraft.Proofs.Match.Toward
import Mathlib.Algebra.Order.BigOperators.Group.List
import Mathlib.Algebra.Order.Ring.Nat

/-
  How the chain of a ground term is split up among the operands of a pattern. When the assignment makes
  the two equal, each operand of the pattern becomes a chain of its own, and these parts together are
  the chain of the term. There is a way to hand it out like this (`exists_splits`), it is admissible
  (`Splits.isAdmissible`), and every group is smaller than the whole (`Splits.size_lt`).
-/

namespace Regraft

namespace Search

open Regraft.Tree (Alike Plain IsApp items)

variable {F : Facts} {θ : UInt32 → Tree} {op : String} {s : Subst} {st : Store}
  {short : List TermId} {trees : List Tree} {assignment : List Nat}

/-! ## Numbers -/

/-- A part of several positive numbers is less than their sum. -/
theorem lt_sum {ns : List Nat} (pos : ∀ n ∈ ns, 0 < n) (two : 2 ≤ ns.length) {n : Nat}
    (h : n ∈ ns) : n < ns.sum := by
  obtain ⟨before, after, rfl⟩ := List.append_of_mem h
  rw [List.sum_append, List.sum_cons]
  rw [List.length_append, List.length_cons] at two
  have ge : ∀ {ms : List Nat}, (∀ m ∈ ms, 0 < m) → ms.length ≤ ms.sum := by
    intro ms hm
    simpa using List.card_nsmul_le_sum ms 1 hm
  have := ge fun m hm => pos m (List.mem_append_left _ hm)
  have := ge fun m hm => pos m (List.mem_append_right _ (.tail _ hm))
  omega

theorem length_filterMap_of_lt {α : Type*} {xs : List α} {positions : List Nat}
    (h : ∀ i ∈ positions, i < xs.length) :
    (positions.filterMap (xs[·]?)).length = positions.length := by
  induction positions with
  | nil => rfl
  | cons i rest ih =>
    rw [List.forall_mem_cons] at h
    rw [List.filterMap_cons_some (List.getElem?_eq_getElem h.1), List.length_cons, ih h.2,
      List.length_cons]

/-! ## Parts -/

/-- What an operand of the pattern contributes to the chain of the term. -/
def part (θ : UInt32 → Tree) (op : String) (s : Subst) (st : Store) (u : TermId) : List Tree :=
  items op ((s.tree st u).subst θ)

/-- The operands of a pattern in a chain of an operator. -/
structure Slots (F : Facts) (θ : UInt32 → Tree) (op : String) (s : Subst) (st : Store)
    (short : List TermId) : Prop where
  chain : F.isChain op = true
  sound : s.Sound st
  stored : ∀ u ∈ short, st.Stored u
  single : ∀ u ∈ short, ¬ IsApp op (s.tree st u)
  plain : ∀ u ∈ short, Plain F ((s.tree st u).subst θ)

theorem Slots.length_part (h : Slots F θ op s st short) {u : TermId} (hu : u ∈ short) :
    1 ≤ (part θ op s st u).length := ((h.plain u hu).items_length h.chain).1

theorem Slots.part_of_length (h : Slots F θ op s st short) {u : TermId} (hu : u ∈ short)
    (one : (part θ op s st u).length = 1) : part θ op s st u = [(s.tree st u).subst θ] := by
  refine Tree.items_of_not_isApp fun app => ?_
  have : 2 ≤ (part θ op s st u).length := ((h.plain u hu).items_length h.chain).2 app
  omega

/-- Only a variable contributes several operands. -/
theorem Slots.isVar (h : Slots F θ op s st short) {u : TermId} (hu : u ∈ short)
    (two : 1 < (part θ op s st u).length) : (st.var? (s.deref st u)).isSome = true := by
  have not_app : IsApp op ((s.tree st u).subst θ) := by
    by_contra no
    rw [part, Tree.items_of_not_isApp no, List.length_singleton] at two
    omega
  have single := h.single u hu
  obtain ⟨x, hx⟩ := Store.term?_of_stored (h.sound.stored_deref (h.stored u hu))
  cases x with
  | var v =>
    rw [Store.var?_eq_some_iff.mpr hx]
    rfl
  | leaf l =>
    rw [h.sound.tree_of_leaf hx, Tree.subst_leaf] at not_app
    exact not_app.elim
  | app f args attrs =>
    rw [h.sound.tree_of_app hx] at not_app single
    rw [Tree.subst_app] at not_app
    exact absurd not_app single

theorem Slots.length_le (h : Slots F θ op s st short) :
    short.length ≤ (short.flatMap (part θ op s st)).length := by
  rw [List.length_flatMap]
  simpa using List.card_nsmul_le_sum (short.map fun u => (part θ op s st u).length) 1 fun n hn => by
    obtain ⟨u, hu, rfl⟩ := List.mem_map.mp hn
    exact h.length_part hu

/-- Parts that are together as many as the slots are single trees. -/
theorem Slots.flatMap_part (h : Slots F θ op s st short)
    (length : (short.flatMap (part θ op s st)).length = short.length) :
    short.flatMap (part θ op s st) = short.map fun u => (s.tree st u).subst θ := by
  induction short with
  | nil => rfl
  | cons u rest ih =>
    have rest' : Slots F θ op s st rest := ⟨h.chain, h.sound, fun w hw => h.stored w (.tail _ hw),
      fun w hw => h.single w (.tail _ hw), fun w hw => h.plain w (.tail _ hw)⟩
    have first := h.length_part (List.mem_cons_self ..)
    have others := rest'.length_le
    rw [List.flatMap_cons, List.length_append, List.length_cons] at length
    rw [List.flatMap_cons, List.map_cons, ih rest' (by omega),
      h.part_of_length (List.mem_cons_self ..) (by omega), List.singleton_append]

/-- Parts that are more than the slots come from a variable. -/
theorem Slots.exists_isVar (h : Slots F θ op s st short)
    (length : short.length < (short.flatMap (part θ op s st)).length) :
    (short.map fun u => (st.var? (s.deref st u)).isSome).contains true = true := by
  by_contra none
  have le : (short.flatMap (part θ op s st)).length ≤ short.length := by
    rw [List.length_flatMap]
    simpa using List.sum_le_card_nsmul (short.map fun w => (part θ op s st w).length) 1 fun n hn => by
      obtain ⟨w, hw, rfl⟩ := List.mem_map.mp hn
      by_contra two
      refine none (List.contains_iff_mem.mpr (List.mem_map.mpr ⟨w, hw, ?_⟩))
      exact h.isVar hw (by omega)
  omega

/-! ## Splitting -/

/-- Every slot is handed what its operand contributes. -/
structure Splits (F : Facts) (θ : UInt32 → Tree) (op : String) (s : Subst) (st : Store)
    (short : List TermId) (trees : List Tree) (assignment : List Nat) : Prop where
  length : assignment.length = trees.length
  bound : ∀ slot ∈ assignment, slot < short.length
  pairs : ∀ slot u, short[slot]? = some u →
    F.Pairs (Alike F) op (part θ op s st u) ((members assignment slot).filterMap (trees[·]?))

/-- A chain that the parts pair up with can be handed to the slots. -/
theorem exists_splits (comm : F.isCommutative op = true)
    (h : F.Pairs (Alike F) op (short.flatMap (part θ op s st)) trees) :
    ∃ assignment, Splits F θ op s st short trees assignment := by
  obtain ⟨zs, arranged, alike⟩ := h
  have perm := arranged.perm.symm
  rw [List.flatMap_def] at perm
  obtain ⟨assignment, length, bound, parts⟩ := exists_assignment perm
  rw [List.length_map] at bound
  refine ⟨assignment, length.trans alike.length_eq, bound, fun slot u hu => ?_⟩
  have perm := parts slot (part θ op s st u) (by rw [List.getElem?_map, hu]; rfl)
  exact ⟨_, .inr ⟨comm, perm.symm⟩, forall₂_filterMap alike _⟩

theorem Splits.count (h : Splits F θ op s st short trees assignment) {slot : Nat} {u : TermId}
    (hu : short[slot]? = some u) : assignment.count slot = (part θ op s st u).length := by
  rw [(h.pairs slot u hu).length_eq, length_filterMap_of_lt, length_members]
  intro i hi
  have := (List.getElem?_eq_some_iff.mp (mem_members.mp hi)).1
  rwa [h.length] at this

theorem Splits.isAdmissible (h : Splits F θ op s st short trees assignment)
    (slots : Slots F θ op s st short) :
    admissible (short.map fun u => (st.var? (s.deref st u)).isSome) assignment = true := by
  refine admissible_iff.mpr fun slot absorb hs => ?_
  rw [List.getElem?_map] at hs
  obtain ⟨u, hu, rfl⟩ := Option.map_eq_some_iff.mp hs
  have mem := List.mem_of_getElem? hu
  rw [h.count hu]
  have := slots.length_part mem
  by_cases one : (part θ op s st u).length = 1
  · exact .inl one
  · exact .inr ⟨by omega, slots.isVar mem (by omega)⟩

/-! ## Sizes -/

theorem sum_groups (chain : F.isChain op = true) {gs : List Tree} {slots : List Nat}
    (plain : ∀ g ∈ gs, Plain F g) (made : List.Forall₂ (fun slot g =>
      items op g = (members assignment slot).filterMap (trees[·]?)) slots gs) :
    (gs.map fun g => g.size + 1).sum = ((slots.flatMap fun slot =>
      (members assignment slot).filterMap (trees[·]?)).map fun t => t.size + 1).sum := by
  induction made with
  | nil => rfl
  | cons eq _ ih =>
    rw [List.forall_mem_cons] at plain
    rw [List.map_cons, List.sum_cons, ih plain.2, ← plain.1.sum_items chain, eq, List.flatMap_cons,
      List.map_append, List.sum_append]

/-- A group is smaller than the term whose chain is split. -/
theorem Splits.size_lt (h : Splits F θ op s st short trees assignment)
    (chain : F.isChain op = true) (two : 2 ≤ short.length) {t : Tree} (ht : Plain F t)
    (whole : items op t = trees) {gs : List Tree} (plain : ∀ g ∈ gs, Plain F g)
    (made : List.Forall₂ (fun slot g => items op g =
      (members assignment slot).filterMap (trees[·]?)) (List.range short.length) gs) :
    ∀ g ∈ gs, g.size < t.size := by
  intro g hg
  have length := made.length_eq
  rw [List.length_range] at length
  have total : (gs.map fun g => g.size + 1).sum = t.size + 1 := by
    rw [sum_groups chain plain made, ← ht.sum_items chain, whole]
    exact ((flatMap_members_perm h.length h.bound).map _).sum_eq
  have lt : g.size + 1 < (gs.map fun g => g.size + 1).sum := by
    refine lt_sum (fun n hn => ?_) (by rw [List.length_map]; omega) (List.mem_map_of_mem hg)
    obtain ⟨g, -, rfl⟩ := List.mem_map.mp hn
    exact Nat.succ_pos _
  omega

end Search

end Regraft
