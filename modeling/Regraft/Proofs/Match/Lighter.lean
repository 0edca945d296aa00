import Regraft.Proofs.Match.Gives

/-
  What a variable gets in a match is the matched tree itself, or it counts less: it has less mass, or the
  same mass and a smaller size (`Tree.Lighter`). A tree that agrees with another counts as much. So a
  variable inside a pattern that gets a tree agreeing with the matched one gets just that tree
  (`Matches.eq_of_agree`).
-/

namespace Regraft

namespace Tree

variable {F : Facts} {op : String} {t u w : Tree}

/-! ## Trees that count less -/

/-- Less mass, or the same mass and a smaller size. -/
def Lighter (F : Facts) (u t : Tree) : Prop :=
  u.mass F < t.mass F ∨ u.mass F = t.mass F ∧ u.size < t.size

theorem Lighter.trans (h : Lighter F u t) (h' : Lighter F w u) : Lighter F w t := by
  unfold Lighter at *
  omega

theorem mass_le_of_mem {args : List Tree} {attrs : Attrs} (h : t ∈ args) :
    t.mass F ≤ (app op args attrs).mass F := by
  rw [mass_app]
  unfold operands
  split
  · rename_i chain
    have le : ((t.items op).map (mass F)).sum ≤ ((args.flatMap (items op)).map (mass F)).sum := by
      rw [List.flatMap_def, List.map_flatten, List.sum_flatten, List.map_map, List.map_map]
      exact le_sum (List.mem_map_of_mem h)
    exact Nat.le_trans (mass_le_items chain t) (Nat.succ_le_succ le)
  · exact Nat.le_succ_of_le (mass_le_sum h)

/-- A part of a tree counts less, if it is not the whole. -/
theorem Sub.lighter (h : Sub u t) : u = t ∨ Lighter F u t := by
  induction h with
  | refl => exact .inl rfl
  | @operand op args attrs t mem _ ih =>
    have below : Lighter F t (app op args attrs) := by
      have mass : t.mass F ≤ (app op args attrs).mass F := mass_le_of_mem mem
      have size : t.size < (app op args attrs).size := size_lt mem
      unfold Lighter
      omega
    rcases ih with rfl | ih
    · exact .inr below
    · exact .inr (below.trans ih)

theorem sub_of_mem_items (h : u ∈ t.items op) : Sub u t := by
  induction t with
  | app f args attrs ih =>
    by_cases hf : f = op
    · subst hf
      rw [items_app_self, List.mem_flatMap] at h
      obtain ⟨t, ht, hu⟩ := h
      exact .operand ht (ih t ht hu)
    · rw [items_of_not_isApp (t := app f args attrs) hf, List.mem_singleton] at h
      exact h ▸ .refl
  | _ => exact List.mem_singleton.mp h ▸ .refl

/-! ## Trees that agree -/

theorem map_eq_of_zip {β : Type*} {f : Tree → β} {xs ys : List Tree} (length : xs.length = ys.length)
    (h : ∀ p ∈ xs.zip ys, f p.1 = f p.2) : xs.map f = ys.map f := by
  have fst : (xs.zip ys).map Prod.fst = xs := List.map_fst_zip (Nat.le_of_eq length)
  have snd : (xs.zip ys).map Prod.snd = ys := List.map_snd_zip (Nat.le_of_eq length.symm)
  calc xs.map f = (xs.zip ys).map (f ∘ Prod.fst) := by rw [← List.map_map, fst]
    _ = (xs.zip ys).map (f ∘ Prod.snd) := List.map_congr_left h
    _ = ys.map f := by rw [← List.map_map, snd]

theorem Agree.massBelow_eq (h : Agree t u) (above : Option String) :
    t.massBelow F above = u.massBelow F above := by
  induction h generalizing above with
  | refl => rfl
  | leaf => rfl
  | app length _ _ ih =>
    rw [massBelow, massBelow, massesBelow_eq_sum, massesBelow_eq_sum,
      map_eq_of_zip length fun p hp => ih p hp _]

theorem Agree.size_eq (h : Agree t u) : t.size = u.size := by
  induction h with
  | refl => rfl
  | leaf => rfl
  | app length _ _ ih => rw [size_app, size_app, map_eq_of_zip length ih]

theorem Agree.not_lighter (h : Agree u t) : ¬ Lighter F u t := by
  have mass : u.mass F = t.mass F := h.massBelow_eq none
  have size := h.size_eq
  unfold Lighter
  omega

/-! ## Stretches of a chain -/

namespace Strand

/-- A stretch that stands as a part of a tree. -/
structure Covers (op : String) (whole : Tree) (items : List Tree) (span : Nat × Nat × Tree) : Prop where
  sub : Sub span.2.2 whole
  bounds : span.1 ≤ span.2.1 ∧ span.2.1 ≤ items.length
  items_eq : (items.drop span.1).take (span.2.1 - span.1) = span.2.2.items op

theorem Covers.append {whole : Tree} {items more : List Tree} {span : Nat × Nat × Tree}
    (h : Covers op whole items span) : Covers op whole (items ++ more) span where
  sub := h.sub
  bounds := by
    have := h.bounds
    rw [List.length_append]
    omega
  items_eq := by
    have := h.bounds
    rw [← h.items_eq, List.drop_append_of_le_length (by omega),
      List.take_append_of_le_length (by rw [List.length_drop]; omega)]

/-- The chain has some items, and its stretches are parts of a tree. -/
structure Reads (op : String) (whole : Tree) (c : Strand) (items : List Tree) : Prop where
  items_eq : c.items = items
  covers : ∀ span ∈ c.spans, Covers op whole c.items span

/-- A single item more. -/
theorem Reads.item {whole : Tree} {c : Strand} {items : List Tree} (h : Reads op whole c items)
    (ht : ¬ t.IsApp op) : Reads op whole (append op c t) (items ++ t.items op) := by
  rw [append_of_not_isApp c ht, items_of_not_isApp ht]
  exact ⟨congrArg (· ++ [t]) h.items_eq, fun span hs => (h.covers span hs).append⟩

theorem append_reads {whole : Tree} {c : Strand} {items : List Tree} (h : Reads op whole c items)
    (ht : Sub t whole) : Reads op whole (append op c t) (items ++ t.items op) := by
  induction t generalizing c items with
  | app f args attrs ih =>
    by_cases hf : f = op
    · subst hf
      have all : ∀ ts : List Tree, (∀ t ∈ ts, t ∈ args) → ∀ c items, Reads f whole c items →
          Reads f whole (appendAll f c ts) (items ++ ts.flatMap (Tree.items f)) := by
        intro ts
        induction ts with
        | nil =>
          intro _ c items h
          rw [appendAll, List.flatMap_nil, List.append_nil]
          exact h
        | cons t rest ihTs =>
          intro mem c items h
          rw [List.forall_mem_cons] at mem
          rw [appendAll, List.flatMap_cons, ← List.append_assoc]
          exact ihTs mem.2 _ _ (ih t mem.1 h (ht.trans (.operand mem.1 .refl)))
      have inner := all args (fun _ h => h) c items h
      rw [append, if_pos rfl, items_app_self]
      refine ⟨inner.items_eq, fun span hs => ?_⟩
      rcases List.mem_append.mp hs with hs | hs
      · exact inner.covers span hs
      · rw [List.mem_singleton.mp hs]
        refine ⟨ht, ?_, ?_⟩
        · show c.items.length ≤ (appendAll f c args).items.length ∧ _
          rw [inner.items_eq, h.items_eq, List.length_append]
          exact ⟨Nat.le_add_right .., Nat.le_refl _⟩
        · show ((appendAll f c args).items.drop c.items.length).take
            ((appendAll f c args).items.length - c.items.length) = _
          rw [inner.items_eq, h.items_eq, List.drop_left, items_app_self]
          exact List.take_of_length_le (by rw [List.length_append]; omega)
    · exact h.item hf
  | _ => exact h.item id

theorem of_reads (op : String) (t : Tree) : Reads op t (Strand.of op t) (t.items op) :=
  append_reads ⟨rfl, fun _ h => absurd h List.not_mem_nil⟩ .refl

/-- A chain stands as a whole. -/
theorem whole_mem (h : t.IsApp op) : (0, (t.items op).length, t) ∈ (Strand.of op t).spans := by
  have items := (of_reads op t).items_eq
  cases t with
  | app f args attrs =>
    obtain rfl : f = op := h
    rw [Strand.of, append, if_pos rfl] at items ⊢
    rw [← items]
    exact List.mem_append_right _ (List.mem_singleton.mpr rfl)
  | _ => cases h

theorem items_foldl (t : Tree) (rest : List Tree) :
    (rest.foldl (fun t u => .app op [t, u] .unspecified) t).items op =
      t.items op ++ rest.flatMap (Tree.items op) := by
  induction rest generalizing t with
  | nil => rw [List.foldl_nil, List.flatMap_nil, List.append_nil]
  | cons u rest ih =>
    rw [List.foldl_cons, ih, items_app_self, List.flatMap_cons, List.flatMap_singleton,
      List.append_assoc, ← List.flatMap_cons]

theorem consecutive_range {n : Nat} (pos : 0 < n) : Chain.consecutive (List.range n) = some (0, n) := by
  obtain ⟨k, rfl⟩ := Nat.exists_eq_succ_of_ne_zero (Nat.ne_of_gt pos)
  have head : (List.range (k + 1)).head? = some 0 := by
    rw [List.range_succ_eq_map]
    rfl
  have last : (List.range (k + 1)).getLast? = some k := by simp [List.range_succ]
  unfold Chain.consecutive
  simp [head, last]

variable {positions : List Nat} {g : Tree}

/-- A group has the items at its positions as its chain, and is a part of the tree if they are all. -/
theorem group_spec (ascending : positions.Pairwise (· < ·))
    (h : (Strand.of op t).group op positions = some g) :
    g.items op = positions.filterMap ((t.items op)[·]?) ∧
      (t.IsApp op → positions = List.range (t.items op).length → Sub g t) := by
  have reads := of_reads op t
  have single : ∀ x ∈ positions.filterMap ((t.items op)[·]?), ¬ x.IsApp op := by
    intro x hx
    obtain ⟨i, -, hi⟩ := List.mem_filterMap.mp hx
    exact not_isApp_of_mem_items (List.mem_of_getElem? hi)
  unfold group at h
  rw [reads.items_eq] at h
  split at h
  · cases h
  · rename_i x eq
    obtain rfl := Option.some.inj h
    rw [eq] at single ⊢
    refine ⟨items_of_not_isApp (single x (.head _)), fun _ all => ?_⟩
    have mem : x ∈ positions.filterMap ((t.items op)[·]?) := eq ▸ .head _
    obtain ⟨i, -, hi⟩ := List.mem_filterMap.mp mem
    exact sub_of_mem_items (List.mem_of_getElem? hi)
  · rename_i x rest no eq
    rw [eq] at single ⊢
    split at h
    · rename_i span found
      cases h
      obtain ⟨⟨first, stop⟩, cons, found⟩ := Option.bind_eq_some_iff.mp found
      have covers := reads.covers span (List.mem_of_find?_eq_some found)
      refine ⟨?_, fun _ _ => covers.sub⟩
      obtain ⟨head, last, getLast, rfl, gapless⟩ := Chain.consecutive_eq_some cons
      have bounds := List.find?_some found
      simp only [decide_eq_true_eq] at bounds
      have range := eq_range'_of_ascending ascending head getLast gapless
      rw [← covers.items_eq, ← eq, range, filterMap_range', bounds.1, bounds.2, gapless,
        reads.items_eq]
      simp
    · rename_i none
      obtain rfl := Option.some.inj h
      refine ⟨?_, fun isApp all => ?_⟩
      · rw [items_foldl, items_of_not_isApp (single x (.head _)), flatMap_items_of_not_isApp]
        · rfl
        · exact fun y hy => single y (.tail _ hy)
      · -- The whole tree is a stretch that covers all positions.
        have mem : x ∈ positions.filterMap ((t.items op)[·]?) := eq ▸ .head _
        obtain ⟨i, -, hi⟩ := List.mem_filterMap.mp mem
        have pos := Nat.zero_lt_of_lt (List.getElem?_eq_some_iff.mp hi).1
        have found := List.find?_eq_none.mp
          (Option.bind_eq_none_iff.mp none _ (all ▸ consecutive_range pos)) _ (whole_mem isApp)
        simp at found

end Strand

/-! ## Lineups and matches -/

/-- What is paired with an operand of a pattern counts less than the tree, if it is not the tree. -/
theorem Lineup.lighter {ps : List (Tree × Tree)} (h : Lineup F t u ps) :
    ∀ p ∈ ps, p.1 = t ∨ Lighter F p.1 t := by
  intro p hp
  cases h with
  | @pair op xs ys zs a b length arranged =>
    have mem := arranged.perm.mem_iff.mpr (List.of_mem_zip hp).1
    exact .inr (.inl (mass_lt_of_mem mem))
  | @group op xs ys ts a b assignment chain longer absorbs length bound ok made =>
    have items : (app op xs a).items op = operands F op xs := by
      rw [items_app_self, operands, if_pos chain]
    have spec := fun slot g (h : (Strand.of op (app op xs a)).group op
        (Search.members assignment slot) = some g) =>
      Strand.group_spec (Search.members_ascending assignment slot) h
    rw [items] at spec
    have given : ∀ slot < (operands F op ys).length, Search.members assignment slot ≠ [] := by
      intro slot hslot nil
      obtain ⟨g, -, hg⟩ := exists_of_forall₂_right made.flip (List.mem_range.mpr hslot)
      rw [nil] at hg
      cases hg
    have light : ∀ g ∈ ts, g.mass F ≤ (app op xs a).mass F ∧
        (2 ≤ ts.length → g.mass F < (app op xs a).mass F) :=
      mass_groups chain rfl length bound given (made.imp fun slot g h => (spec slot g h).1)
    have mem := (List.of_mem_zip hp).1
    obtain ⟨slot, hslot, hg⟩ := exists_of_forall₂_right made mem
    have count := made.length_eq
    rw [List.length_range] at count
    by_cases two : 2 ≤ ts.length
    · exact .inr (.inl ((light p.1 mem).2 two))
    · -- A single slot takes all items.
      have one : (operands F op ys).length = 1 := by
        have := List.length_pos_of_mem mem
        omega
      have zero : slot = 0 := by
        have := List.mem_range.mp hslot
        omega
      have all : Search.members assignment slot = List.range (operands F op xs).length := by
        rw [Search.members, length]
        refine List.filter_eq_self.mpr fun i hi => ?_
        have lt : i < assignment.length := length ▸ List.mem_range.mp hi
        have := bound _ (List.getElem_mem lt)
        rw [decide_eq_true_eq, List.getElem?_eq_getElem lt, zero]
        exact congrArg some (by omega)
      exact ((spec slot p.1 hg).2 rfl all).lighter

/-- What a variable gets is one of the matched trees, or counts less than one. -/
theorem Matches.lighter {ps : List (Tree × Tree)} {θ : UInt32 → Tree} {v : UInt32}
    (h : Matches F ps θ) (hv : ∃ p ∈ ps, p.2.HasVar v) :
    ∃ p ∈ ps, θ v = p.1 ∨ Lighter F (θ v) p.1 := by
  have tail : ∀ {p : Tree × Tree} {rest : List (Tree × Tree)} {u : Tree},
      (∃ q ∈ rest, u = q.1 ∨ Lighter F u q.1) → ∃ q ∈ p :: rest, u = q.1 ∨ Lighter F u q.1 :=
    fun ⟨q, hq, le⟩ => ⟨q, .tail _ hq, le⟩
  induction h with
  | nil => exact absurd hv (by simp)
  | @same t rest θ ground later ih =>
    obtain ⟨p, hp, has⟩ := hv
    rcases List.mem_cons.mp hp with rfl | hp
    · exact absurd has (ground v)
    · exact tail (ih ⟨p, hp, has⟩)
  | @bind t w rest θ ground later ih =>
    by_cases eq : v = w
    · subst eq
      rw [andThen, only_self, ground.subst]
      exact ⟨_, .head _, .inl rfl⟩
    · rw [andThen, only_of_ne eq, subst_var]
      have there : ∃ p ∈ rest, p.2.HasVar v := by
        obtain ⟨p, hp, has⟩ := hv
        rcases List.mem_cons.mp hp with rfl | hp
        · exact absurd (hasVar_var.mp has) eq
        · exact ⟨p, hp, has⟩
      obtain ⟨p, hp, le⟩ := ih ((exists_hasVar_fill ground).mpr ⟨eq, there⟩)
      obtain ⟨q, hq, rfl⟩ := List.mem_map.mp hp
      exact ⟨q, .tail _ hq, le⟩
  | @leaf l m rest θ value later ih =>
    obtain ⟨p, hp, has⟩ := hv
    rcases List.mem_cons.mp hp with rfl | hp
    · exact absurd has not_hasVar_leaf
    · exact tail (ih ⟨p, hp, has⟩)
  | @app op xs ys a b pairs rest θ fits lineup later ih =>
    have there : ∃ p ∈ pairs ++ rest, p.2.HasVar v := by
      simpa only [List.mem_cons, List.mem_append, or_and_right, exists_or, exists_eq_left,
        lineup.hasVar] using hv
    obtain ⟨p, hp, le⟩ := ih there
    rcases List.mem_append.mp hp with hp | hp
    · refine ⟨_, .head _, ?_⟩
      rcases le with eq | le
      · exact eq ▸ lineup.lighter p hp
      · rcases lineup.lighter p hp with eq | below
        · exact .inr (eq ▸ le)
        · exact .inr (below.trans le)
    · exact tail ⟨p, hp, le⟩

/-- What a variable of a pattern gets is the matched tree if it agrees with that. -/
theorem Matches.eq_of_agree {θ : UInt32 → Tree} {v : UInt32} (h : Matches F [(t, u)] θ)
    (hv : u.HasVar v) (agree : Agree (θ v) t) : θ v = t := by
  obtain ⟨p, hp, le⟩ := h.lighter ⟨(t, u), .head _, hv⟩
  rw [List.mem_singleton.mp hp] at le
  exact le.resolve_right agree.not_lighter

end Tree

end Regraft
