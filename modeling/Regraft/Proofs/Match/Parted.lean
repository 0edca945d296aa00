import Regraft.Proofs.Match.Nesting

/-
  Matching a part of a chain. Whoever leaves some operands of a chain to a variable beside a pattern matches
  the pattern with the others: the operands are parted in two (`Parted`), the pattern matches one of the parts,
  and the variable gets the other one (`Matches.exists_part`). All ways to part the operands are found like this
  (`Matches.of_part`).
-/

namespace Regraft

/-! ## Parts of a list -/

/-- A list is parted in two, each in the order of the list. -/
inductive Parted {α : Type*} : List α → List α → List α → Prop
  | nil : Parted [] [] []
  | left {xs ys zs : List α} (x : α) (h : Parted xs ys zs) : Parted (x :: xs) ys (x :: zs)
  | right {xs ys zs : List α} (y : α) (h : Parted xs ys zs) : Parted xs (y :: ys) (y :: zs)

namespace Parted

variable {α β : Type*} {xs ys zs : List α}

/-- Nothing is lost, doubled or put into both parts. -/
theorem perm (h : Parted xs ys zs) : zs.Perm (xs ++ ys) := by
  induction h with
  | nil => exact .nil
  | left x _ ih => exact ih.cons x
  | right y _ ih => exact (ih.cons y).trans List.perm_middle.symm

theorem whole (xs : List α) : Parted xs [] xs := by
  induction xs with
  | nil => exact .nil
  | cons x _ ih => exact .left x ih

theorem eq_whole (h : Parted xs [] zs) : xs = zs := by
  generalize eq : [] = ys at h
  induction h with
  | nil => rfl
  | left x _ ih => rw [ih eq]
  | right y _ _ => cases eq

theorem map (f : α → β) (h : Parted xs ys zs) : Parted (xs.map f) (ys.map f) (zs.map f) := by
  induction h with
  | nil => exact .nil
  | left x _ ih => exact .left _ ih
  | right y _ ih => exact .right _ ih

theorem of_filter (p : α → Bool) (zs : List α) :
    Parted (zs.filter p) (zs.filter fun z => !p z) zs := by
  induction zs with
  | nil => exact .nil
  | cons z rest ih =>
    cases hz : p z with
    | true => simpa [hz] using .left z ih
    | false => simpa [hz] using .right z ih

/-- Tags of the first part are completed by one for the second part. -/
theorem exists_tagged (h : Parted xs ys zs) {tags : List Nat} (length : tags.length = xs.length)
    {n : Nat} (bound : ∀ d ∈ tags, d < n) : ∃ items : List (α × Nat), items.map Prod.fst = zs ∧
      (∀ z ∈ items, z.2 < n + 1) ∧ (items.filter (·.2 < n)) = xs.zip tags ∧
      (items.filter (·.2 = n)).map Prod.fst = ys := by
  induction h generalizing tags with
  | nil => exact ⟨[], rfl, nofun, by simp, rfl⟩
  | left x _ ih =>
    match tags with
    | d :: tags =>
      rw [List.forall_mem_cons] at bound
      obtain ⟨items, fst, below, first, second⟩ := ih (Nat.succ.inj length) bound.2
      have ne : ¬ d = n := Nat.ne_of_lt bound.1
      refine ⟨(x, d) :: items, by simp [fst],
        List.forall_mem_cons.mpr ⟨Nat.lt_succ_of_lt bound.1, below⟩, ?_, ?_⟩
      · simp [bound.1, first]
      · simp [ne, second]
  | right y _ ih =>
    obtain ⟨items, fst, below, first, second⟩ := ih length bound
    refine ⟨(y, n) :: items, by simp [fst],
      List.forall_mem_cons.mpr ⟨Nat.lt_succ_self n, below⟩, ?_, ?_⟩
    · simp [first]
    · simp [second]

end Parted

namespace Tree

variable {F : Facts} {op : String} {t u g : Tree} {xs ys ts us : List Tree} {a b : Attrs}
  {absorbs : List Bool} {items first : List (Tree × Nat)} {slot : Nat}

/-! ## Handing out a chain -/

/-- The operands of a chain are handed to slots, in a way that is tried, and made into one tree for each. -/
structure Handed (op : String) (t : Tree) (absorbs : List Bool) (items : List (Tree × Nat))
    (ts : List Tree) : Prop where
  items_eq : items.map Prod.fst = t.items op
  bound : ∀ z ∈ items, z.2 < absorbs.length
  ok : admissible absorbs (items.map Prod.snd) = true
  made : List.Forall₂ (fun slot g =>
      (Strand.of op t).group op (Search.members (items.map Prod.snd) slot) = some g)
    (List.range absorbs.length) ts

/-- What a slot is handed. -/
def share (items : List (Tree × Nat)) (slot : Nat) : List Tree :=
  (items.filter (·.2 = slot)).map Prod.fst

theorem count_tags (items : List (Tree × Nat)) (slot : Nat) :
    (items.map Prod.snd).count slot = (share items slot).length := by
  rw [← Search.length_members, share, ← Search.members_tags, Search.length_filterMap_of_lt]
  intro i hi
  have := (List.getElem?_eq_some_iff.mp (Search.mem_members.mp hi)).1
  rwa [List.length_map] at this ⊢

theorem share_filter {n : Nat} (lt : slot < n) (items : List (Tree × Nat)) :
    share (items.filter (·.2 < n)) slot = share items slot := by
  unfold share
  rw [List.filter_filter]
  congr 1
  refine List.filter_congr fun z _ => ?_
  by_cases eq : z.2 = slot
  · simp [eq, lt]
  · simp [eq]

namespace Handed

theorem length_eq (h : Handed op t absorbs items ts) : ts.length = absorbs.length := by
  rw [← h.made.length_eq, List.length_range]

theorem length_tags (h : Handed op t absorbs items ts) :
    (items.map Prod.snd).length = (t.items op).length := by
  rw [← h.items_eq, List.length_map, List.length_map]

theorem share_eq (h : Handed op t absorbs items ts) (slot : Nat) :
    (Search.members (items.map Prod.snd) slot).filterMap ((t.items op)[·]?) = share items slot := by
  rw [← h.items_eq]
  exact Search.members_tags items slot

/-- Every slot is handed something, and several operands only if it takes them. -/
theorem share_length (h : Handed op t absorbs items ts) (lt : slot < absorbs.length) :
    (share items slot).length = 1 ∨ 1 < (share items slot).length ∧ absorbs[slot] = true := by
  rw [← count_tags]
  exact admissible_iff.mp h.ok slot absorbs[slot] (List.getElem?_eq_getElem lt)

theorem sum_share (h : Handed op t absorbs items ts) :
    ((List.range absorbs.length).map fun slot => (share items slot).length).sum =
      (t.items op).length := by
  have perm := Search.flatMap_members_perm h.length_tags (List.forall_mem_map.mpr h.bound)
  rw [← perm.length_eq, List.length_flatMap]
  simp only [h.share_eq]

/-- Operands that are handed out one each are arranged like this. -/
theorem perm_of_singles (h : Handed op (app op xs a) absorbs items ts) (chain : F.isChain op = true)
    (singles : ∀ slot < absorbs.length, (share items slot).length = 1) :
    (operands F op xs).Perm ts := by
  have length : (items.map Prod.snd).length = (operands F op xs).length := by
    rw [operands_eq_items (a := a) chain, h.length_tags]
  have perm := groups_perm chain length (List.forall_mem_map.mpr h.bound) h.made
  rw [flatMap_items_of_not_isApp] at perm
  · exact perm.symm
  · intro u hu
    obtain ⟨slot, hslot, made⟩ := exists_of_forall₂_right h.made hu
    obtain ⟨x, eq⟩ := List.length_eq_one_iff.mp (singles slot (List.mem_range.mp hslot))
    rw [Strand.group_single ((h.share_eq slot).trans eq) made]
    have mem : x ∈ (app op xs a).items op := by
      rw [← h.items_eq]
      have mem : x ∈ share items slot := eq ▸ .head _
      obtain ⟨z, hz, rfl⟩ := List.mem_map.mp mem
      exact List.mem_map_of_mem (List.mem_of_mem_filter hz)
    exact not_isApp_of_mem_items mem

/-- What is handed to the operands of a pattern is a lineup. -/
theorem lineup (h : Handed op (app op xs a) ((operands F op ys).map isVar) items ts)
    (chain : F.isChain op = true) :
    Lineup F (app op xs a) (app op ys b) (ts.zip (operands F op ys)) := by
  have slots : ((operands F op ys).map isVar).length = (operands F op ys).length := List.length_map ..
  have total := h.sum_share
  rw [← operands_eq_items (F := F) chain] at total
  by_cases several : ∃ slot < ((operands F op ys).map isVar).length, 1 < (share items slot).length
  · obtain ⟨slot, lt, two⟩ := several
    have absorb := ((h.share_length lt).resolve_left (Nat.ne_of_gt two)).2
    have longer : (operands F op ys).length < (operands F op xs).length := by
      have ones : ((List.range ((operands F op ys).map isVar).length).map fun _ => 1).sum =
          (operands F op ys).length := by simp
      rw [← ones, ← total]
      refine List.sum_lt_sum _ _ (fun slot hslot => ?_) ⟨slot, List.mem_range.mpr lt, two⟩
      have := h.share_length (List.mem_range.mp hslot)
      omega
    have made := h.made
    rw [slots] at made
    have length : (items.map Prod.snd).length = (operands F op xs).length := by
      rw [operands_eq_items (a := a) chain, h.length_tags]
    refine .group chain longer (List.contains_iff_mem.mpr (absorb ▸ List.getElem_mem lt)) length ?_ h.ok made
    exact List.forall_mem_map.mpr fun z hz => slots ▸ h.bound z hz
  · have singles : ∀ slot < ((operands F op ys).map isVar).length, (share items slot).length = 1 :=
      fun slot lt => (h.share_length lt).resolve_right fun two => several ⟨slot, lt, two.1⟩
    have perm := h.perm_of_singles chain singles
    refine .pair ?_ (.inr ⟨F.commutative_of_isChain chain, perm⟩)
    rw [perm.length_eq, h.length_eq, slots]

end Handed

theorem Strand.group_of_single {positions : List Nat}
    (single : positions.filterMap ((t.items op)[·]?) = [u]) : (Strand.of op t).group op positions = some u := by
  unfold group
  rw [(of_reads op t).items_eq, single]

/-- Each operand can be handed to a slot of its own, in any order. -/
theorem exists_handed_singles {zs : List Tree} (perm : (t.items op).Perm zs)
    (length : zs.length = absorbs.length) : ∃ items, Handed op t absorbs items zs := by
  have joint : (t.items op).Perm (zs.map ([·])).flatten := by
    rwa [← List.flatMap_def, List.flatMap_singleton']
  obtain ⟨assignment, long, bound, parts⟩ := Search.exists_assignment joint
  rw [List.length_map] at bound
  have each : ∀ slot (lt : slot < zs.length),
      (Search.members assignment slot).filterMap ((t.items op)[·]?) = [zs[slot]] := by
    intro slot lt
    refine List.perm_singleton.mp (parts slot _ ?_)
    rw [List.getElem?_map, List.getElem?_eq_getElem lt, Option.map_some]
  have fst : ((t.items op).zip assignment).map Prod.fst = t.items op :=
    List.map_fst_zip (Nat.le_of_eq long.symm)
  have snd : ((t.items op).zip assignment).map Prod.snd = assignment :=
    List.map_snd_zip (Nat.le_of_eq long)
  refine ⟨(t.items op).zip assignment, fst, fun z hz => ?_, ?_, ?_⟩
  · exact length ▸ bound _ (List.of_mem_zip hz).2
  · rw [snd]
    refine admissible_iff.mpr fun slot absorb here => .inl ?_
    have lt := (List.getElem?_eq_some_iff.mp here).1
    rw [← snd, count_tags, share, ← Search.members_tags, fst, snd, each slot (length ▸ lt)]
    rfl
  · rw [snd, ← length, List.forall₂_iff_get]
    refine ⟨List.length_range, fun slot hslot lt => ?_⟩
    rw [List.get_eq_getElem, List.getElem_range]
    exact Strand.group_of_single (each slot lt)

/-- A lineup of chains hands the operands of the tree to those of the pattern. -/
theorem Lineup.exists_handed {ps : List (Tree × Tree)} (h : Lineup F (app op xs a) (app op ys b) ps)
    (chain : F.isChain op = true) : ∃ items ts,
      Handed op (app op xs a) ((operands F op ys).map isVar) items ts ∧ ps = ts.zip (operands F op ys) := by
  have slots : ((operands F op ys).map isVar).length = (operands F op ys).length := List.length_map ..
  have whole : operands F op xs = (app op xs a).items op := operands_eq_items chain
  cases h with
  | pair length arranged =>
    have count := arranged.perm.length_eq
    obtain ⟨items, handed⟩ := exists_handed_singles (whole ▸ arranged.perm)
      (count.symm.trans (length.trans slots.symm))
    exact ⟨items, _, handed, rfl⟩
  | @group _ _ _ ts _ _ assignment _ longer absorbs length bound ok made =>
    have fst : ((operands F op xs).zip assignment).map Prod.fst = operands F op xs :=
      List.map_fst_zip (Nat.le_of_eq length.symm)
    have snd : ((operands F op xs).zip assignment).map Prod.snd = assignment :=
      List.map_snd_zip (Nat.le_of_eq length)
    refine ⟨(operands F op xs).zip assignment, ts, ⟨fst.trans whole, fun z hz => ?_, ?_, ?_⟩, rfl⟩
    · rw [slots]
      exact bound _ (List.of_mem_zip hz).2
    · rwa [snd]
    · rwa [snd, slots]

/-! ## A slot for the rest -/

theorem items_of_parts (h : ∀ u ∈ xs, u ∈ t.items op) :
    (app op xs .unspecified).items op = xs := by
  rw [items_app_self, flatMap_items_of_not_isApp fun u hu => not_isApp_of_mem_items (h u hu)]

theorem Bare.of_parts (bare : t.Bare) (h : ∀ u ∈ xs, u ∈ t.items op) :
    (app op xs .unspecified).Bare := .app rfl fun u hu => bare.of_mem_items (h u hu)

/-- When a chain is handed to some slots and one more, the part of the chain that the last slot leaves is
    handed to the other ones. -/
theorem Handed.exists_parted (h : Handed op t (absorbs ++ [true]) items ts)
    (chain : F.isChain op = true) (bare : t.Bare) : ∃ xs ys first us ts₁ g,
      Parted xs ys (t.items op) ∧ ys ≠ [] ∧ Handed op (app op xs .unspecified) absorbs first us ∧
      ts = ts₁ ++ [g] ∧ List.Forall₂ (Renests F) ts₁ us ∧ Renested F g (joined op ys) := by
  have slots : (absorbs ++ [true]).length = absorbs.length + 1 := List.length_append
  have rest : items.filter (fun z => !decide (z.2 < absorbs.length)) =
      items.filter (·.2 = absorbs.length) := by
    refine List.filter_congr fun z hz => ?_
    have := h.bound z hz
    rw [← decide_not]
    exact decide_eq_decide.mpr (by omega)
  have parted := (Parted.of_filter (fun z => decide (z.2 < absorbs.length)) items).map Prod.fst
  rw [rest, h.items_eq] at parted
  have made := h.made
  rw [slots, List.range_succ] at made
  obtain ⟨ts₁, g, rfl, made, last⟩ := exists_of_forall₂_concat made
  generalize eq : items.filter (fun z => decide (z.2 < absorbs.length)) = first at parted
  have inside : ∀ u ∈ first.map Prod.fst, u ∈ t.items op := fun u hu =>
    parted.perm.mem_iff.mpr (List.mem_append_left _ hu)
  have alone := items_of_parts inside
  have same : ∀ slot < absorbs.length, share first slot = share items slot := fun slot lt =>
    eq ▸ share_filter lt items
  have group := Strand.renested_group chain bare (Search.members_ascending _ _) last
  rw [h.share_eq] at group
  have parts : ∀ slot ∈ List.range absorbs.length, List.Forall₂ (Renested F)
      ((Search.members (items.map Prod.snd) slot).filterMap ((t.items op)[·]?))
      ((Search.members (first.map Prod.snd) slot).filterMap
        (((app op (first.map Prod.fst) .unspecified).items op)[·]?)) := by
    intro slot hslot
    rw [h.share_eq, alone, Search.members_tags, ← same slot (List.mem_range.mp hslot)]
    exact List.forall₂_same.mpr fun u _ => .refl u
  obtain ⟨us, made', each⟩ := Strand.exists_groups chain bare (bare.of_parts inside) made parts
  refine ⟨_, _, first, us, ts₁, g, parted, ?_, ⟨alone.symm, ?_, ?_, made'⟩, rfl, each, group⟩
  · have last : absorbs.length < (absorbs ++ [true]).length := by omega
    have some := h.share_length last
    intro nil
    rw [share, nil, List.length_nil] at some
    omega
  · rw [← eq]
    exact fun z hz => of_decide_eq_true (List.mem_filter.mp hz).2
  · refine admissible_iff.mpr fun slot absorb here => ?_
    obtain ⟨lt, rfl⟩ := List.getElem?_eq_some_iff.mp here
    have here : slot < (absorbs ++ [true]).length := by omega
    have some := h.share_length here
    rwa [List.getElem_append_left lt, ← same slot lt, ← count_tags] at some

/-- A part of a chain that is handed to slots and what is left of the chain make up a handing of the whole
    chain to these slots and one more. -/
theorem Handed.of_parted (h : Handed op (app op xs .unspecified) absorbs first us)
    (chain : F.isChain op = true) (bare : t.Bare) (parted : Parted xs ys (t.items op)) (ne : ys ≠ []) :
    ∃ items ts g, Handed op t (absorbs ++ [true]) items (ts ++ [g]) ∧
      List.Forall₂ (Renests F) us ts ∧ Renested F g (joined op ys) := by
  have slots : (absorbs ++ [true]).length = absorbs.length + 1 := List.length_append
  have inside : ∀ u ∈ xs, u ∈ t.items op := fun u hu =>
    parted.perm.mem_iff.mpr (List.mem_append_left _ hu)
  have fst : first.map Prod.fst = xs := h.items_eq.trans (items_of_parts inside)
  have length : (first.map Prod.snd).length = xs.length := by rw [← fst, List.length_map, List.length_map]
  obtain ⟨items, items_eq, bound, below, rest⟩ :=
    parted.exists_tagged length (List.forall_mem_map.mpr h.bound)
  rw [← List.zip_of_prod fst rfl] at below
  have same : ∀ slot < absorbs.length, share items slot = share first slot := fun slot lt =>
    below ▸ (share_filter lt items).symm
  have shared : ∀ slot, (Search.members (items.map Prod.snd) slot).filterMap ((t.items op)[·]?) =
      share items slot := fun slot => items_eq ▸ Search.members_tags items slot
  have parts : ∀ slot ∈ List.range absorbs.length, List.Forall₂ (Renested F)
      ((Search.members (first.map Prod.snd) slot).filterMap (((app op xs .unspecified).items op)[·]?))
      ((Search.members (items.map Prod.snd) slot).filterMap ((t.items op)[·]?)) := by
    intro slot hslot
    rw [h.share_eq, shared, same slot (List.mem_range.mp hslot)]
    exact List.forall₂_same.mpr fun u _ => .refl u
  obtain ⟨ts, made, each⟩ := Strand.exists_groups chain (bare.of_parts inside) bare h.made parts
  obtain ⟨g, last⟩ : ∃ g, (Strand.of op t).group op
      (Search.members (items.map Prod.snd) absorbs.length) = some g := by
    refine Strand.exists_group _ ?_
    rw [(Strand.of_reads op t).items_eq, shared, share, rest]
    exact ne
  have group := Strand.renested_group chain bare (Search.members_ascending _ _) last
  rw [shared, share, rest] at group
  refine ⟨items, ts, g, ⟨items_eq, fun z hz => slots ▸ bound z hz, ?_, ?_⟩, each, group⟩
  · refine admissible_iff.mpr fun slot absorb here => ?_
    obtain ⟨lt, rfl⟩ := List.getElem?_eq_some_iff.mp here
    rw [count_tags]
    by_cases old : slot < absorbs.length
    · rw [same slot old, List.getElem_append_left old]
      exact h.share_length old
    · obtain rfl : slot = absorbs.length := by omega
      have pos := List.length_pos_of_ne_nil ne
      rw [share, rest, List.getElem_concat_length rfl]
      exact (Nat.lt_or_eq_of_le pos).symm.imp Eq.symm fun several => ⟨several, rfl⟩
  · rw [slots, List.range_succ]
    exact List.rel_append made (.cons last .nil)

/-! ## Matching a part -/

variable {lhs : Tree} {θ σ : UInt32 → Tree} {k v : UInt32} {ps : List (Tree × Tree)}

theorem operands_beside (chain : F.isChain op = true) (k : UInt32) :
    operands F op [app op ys b, var k] = operands F op ys ++ [var k] := by
  rw [operands, operands, if_pos chain, if_pos chain, List.flatMap_cons, List.flatMap_singleton,
    items_app_self]
  rfl

theorem isVar_beside (chain : F.isChain op = true) (k : UInt32) :
    (operands F op [app op ys b, var k]).map isVar = (operands F op ys).map isVar ++ [true] := by
  rw [operands_beside chain, List.map_append]
  rfl

/-- A last tree and a variable that is not in the other patterns are matched on their own. -/
theorem matches_concat_iff {ts : List Tree} (length : ts.length = ys.length) (new : ∀ y ∈ ys, ¬ y.HasVar k)
    (ground : g.Ground) : Matches F ((ts ++ [g]).zip (ys ++ [var k])) θ ↔
      ∃ σ, Matches F (ts.zip ys) σ ∧ θ k = g ∧ ∀ v, v ≠ k → θ v = σ v := by
  rw [List.zip_append length, Matches.append_iff]
  refine exists_congr fun σ => ?_
  have free : Matches F (ts.zip ys) σ → σ k = var k := fun first =>
    first.eq_var fun p hp => new _ (List.of_mem_zip hp).2
  have last : ∀ τ, Matches F (ts.zip ys) σ → (Matches F (fill σ [(g, var k)]) τ ↔ τ = only k g) :=
    fun τ first => by rw [fill, List.map_singleton, subst_var, free first, Matches.var_iff ground]
  have put : Matches F (ts.zip ys) σ → ∀ v, v ≠ k → andThen σ (only k g) v = σ v := by
    intro first v ne
    by_cases has : ∃ p ∈ ts.zip ys, p.2.HasVar v
    · exact ((first.spec v).1 has).subst _
    · rw [andThen, (first.spec v).2 has, subst_var, only_of_ne ne]
  have here : Matches F (ts.zip ys) σ → andThen σ (only k g) k = g := fun first => by
    rw [andThen, free first, subst_var, only_self]
  constructor
  · rintro ⟨τ, first, second, rfl⟩
    rw [(last τ first).mp second]
    exact ⟨first, here first, put first⟩
  · rintro ⟨first, eq, others⟩
    refine ⟨_, first, (last _ first).mpr rfl, funext fun v => ?_⟩
    by_cases same : v = k
    · rw [same, eq, here first]
    · rw [others v same, put first v same]

theorem unspecified_compatible (b : Attrs) : Attrs.unspecified.compatible b = true := by
  obtain ⟨_ | _, _ | _, _ | _⟩ := b <;> rfl

theorem ground_of_parted (parted : Parted xs ys (t.items op)) (ground : t.Ground) :
    (app op xs .unspecified).Ground := by
  intro v hv
  obtain ⟨x, hx, hv⟩ := hasVar_app.mp hv
  exact ground v (hasVar_items.mp ⟨x, parted.perm.mem_iff.mpr (List.mem_append_left _ hx), hv⟩)

/-- Where a pattern beside a variable matches a chain, the pattern matches a part of the operands and the
    variable gets the others, which are some. -/
theorem exists_matches_part {ws us : List Tree} (chain : F.isChain op = true) (bare : (app op ws a).Bare)
    (ground : (app op ws a).Ground) (new : ¬ (app op us b).HasVar k)
    (h : Matches F [(app op ws a, app op [app op us b, var k] .unspecified)] θ) :
    ∃ xs ys σ, Parted xs ys ((app op ws a).items op) ∧ ys ≠ [] ∧
      Matches F [(app op xs .unspecified, app op us b)] σ ∧
      (∀ v, v ≠ k → Renested F (θ v) (σ v)) ∧ Renested F (θ k) (joined op ys) := by
  obtain ⟨-, -, pairs, lineup, later⟩ := (Matches.app_iff ground).mp h
  obtain ⟨items, ts, handed, rfl⟩ := lineup.exists_handed chain
  have inner := lineup.ground ground
  rw [isVar_beside chain] at handed
  rw [operands_beside chain] at later inner
  obtain ⟨xs, ys, first, gs, ts, g, parted, ne, handed', rfl, each, last⟩ :=
    handed.exists_parted chain bare
  have length : ts.length = (operands F op us).length := by
    rw [each.length_eq, handed'.length_eq, List.length_map]
  rw [List.zip_append length, List.forall_mem_append] at inner
  obtain ⟨σ, matched, rfl, others⟩ := (matches_concat_iff length (fun y hy hk =>
    new (Alike.hasVar_operands.mpr ⟨y, hy, hk⟩)) (inner.2 _ (.head _))).mp later
  obtain ⟨τ, matched', renested⟩ :=
    matched.renested (renests_zip each (List.forall₂_same.mpr fun u _ => .refl u))
  refine ⟨xs, ys, τ, parted, ne, (Matches.app_iff (ground_of_parted parted ground)).mpr
    ⟨rfl, unspecified_compatible b, _, handed'.lineup chain, matched'⟩, fun v other => ?_, last⟩
  exact others v other ▸ renested v

/-- However the operands of a chain are parted, where a pattern matches one part, the pattern beside a
    variable matches the chain, and the variable gets the other part. -/
theorem exists_matches_whole {ws us : List Tree} (chain : F.isChain op = true) (bare : (app op ws a).Bare)
    (ground : (app op ws a).Ground) (new : ¬ (app op us b).HasVar k)
    (parted : Parted xs ys ((app op ws a).items op)) (ne : ys ≠ [])
    (h : Matches F [(app op xs .unspecified, app op us b)] σ) :
    ∃ θ, Matches F [(app op ws a, app op [app op us b, var k] .unspecified)] θ ∧
      (∀ v, v ≠ k → Renested F (θ v) (σ v)) ∧ Renested F (θ k) (joined op ys) := by
  obtain ⟨-, -, pairs, lineup, later⟩ := (Matches.app_iff (ground_of_parted parted ground)).mp h
  obtain ⟨first, gs, handed, rfl⟩ := lineup.exists_handed chain
  obtain ⟨items, ts, g, handed', each, last⟩ := handed.of_parted chain bare parted ne
  rw [← isVar_beside (b := b) chain k] at handed'
  have whole : Lineup F (app op ws a) (app op [app op us b, var k] .unspecified) _ := handed'.lineup chain
  have inner := whole.ground ground
  rw [operands_beside chain] at whole inner
  have length : ts.length = (operands F op us).length := by
    rw [← each.length_eq, handed.length_eq, List.length_map]
  rw [List.zip_append length, List.forall_mem_append] at inner
  obtain ⟨τ, matched, renested⟩ :=
    later.renested (renests_zip each (List.forall₂_same.mpr fun u _ => .refl u))
  have put : ∀ v, v ≠ k → Function.update τ k g v = τ v := fun v other => Function.update_of_ne other ..
  have matched := (matches_concat_iff length (fun y hy hk =>
    new (Alike.hasVar_operands.mpr ⟨y, hy, hk⟩)) (inner.2 (g, .var k) (.head _))).mpr
      ⟨τ, matched, Function.update_self .., put⟩
  refine ⟨Function.update τ k g, (Matches.app_iff ground).mpr
    ⟨rfl, Attrs.compatible_symm (unspecified_compatible a), _, whole, matched⟩, fun v other => ?_, ?_⟩
  · rw [put v other]
    exact (renested v).symm
  · rwa [Function.update_self]

/-- A variable of a pattern that matches a part of a chain does not get the whole chain. -/
theorem not_agree_of_part {ws us : List Tree} {v : UInt32} (chain : F.isChain op = true)
    (ground : (app op ws a).Ground) (hv : (app op us b).HasVar v)
    (h : Matches F [(app op ws a, app op [app op us b, var k] .unspecified)] θ) :
    ¬ Agree (θ v) (app op ws a) := by
  obtain ⟨-, -, pairs, lineup, later⟩ := (Matches.app_iff ground).mp h
  obtain ⟨items, ts, handed, rfl⟩ := lineup.exists_handed chain
  obtain ⟨y, hy, -⟩ := (Alike.hasVar_operands (F := F)).mp hv
  have slots : (operands F op [app op us b, var k]).length = (operands F op us).length + 1 := by
    rw [operands_beside chain, List.length_append, List.length_singleton]
  have two : 2 ≤ ts.length := by
    rw [handed.length_eq, List.length_map, slots]
    exact Nat.succ_le_succ (List.length_pos_of_mem hy)
  -- Each of the groups has less mass than the chain, and the variable gets no more than one of them.
  have whole : operands F op ws = (app op ws a).items op := operands_eq_items chain
  have length : (items.map Prod.snd).length = (operands F op ws).length :=
    whole ▸ handed.length_tags
  have given : ∀ slot < ((operands F op [app op us b, var k]).map isVar).length,
      Search.members (items.map Prod.snd) slot ≠ [] := by
    intro slot lt nil
    have some := handed.share_length lt
    rw [← handed.share_eq, nil, List.filterMap_nil, List.length_nil] at some
    omega
  have light : ∀ g ∈ ts, g.mass F ≤ (app op ws a).mass F ∧
      (2 ≤ ts.length → g.mass F < (app op ws a).mass F) :=
    mass_groups chain rfl length (List.forall_mem_map.mpr handed.bound) given
      (handed.made.imp fun slot g made =>
        whole ▸ (Strand.group_spec (Search.members_ascending _ slot) made).1)
  obtain ⟨p, hp, le⟩ := later.lighter (lineup.hasVar.mp (.app (.head _) hv))
  have less := (light p.1 (List.of_mem_zip hp).1).2 two
  intro agree
  have same : (θ v).mass F = (app op ws a).mass F := agree.massBelow_eq none
  rcases le with eq | lighter
  · rw [eq] at same
    omega
  · unfold Lighter at lighter
    omega

end Tree

end Regraft
