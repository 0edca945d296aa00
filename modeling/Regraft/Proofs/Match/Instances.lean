import Regraft.Proofs.Match.Lighter
import Regraft.Proofs.Match.Splits

/-
  What there is to match. On plain trees a pattern matches a ground tree in some way just if an instance
  of the pattern is equal to the tree modulo the facts (`Tree.exists_matches_iff`). That a way to match
  makes the two equal is an induction on the way. In the other direction the operands of the instance are
  handed out as the operands of the tree are grouped (`Equal.exists_lineup`), and the induction is on the
  sizes of all trees that are still to be matched, which get less with every step
  (`Lineup.sum_size_lt`).
-/

namespace Regraft

namespace Tree

variable {F : Facts} {op : String} {t u g : Tree} {xs ys ts : List Tree} {a b : Attrs}
  {θ σ : UInt32 → Tree} {ps : List (Tree × Tree)} {positions : List Nat}

/-! ## Groups -/

theorem Over.of_sub {has : Label → Prop} (h : t.Over has) (sub : Sub u t) : u.Over has := by
  induction sub with
  | refl => exact h
  | operand mem _ ih => exact ih ((over_app.mp h).2 _ mem)

theorem over_foldl {has : Label → Prop} (pair : has (.node op 2 .unspecified)) (ht : t.Over has)
    (h : ∀ u ∈ xs, u.Over has) : (xs.foldl (fun t u => .app op [t, u] .unspecified) t).Over has := by
  induction xs generalizing t with
  | nil => exact ht
  | cons x rest ih =>
    rw [List.forall_mem_cons] at h
    exact ih (over_pair pair ht h.1) h.2

/-- What a group makes of the chain of a tree has the labels of the tree and those of pairs. -/
theorem Strand.over_group {has : Label → Prop} (pair : has (.node op 2 .unspecified)) (h : t.Over has)
    (made : (Strand.of op t).group op positions = some g) : g.Over has := by
  have reads := of_reads op t
  have item : ∀ x ∈ positions.filterMap ((Strand.of op t).items[·]?), x.Over has := by
    intro x hx
    obtain ⟨i, -, hi⟩ := List.mem_filterMap.mp hx
    exact h.of_mem_items (reads.items_eq ▸ List.mem_of_getElem? hi)
  unfold group at made
  split at made
  · cases made
  · rename_i x eq
    cases made
    exact item _ (eq ▸ .head _)
  · rename_i x rest _ eq
    rw [eq, List.forall_mem_cons] at item
    split at made
    · rename_i span found
      cases made
      obtain ⟨_, -, found⟩ := Option.bind_eq_some_iff.mp found
      exact h.of_sub (reads.covers span (List.mem_of_find?_eq_some found)).sub
    · cases made
      exact over_foldl pair item.1 item.2

/-- What a group makes of the chain of a plain tree is plain. -/
theorem Strand.plain_group (h : Plain F t) (made : (Strand.of op t).group op positions = some g) :
    Plain F g := over_group ⟨rfl, fun _ => rfl⟩ h made

theorem operands_eq_items (chain : F.isChain op = true) :
    operands F op xs = (app op xs a).items op := by
  rw [operands, if_pos chain, items_app_self]

theorem operands_eq_self (chain : ¬ F.isChain op = true) : operands F op xs = xs := if_neg chain

/-- The chains of several trees are together as large as the trees. -/
theorem sum_flatMap_items (chain : F.isChain op = true) (h : ∀ t ∈ ts, Plain F t) :
    ((ts.flatMap (items op)).map fun u => u.size + 1).sum = (ts.map size).sum + ts.length := by
  induction ts with
  | nil => rfl
  | cons t rest ih =>
    rw [List.forall_mem_cons] at h
    rw [List.flatMap_cons, List.map_append, List.sum_append, h.1.sum_items chain, ih h.2,
      List.map_cons, List.sum_cons, List.length_cons]
    omega

/-- The chains of the groups for all slots are the whole chain. -/
theorem groups_perm {assignment : List Nat} {slots : Nat} (chain : F.isChain op = true)
    (length : assignment.length = (operands F op xs).length) (bound : ∀ d ∈ assignment, d < slots)
    (made : List.Forall₂ (fun slot t => (Strand.of op (.app op xs a)).group op
      (Search.members assignment slot) = some t) (List.range slots) ts) :
    (ts.flatMap (items op)).Perm (operands F op xs) := by
  have items_eq : ts.map (items op) = (List.range slots).map fun slot =>
      (Search.members assignment slot).filterMap ((operands F op xs)[·]?) := by
    rw [← List.forall₂_eq_eq_eq, List.forall₂_map_left_iff, List.forall₂_map_right_iff]
    refine List.Forall₂.flip (made.imp fun slot g made => ?_)
    rw [operands_eq_items (a := a) chain]
    exact (Strand.group_spec (Search.members_ascending assignment slot) made).1
  rw [List.flatMap_def, items_eq, ← List.flatMap_def]
  exact Search.flatMap_members_perm length bound

theorem length_le_flatMap_items (chain : F.isChain op = true) (h : ∀ t ∈ ts, Plain F t) :
    ts.length ≤ (ts.flatMap (items op)).length := by
  induction ts with
  | nil => exact Nat.le_refl 0
  | cons t rest ih =>
    rw [List.forall_mem_cons] at h
    have := (h.1.items_length chain).1
    have := ih h.2
    rw [List.flatMap_cons, List.length_append, List.length_cons]
    omega

/-- Chains that have together no more operands than they are have one each. -/
theorem flatMap_items_eq_self (chain : F.isChain op = true) (h : ∀ t ∈ ts, Plain F t)
    (le : (ts.flatMap (items op)).length ≤ ts.length) : ts.flatMap (items op) = ts := by
  induction ts with
  | nil => rfl
  | cons t rest ih =>
    rw [List.forall_mem_cons] at h
    have first := h.1.items_length chain
    have others := length_le_flatMap_items chain h.2
    rw [List.flatMap_cons, List.length_append, List.length_cons] at le
    have single : ¬ IsApp op t := fun app => by
      have := first.2 app
      omega
    rw [List.flatMap_cons, ih h.2 (by omega), items_of_not_isApp single, List.singleton_append]

/-! ## Lineups -/

namespace Lineup

/-- A lineup pairs some trees with the operands of the pattern, one by one. Their chains together are the
    chain of the matched tree, or they are its operands in an order that the facts allow. -/
theorem exists_trees (h : Lineup F (.app op xs a) (.app op ys b) ps) :
    ∃ ts, ts.length = (operands F op ys).length ∧ ps = ts.zip (operands F op ys) ∧
      (F.isChain op = true → (ts.flatMap (items op)).Perm (operands F op xs)) ∧
      (¬ F.isChain op = true → F.Arranges op xs ts) := by
  cases h with
  | @pair _ _ _ zs _ _ length arranged =>
    refine ⟨zs, arranged.perm.length_eq.symm.trans length, rfl, fun chain => ?_, fun chain => ?_⟩
    · rw [flatMap_items_of_not_isApp]
      · exact arranged.perm.symm
      · intro z hz
        rw [← arranged.perm.mem_iff, operands_eq_items (a := a) chain] at hz
        exact not_isApp_of_mem_items hz
    · rwa [operands_eq_self chain] at arranged
  | @group _ _ _ ts _ _ assignment chain longer absorbs length bound ok made =>
    have count := made.length_eq
    rw [List.length_range] at count
    exact ⟨ts, count.symm, rfl, fun _ => groups_perm chain length bound made, fun no => absurd chain no⟩

/-- What is paired in a lineup has the labels of the trees and those of pairs. -/
theorem each_over {has : Label → Prop} (h : Lineup F t u ps) (pair : ∀ op, has (.node op 2 .unspecified))
    (ht : t.Over has) (hu : u.Over has) : ∀ p ∈ ps, p.1.Over has ∧ p.2.Over has := by
  rintro ⟨x, y⟩ hp
  cases h with
  | pair length arranged =>
    obtain ⟨hx, hy⟩ := List.of_mem_zip hp
    exact ⟨ht.of_mem_operands (arranged.perm.mem_iff.mpr hx), hu.of_mem_operands hy⟩
  | group chain longer absorbs length bound ok made =>
    obtain ⟨hx, hy⟩ := List.of_mem_zip hp
    obtain ⟨slot, -, hg⟩ := exists_of_forall₂_right made hx
    exact ⟨Strand.over_group (pair _) ht hg, hu.of_mem_operands hy⟩

/-- What is paired in a lineup of plain trees is plain. -/
theorem plain (h : Lineup F t u ps) (ht : Plain F t) (hu : Plain F u) :
    ∀ p ∈ ps, Plain F p.1 ∧ Plain F p.2 := h.each_over (fun _ => ⟨rfl, fun _ => rfl⟩) ht hu

/-- What is paired with the operands of a pattern in a lineup of a ground tree is ground. -/
theorem ground (h : Lineup F (.app op xs a) (.app op ys b) ps) (ht : (app op xs a).Ground) :
    ∀ p ∈ ps, p.1.Ground := by
  obtain ⟨ts, -, rfl, perm, arranged⟩ := h.exists_trees
  rintro ⟨x, y⟩ hp
  have hx := (List.of_mem_zip hp).1
  by_cases chain : F.isChain op = true
  · refine ht.of_items fun w (hw : w ∈ items op x) => ?_
    rw [← operands_eq_items (a := a) chain, ← (perm chain).mem_iff]
    exact List.mem_flatMap.mpr ⟨x, hx, hw⟩
  · exact ht.of_mem ((arranged chain).perm.mem_iff.mpr hx)

/-- The trees in a lineup are together smaller than the matched tree. -/
theorem sum_size_lt (h : Lineup F (.app op xs a) (.app op ys b) ps) (ht : Plain F (.app op xs a))
    (hu : Plain F (.app op ys b)) : (ps.map fun p => p.1.size).sum < (app op xs a).size := by
  have paired := h.plain ht hu
  obtain ⟨ts, length, rfl, perm, arranged⟩ := h.exists_trees
  have fst {β : Type} (f : Tree → β) :
      ((ts.zip (operands F op ys)).map fun p => f p.1) = ts.map f := by
    conv => rhs; rw [← List.map_fst_zip (Nat.le_of_eq length), List.map_map]
    rfl
  rw [fst size]
  by_cases chain : F.isChain op = true
  · -- each group but one joins two parts of the tree
    have two : 2 ≤ ts.length := by
      rw [length, operands_eq_items (a := b) chain]
      exact (hu.items_length chain).2 rfl
    have plain : ∀ g ∈ ts, Plain F g := by
      intro g hg
      rw [← List.map_id ts, ← fst id] at hg
      obtain ⟨p, hp, rfl⟩ := List.mem_map.mp hg
      exact (paired p hp).1
    have total := ((perm chain).map fun g => g.size + 1).sum_eq
    rw [sum_flatMap_items chain plain, operands_eq_items (a := a) chain, ht.sum_items chain] at total
    omega
  · rw [size_app, ((arranged chain).perm.map _).sum_eq]
    exact Nat.lt_succ_self _

/-- What a lineup pairs up makes the trees alike. -/
theorem alike (h : Lineup F (.app op xs a) (.app op ys b) ps)
    (each : ∀ p ∈ ps, Alike F (p.2.subst θ) p.1) :
    Alike F ((app op ys b).subst θ) (.app op xs a) := by
  obtain ⟨ts, length, rfl, perm, arranged⟩ := h.exists_trees
  have alike : List.Forall₂ (fun y x => Alike F (y.subst θ) x) (operands F op ys) ts := by
    refine List.forall₂_iff_zip.mpr ⟨length.symm, fun {y x} mem => each (x, y) ?_⟩
    rw [← List.zip_swap]
    exact List.mem_map.mpr ⟨(y, x), mem, rfl⟩
  rw [subst_app]
  refine .of_pairs ?_
  rw [Alike.operands_subst]
  split
  · rename_i chain
    refine .arrange (.flatMap (.of_forall₂ (alike.imp fun y x h => h.items chain))) ?_
    exact .inr ⟨F.commutative_of_isChain chain, perm chain⟩
  · rename_i chain
    rw [operands_eq_self chain] at alike ⊢
    rw [operands_eq_self chain]
    refine .arrange (.of_forall₂ ?_) (arranged chain).symm
    rw [List.forall₂_map_left_iff]
    exact alike

/-- What a lineup pairs up makes the trees equal. -/
theorem equal (h : Lineup F (.app op xs a) (.app op ys b) ps) (ht : Plain F (.app op xs a))
    (hu : Plain F (.app op ys b)) (each : ∀ p ∈ ps, Equal F (p.2.subst θ) p.1) :
    Equal F ((app op ys b).subst θ) (.app op xs a) := by
  have plain := h.plain ht hu
  have instanced : Plain F ((app op ys b).subst θ) := by
    refine over_subst hu fun v hv => ?_
    obtain ⟨p, hp, hv⟩ := h.hasVar.mp hv
    exact ((each p hp).plain_iff.mpr (plain p hp).1).of_subst hv
  exact (h.alike fun p hp => (each p hp).alike).equal instanced ht

end Lineup

/-! ## Matches make equal -/

theorem over_fill {has : Label → Prop} {v : UInt32} (ht : t.Over has)
    (h : ∀ p ∈ ps, p.1.Over has ∧ p.2.Over has) :
    ∀ p ∈ fill (only v t) ps, p.1.Over has ∧ p.2.Over has := by
  rw [List.forall_mem_map]
  refine fun p hp => ⟨(h p hp).1, over_subst (h p hp).2 fun w _ => ?_⟩
  by_cases eq : w = v
  · rw [eq, only_self]
    exact ht
  · rw [only_of_ne eq]
    exact .var w

/-- A way to match makes each pattern alike the tree that it is matched with. -/
theorem Matches.alike (h : Matches F ps θ) (filled : ∀ p ∈ ps, p.1.Filled ∧ p.2.Filled) :
    ∀ p ∈ ps, Alike F (p.2.subst θ) p.1 := by
  induction h with
  | nil => nofun
  | @same t rest θ ground later ih =>
    rw [List.forall_mem_cons] at filled ⊢
    refine ⟨?_, ih filled.2⟩
    rw [ground.subst]
    exact .refl t
  | @bind t v rest θ ground later ih =>
    rw [List.forall_mem_cons] at filled ⊢
    refine ⟨?_, fun p hp => ?_⟩
    · rw [subst_var, andThen, only_self, ground.subst]
      exact .refl t
    · rw [subst_andThen]
      exact ih (over_fill filled.1.1 filled.2) _ (List.mem_map_of_mem hp)
  | @leaf l m rest θ value later ih =>
    rw [List.forall_mem_cons] at filled ⊢
    refine ⟨.leaf (Leaf.Same.symm (Leaf.same_of_valueEq ?_ ?_ value)), ih filled.2⟩
    · exact fun c eq => over_leaf.mp (eq ▸ filled.1.1)
    · exact fun c eq => over_leaf.mp (eq ▸ filled.1.2)
  | app fits lineup later ih =>
    rw [List.forall_mem_cons] at filled ⊢
    rw [List.forall_mem_append, List.forall_mem_append] at ih
    obtain ⟨pairs, rest⟩ :=
      ih ⟨lineup.each_over (fun _ => trivial) filled.1.1 filled.1.2, filled.2⟩
    exact ⟨lineup.alike pairs, rest⟩

/-- A way to match makes each pattern equal to the tree that it is matched with. -/
theorem Matches.equal (h : Matches F ps θ) (plain : ∀ p ∈ ps, Plain F p.1 ∧ Plain F p.2) :
    ∀ p ∈ ps, Equal F (p.2.subst θ) p.1 := by
  induction h with
  | nil => nofun
  | @same t rest θ ground later ih =>
    rw [List.forall_mem_cons] at plain ⊢
    refine ⟨?_, ih plain.2⟩
    rw [ground.subst]
    exact .refl t
  | @bind t v rest θ ground later ih =>
    rw [List.forall_mem_cons] at plain ⊢
    refine ⟨?_, fun p hp => ?_⟩
    · rw [subst_var, andThen, only_self, ground.subst]
      exact .refl t
    · rw [subst_andThen]
      exact ih (over_fill plain.1.1 plain.2) _ (List.mem_map_of_mem hp)
  | @leaf l m rest θ value later ih =>
    rw [List.forall_mem_cons] at plain ⊢
    refine ⟨Equal.symm (Alike.equal (.leaf ?_) plain.1.1 plain.1.2), ih plain.2⟩
    have fills : ∀ {k : Leaf}, Plain F (.leaf k) → ∀ c, k = .const c → c.Fills :=
      fun h c eq => over_leaf.mp (eq ▸ h)
    exact Leaf.same_of_valueEq (fills plain.1.1) (fills plain.1.2) value
  | app fits lineup later ih =>
    rw [List.forall_mem_cons] at plain ⊢
    rw [List.forall_mem_append, List.forall_mem_append] at ih
    obtain ⟨pairs, rest⟩ := ih ⟨lineup.plain plain.1.1 plain.1.2, plain.2⟩
    exact ⟨lineup.equal plain.1.1 plain.1.2 pairs, rest⟩

/-! ## What is equal can be matched -/

/-- Only a variable stands for a chain of several operands. -/
theorem isVar_of_items (single : ¬ IsApp op u) (two : 1 < (items op (u.subst θ)).length) :
    u.isVar = true := by
  cases u with
  | var v => rfl
  | app f args attrs =>
    have one := items_of_not_isApp (t := app f (args.map (subst θ)) attrs) single
    rw [subst_app, one] at two
    exact absurd two (Nat.lt_irrefl 1)
  | _ => exact absurd two (Nat.lt_irrefl 1)

variable {L : List Tree} {assignment : List Nat}

/-- Slots are handed the parts of a chain that pair up with the operands of an instance. -/
structure Hands (F : Facts) (op : String) (θ : UInt32 → Tree) (L : List Tree) (us : List Tree)
    (assignment : List Nat) : Prop where
  length : assignment.length = L.length
  bound : ∀ slot ∈ assignment, slot < us.length
  pairs : ∀ slot u, us[slot]? = some u → F.Pairs (Alike F) op (items op (u.subst θ))
    ((Search.members assignment slot).filterMap (L[·]?))

/-- A chain that pairs up with that of an instance can be handed to the slots. -/
theorem exists_hands {us : List Tree} (comm : F.isCommutative op = true)
    (h : F.Pairs (Alike F) op (us.flatMap fun u => items op (u.subst θ)) L) :
    ∃ assignment, Hands F op θ L us assignment := by
  obtain ⟨zs, arranged, alike⟩ := h
  have perm := arranged.perm.symm
  rw [List.flatMap_def] at perm
  obtain ⟨assignment, length, bound, parts⟩ := Search.exists_assignment perm
  rw [List.length_map] at bound
  refine ⟨assignment, length.trans alike.length_eq, bound, fun slot u hu => ?_⟩
  have perm := parts slot (items op (u.subst θ)) (by rw [List.getElem?_map, hu]; rfl)
  exact ⟨_, .inr ⟨comm, perm.symm⟩, Search.forall₂_filterMap alike _⟩

variable {us : List Tree}

theorem Hands.count (h : Hands F op θ L us assignment) {slot : Nat} (hu : us[slot]? = some u) :
    assignment.count slot = (items op (u.subst θ)).length := by
  rw [(h.pairs slot u hu).length_eq, Search.length_filterMap_of_lt, Search.length_members]
  intro i hi
  have := (List.getElem?_eq_some_iff.mp (Search.mem_members.mp hi)).1
  rwa [h.length] at this

/-- There is a group for positions in the chain. -/
theorem Strand.exists_group (c : Strand) (ne : positions.filterMap (c.items[·]?) ≠ []) :
    ∃ g, c.group op positions = some g := by
  unfold group
  split
  · contradiction
  · exact ⟨_, rfl⟩
  · split <;> exact ⟨_, rfl⟩

/-- The groups that the slots are handed are equal to the operands of the instance. -/
theorem Hands.exists_groups (h : Hands F op θ (operands F op xs) us assignment)
    (chain : F.isChain op = true) (ht : Plain F (.app op xs a)) (hu : ∀ u ∈ us, Plain F (u.subst θ)) :
    ∃ ts, List.Forall₂ (fun slot t => (Strand.of op (.app op xs a)).group op
        (Search.members assignment slot) = some t) (List.range us.length) ts ∧
      List.Forall₂ (fun u t => Equal F (u.subst θ) t) us ts := by
  have items_eq := (Strand.of_reads op (.app op xs a)).items_eq
  rw [← operands_eq_items chain] at items_eq
  have each : ∀ p ∈ us.zipIdx, ∃ t, (Strand.of op (.app op xs a)).group op
      (Search.members assignment p.2) = some t := by
    rintro ⟨u, slot⟩ mem
    have here := List.mem_zipIdx_iff_getElem?.mp mem
    refine Strand.exists_group _ fun none => ?_
    have length := (h.pairs slot u here).length_eq
    have := ((hu u (List.mem_of_getElem? here)).items_length chain).1
    rw [items_eq] at none
    rw [none, List.length_nil] at length
    omega
  obtain ⟨ts, made⟩ := exists_mapM each
  rw [mapM_eq_some_iff] at made
  have slots : us.zipIdx.map Prod.snd = List.range us.length := by
    rw [List.zipIdx_map_snd, List.range_eq_range']
  have values : us.zipIdx.map Prod.fst = us := List.zipIdx_map_fst 0 us
  refine ⟨ts, ?_, ?_⟩
  · rw [← slots, List.forall₂_map_left_iff]
    exact made
  · rw [← values, List.forall₂_map_left_iff]
    refine forall₂_imp_mem made fun ⟨u, slot⟩ mem t _ made => ?_
    have here := List.mem_zipIdx_iff_getElem?.mp mem
    have plain := Strand.plain_group ht made
    have plain' := hu u (List.mem_of_getElem? here)
    refine Alike.equal (plain'.alike_of_items chain plain ?_) plain' plain
    rw [(Strand.group_spec (Search.members_ascending assignment slot) made).1,
      ← operands_eq_items chain]
    exact h.pairs slot u here

/-- Operands of an instance that are more than those of the pattern come from a variable. -/
theorem exists_isVar (single : ∀ u ∈ us, ¬ IsApp op u)
    (longer : us.length < (us.flatMap fun u => items op (u.subst θ)).length) :
    (us.map isVar).contains true = true := by
  rw [List.contains_iff_mem]
  induction us with
  | nil => cases longer
  | cons u rest ih =>
    rw [List.forall_mem_cons] at single
    rw [List.flatMap_cons, List.length_append, List.length_cons] at longer
    by_cases two : 1 < (items op (u.subst θ)).length
    · rw [List.map_cons, isVar_of_items single.1 two]
      exact .head _
    · exact .tail _ (ih single.2 (by omega))

theorem Hands.isAdmissible (h : Hands F op θ L us assignment) (chain : F.isChain op = true)
    (single : ∀ u ∈ us, ¬ IsApp op u) (plain : ∀ u ∈ us, Plain F (u.subst θ)) :
    admissible (us.map isVar) assignment = true := by
  refine admissible_iff.mpr fun slot absorb hs => ?_
  rw [List.getElem?_map] at hs
  obtain ⟨u, hu, rfl⟩ := Option.map_eq_some_iff.mp hs
  have mem := List.mem_of_getElem? hu
  have := ((plain u mem).items_length chain).1
  rw [h.count hu]
  by_cases one : (items op (u.subst θ)).length = 1
  · exact .inl one
  · have two : 1 < (items op (u.subst θ)).length := by omega
    exact .inr ⟨two, isVar_of_items (single u mem) two⟩

/-- Where a plain tree is equal to an instance of a pattern, their operands can be lined up so that the
    trees are equal to the operands of the instance. -/
theorem Equal.exists_lineup (h : Equal F ((app op ys b).subst θ) (.app op xs a))
    (ht : Plain F (.app op xs a)) (hu : Plain F (.app op ys b)) :
    ∃ ps, Lineup F (.app op xs a) (.app op ys b) ps ∧ ∀ p ∈ ps, Equal F (p.2.subst θ) p.1 := by
  have instanced := h.plain_iff.mpr ht
  have pairs := h.alike
  rw [subst_app] at pairs instanced
  have pairs := (Alike.app_iff.mp pairs).2
  rw [Alike.operands_subst] at pairs
  have zipped : ∀ {us ts : List Tree}, List.Forall₂ (fun u t => Equal F (u.subst θ) t) us ts →
      ∀ p ∈ ts.zip us, Equal F (p.2.subst θ) p.1 := by
    intro us ts each p hp
    refine (List.forall₂_iff_zip.mp each).2 ?_
    rw [← List.zip_swap]
    exact List.mem_map.mpr ⟨p, hp, rfl⟩
  split at pairs
  · rename_i chain
    have single : ∀ u ∈ operands F op ys, ¬ IsApp op u := fun u mem =>
      not_isApp_of_mem_items (operands_eq_items (a := b) chain ▸ mem)
    have plain : ∀ u ∈ operands F op ys, Plain F (u.subst θ) := fun u mem =>
      over_subst (hu.of_mem_operands mem) fun v hv =>
        (h.plain_iff.mpr ht).of_subst (Alike.hasVar_operands.mpr ⟨u, mem, hv⟩)
    have length := pairs.length_eq
    obtain ⟨assignment, hands⟩ := exists_hands (F.commutative_of_isChain chain) pairs
    obtain ⟨ts, made, each⟩ := hands.exists_groups chain ht plain
    refine ⟨ts.zip (operands F op ys), ?_, zipped each⟩
    by_cases longer : (operands F op ys).length < (operands F op xs).length
    · exact .group chain longer (exists_isVar single (length ▸ longer)) hands.length hands.bound
        (hands.isAdmissible chain single plain) made
    · -- each group is a single operand
      have perm := groups_perm chain hands.length hands.bound made
      have count := each.length_eq
      have plain' : ∀ t ∈ ts, Plain F t := fun t mem => by
        obtain ⟨u, hu, eq⟩ := exists_of_forall₂_right each mem
        exact eq.plain_iff.mp (plain u hu)
      rw [flatMap_items_eq_self chain plain' (by rw [perm.length_eq]; omega)] at perm
      exact .pair (perm.length_eq.symm.trans count.symm)
        (.inr ⟨F.commutative_of_isChain chain, perm.symm⟩)
  · rename_i chain
    rw [operands_eq_self chain, operands_eq_self chain] at pairs
    obtain ⟨zs, arranged, each⟩ := pairs.symm (T := fun t u => Alike F u t) fun _ _ => id
    have each : List.Forall₂ (fun u t => Equal F (u.subst θ) t) ys zs := by
      rw [List.forall₂_map_right_iff] at each
      refine List.Forall₂.flip (forall₂_imp_mem each fun t mt u mu alike => ?_)
      exact alike.equal ((plain_app.mp instanced).2 _ (List.mem_map_of_mem mu))
        ((plain_app.mp ht).2 t (arranged.perm.mem_iff.mpr mt))
    have lineup : Lineup F (.app op xs a) (.app op ys b) (zs.zip (operands F op ys)) := by
      refine .pair ?_ ?_
      · rw [operands_eq_self chain, operands_eq_self chain, arranged.perm.length_eq, each.length_eq]
      · rwa [operands_eq_self chain]
    rw [operands_eq_self chain] at lineup
    exact ⟨_, lineup, zipped each⟩

/-- What a variable is assigned may be put in for it. -/
theorem equal_fill {v : UInt32} (equal : Equal F (θ v) t) (ground : t.Ground)
    (h : ∀ p ∈ ps, Equal F (p.2.subst θ) p.1) :
    ∀ p ∈ fill (only v t) ps, Equal F (p.2.subst θ) p.1 := by
  rw [List.forall_mem_map]
  intro p hp
  refine .trans ?_ (h p hp)
  rw [subst_subst]
  refine .subst_congr fun w _ => ?_
  by_cases eq : w = v
  · rw [eq, only_self, ground.subst]
    exact equal.symm
  · rw [only_of_ne eq, subst_var]
    exact .refl _

/-- Where a variable is bound first, the others are left to what follows. -/
theorem equal_andThen_only {v w : UInt32} (equal : Equal F (θ v) t) (ground : t.Ground)
    (images : ∀ w, (∃ p ∈ fill (only v t) ps, p.2.HasVar w) → Equal F (σ w) (θ w))
    (has : ∃ p ∈ (t, .var v) :: ps, p.2.HasVar w) : Equal F (andThen (only v t) σ w) (θ w) := by
  by_cases eq : w = v
  · rw [eq, andThen, only_self, ground.subst]
    exact equal.symm
  · obtain ⟨p, mem, has⟩ := has
    rw [andThen, only_of_ne eq, subst_var]
    refine images w ⟨_, List.mem_map_of_mem (List.mem_of_ne_of_mem ?_ mem), ?_⟩
    · rintro rfl
      exact eq (hasVar_var.mp has)
    · exact hasVar_subst.mpr ⟨w, has, by rw [only_of_ne eq]; exact .var⟩

/-- Trees that are equal to instances of patterns, under one assignment, match them in some way, and each
    variable gets a tree that is equal to the one assigned to it. -/
theorem exists_matches (plain : ∀ p ∈ ps, Plain F p.1 ∧ Plain F p.2) (ground : ∀ p ∈ ps, p.1.Ground)
    (h : ∀ p ∈ ps, Equal F (p.2.subst θ) p.1) :
    ∃ σ, Matches F ps σ ∧ ∀ v, (∃ p ∈ ps, p.2.HasVar v) → Equal F (σ v) (θ v) := by
  generalize left : (ps.map fun p => p.1.size).sum = n
  induction n using Nat.strong_induction_on generalizing ps with
  | _ n ih =>
    subst left
    match ps with
    | [] =>
      refine ⟨_, .nil, ?_⟩
      rintro v ⟨p, mem, -⟩
      cases mem
    | (t, u) :: rest =>
      rw [List.forall_mem_cons] at plain ground h
      rw [List.map_cons, List.sum_cons] at ih
      dsimp only at ih
      have pos : 0 < t.size := by
        cases t <;> exact Nat.succ_pos _
      obtain ⟨σ, others, images⟩ : ∃ σ, Matches F rest σ ∧
          ∀ v, (∃ p ∈ rest, p.2.HasVar v) → Equal F (σ v) (θ v) :=
        ih (rest.map fun p => p.1.size).sum (by omega) plain.2 ground.2 h.2 rfl
      -- Where the first pair has no variables, those of the others are all there are.
      have kept : (∀ v, ¬ u.HasVar v) →
          ∀ v, (∃ p ∈ (t, u) :: rest, p.2.HasVar v) → Equal F (σ v) (θ v) := by
        rintro none v ⟨p, mem, has⟩
        rcases List.mem_cons.mp mem with rfl | mem
        · exact absurd has (none v)
        · exact images v ⟨p, mem, has⟩
      have equal := h.1
      cases u with
      | var v =>
        have sizes : ((fill (only v t) rest).map fun p => p.1.size) = rest.map fun p => p.1.size := by
          rw [List.map_map]
          rfl
        have grounds : ∀ p ∈ fill (only v t) rest, p.1.Ground := List.forall_mem_map.mpr ground.2
        obtain ⟨σ, matched, images⟩ := ih (rest.map fun p => p.1.size).sum (by omega)
          (over_fill plain.1.1 plain.2) grounds (equal_fill equal ground.1 h.2) (congrArg _ sizes)
        exact ⟨_, .bind ground.1 matched, fun w => equal_andThen_only equal ground.1 images⟩
      | leaf m =>
        cases equal.alike with
        | leaf same =>
          rcases same.symm.eq_or_valueEq with rfl | value
          · exact ⟨σ, .same ground.1 others, kept fun _ => not_hasVar_leaf⟩
          · exact ⟨σ, .leaf value others, kept fun _ => not_hasVar_leaf⟩
      | unknown id =>
        cases equal.alike with
        | unknown => exact ⟨σ, .same ground.1 others, kept fun _ => not_hasVar_unknown⟩
      | app op ys b =>
        have alike := equal.alike
        rw [subst_app] at alike
        cases t with
        | app f xs a =>
          obtain rfl := (Alike.app_iff.mp alike).1
          obtain ⟨pairs, lineup, each⟩ := equal.exists_lineup plain.1.1 plain.1.2
          have less := lineup.sum_size_lt plain.1.1 plain.1.2
          obtain ⟨σ, matched, images⟩ := ih ((pairs ++ rest).map fun p => p.1.size).sum
            (by rw [List.map_append, List.sum_append]; omega)
            (List.forall_mem_append.mpr ⟨lineup.plain plain.1.1 plain.1.2, plain.2⟩)
            (List.forall_mem_append.mpr ⟨lineup.ground ground.1, ground.2⟩)
            (List.forall_mem_append.mpr ⟨each, h.2⟩) rfl
          obtain rfl := (plain_app.mp plain.1.1).1.1
          obtain rfl := (plain_app.mp plain.1.2).1.1
          refine ⟨σ, .app rfl lineup matched, ?_⟩
          rintro v ⟨p, mem, has⟩
          refine images v ?_
          rcases List.mem_cons.mp mem with rfl | mem
          · obtain ⟨p, mem, has⟩ := lineup.hasVar.mp has
            exact ⟨p, List.mem_append_left _ mem, has⟩
          · exact ⟨p, List.mem_append_right _ mem, has⟩
        | _ => cases alike

/-- A plain pattern matches a plain ground tree in some way just if the two are equal under some
    assignment. -/
theorem exists_matches_iff (ht : Plain F t) (ground : t.Ground) (hu : Plain F u) :
    (∃ σ, Matches F [(t, u)] σ) ↔ ∃ θ, Equal F (u.subst θ) t := by
  have plain : ∀ p ∈ [(t, u)], Plain F p.1 ∧ Plain F p.2 := List.forall_mem_singleton.mpr ⟨ht, hu⟩
  constructor
  · exact fun ⟨σ, matched⟩ => ⟨σ, matched.equal plain _ (.head _)⟩
  · rintro ⟨θ, equal⟩
    obtain ⟨σ, matched, -⟩ := exists_matches plain (List.forall_mem_singleton.mpr ground)
      (List.forall_mem_singleton.mpr equal)
    exact ⟨σ, matched⟩

end Tree

end Regraft
