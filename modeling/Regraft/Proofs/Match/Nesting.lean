import Regraft.Proofs.Match.Instances
import Regraft.Proofs.Term.Same

/-
  How chains are nested does not matter to matching. A tree is flattened by making one application of each
  chain (`Tree.flat`), and trees with the same flattened form differ only in how their chains are nested
  (`Tree.Renested`). Where trees without attributes match patterns, the trees and the patterns nested in
  another way match, and the variables get the same trees, nested in another way (`Matches.renested`).
-/

namespace Regraft

namespace Tree

variable {F : Facts} {op : String} {t u w g : Tree} {xs ys : List Tree} {a b : Attrs} {v : UInt32}

theorem IsApp.exists_app (h : t.IsApp op) : ∃ xs a, t = .app op xs a := by
  cases t with
  | app f xs a =>
    obtain rfl : f = op := h
    exact ⟨xs, a, rfl⟩
  | _ => cases h

/-! ## Flattened trees -/

/-- The tree with one application for each chain. -/
def flat (F : Facts) : Tree → Tree :=
  fold .var .leaf (fun op attrs ts => .app op (operands F op ts) attrs) .unknown

@[simp] theorem flat_var : (var v).flat F = var v := rfl

@[simp] theorem flat_leaf {l : Leaf} : (leaf l).flat F = leaf l := rfl

@[simp] theorem flat_unknown {id : TermId} : (unknown id).flat F = unknown id := rfl

theorem isApp_flat : (t.flat F).IsApp op ↔ t.IsApp op := by
  cases t with
  | app f args attrs =>
    rw [flat, fold_app]
    rfl
  | _ => exact Iff.rfl

/-- Flattening changes the operands of a chain, and not which they are. -/
theorem items_flat (chain : F.isChain op = true) (t : Tree) :
    (t.flat F).items op = (t.items op).map (flat F) := by
  induction t with
  | app f args attrs ih =>
    by_cases hf : f = op
    · subst hf
      rw [flat, fold_app, items_app_self, items_app_self, operands, if_pos chain,
        flatMap_items_of_not_isApp fun u hu => ?_, List.flatMap_map, List.map_flatMap]
      · exact List.flatMap_congr ih
      · obtain ⟨_, -, hu⟩ := List.mem_flatMap.mp hu
        exact not_isApp_of_mem_items hu
    · have single : ¬ (app f args attrs).IsApp op := hf
      rw [items_of_not_isApp single, items_of_not_isApp (mt isApp_flat.mp single), List.map_singleton]
  | _ => rfl

theorem operands_flat (xs : List Tree) :
    operands F op (xs.map (flat F)) = (operands F op xs).map (flat F) := by
  unfold operands
  split
  · rename_i chain
    rw [List.flatMap_map, List.map_flatMap]
    exact List.flatMap_congr fun t _ => items_flat chain t
  · rfl

theorem flat_app : (app op xs a).flat F = app op ((operands F op xs).map (flat F)) a := by
  rw [← operands_flat]
  exact fold_app ..

/-- The operands of a chain are no chains of their own. -/
theorem operands_operands (chain : F.isChain op = true) :
    operands F op (operands F op xs) = operands F op xs := by
  have single : ∀ u ∈ operands F op xs, ¬ u.IsApp op := fun u hu =>
    not_isApp_of_mem_items (t := .app op xs .unspecified) (operands_eq_items chain ▸ hu)
  conv => lhs; rw [operands, if_pos chain, flatMap_items_of_not_isApp single]

theorem size_lt_of_mem_operands (h : t ∈ operands F op xs) : t.size < (app op xs a).size := by
  unfold operands at h
  split at h
  · obtain ⟨x, hx, ht⟩ := List.mem_flatMap.mp h
    exact Nat.lt_of_le_of_lt (size_le_of_mem_items ht) (size_lt hx)
  · exact size_lt h

theorem hasVar_flat : (t.flat F).HasVar v ↔ t.HasVar v := by
  induction t using size_induct with
  | step t ih =>
    cases t with
    | app op xs a =>
      rw [flat_app, hasVar_app, Alike.hasVar_operands (F := F)]
      simp only [List.mem_map, exists_exists_and_eq_and]
      exact exists_congr fun u => and_congr_right fun hu => ih u (size_lt_of_mem_operands hu)
    | _ => rfl

/-! ## Trees nested in another way -/

/-- The trees differ only in how their chains are nested. -/
def Renested (F : Facts) (t u : Tree) : Prop := t.flat F = u.flat F

namespace Renested

theorem refl (t : Tree) : Renested F t t := rfl

theorem symm (h : Renested F t u) : Renested F u t := Eq.symm h

theorem trans (h : Renested F t u) (h' : Renested F u w) : Renested F t w := Eq.trans h h'

theorem app_iff {f : String} : Renested F (app op xs a) (app f ys b) ↔
    op = f ∧ a = b ∧ List.Forall₂ (Renested F) (operands F op xs) (operands F f ys) := by
  unfold Renested
  rw [flat_app, flat_app, app.injEq, ← List.forall₂_eq_eq_eq, List.forall₂_map_left_iff,
    List.forall₂_map_right_iff]
  exact and_congr_right fun _ => and_comm

theorem eq_var (h : Renested F t (var v)) : t = var v := by
  cases t with
  | app op xs a =>
    rw [Renested, flat_app] at h
    cases h
  | _ => exact h

theorem eq_leaf {l : Leaf} (h : Renested F t (leaf l)) : t = leaf l := by
  cases t with
  | app op xs a =>
    rw [Renested, flat_app] at h
    cases h
  | _ => exact h

theorem eq_unknown {id : TermId} (h : Renested F t (unknown id)) : t = unknown id := by
  cases t with
  | app op xs a =>
    rw [Renested, flat_app] at h
    cases h
  | _ => exact h

theorem exists_app (h : Renested F t (app op ys b)) :
    ∃ xs, t = app op xs b ∧ List.Forall₂ (Renested F) (operands F op xs) (operands F op ys) := by
  cases t with
  | app f xs a =>
    obtain ⟨rfl, rfl, each⟩ := app_iff.mp h
    exact ⟨xs, rfl, each⟩
  | _ =>
    rw [Renested, flat_app] at h
    cases h

theorem isVar_eq (h : Renested F t u) : t.isVar = u.isVar := by
  cases u with
  | app op ys b =>
    obtain ⟨xs, rfl, -⟩ := h.exists_app
    rfl
  | var v => rw [h.eq_var]
  | leaf l => rw [h.eq_leaf]
  | unknown id => rw [h.eq_unknown]

theorem ground (h : Renested F t u) (hu : u.Ground) : t.Ground := fun v hv =>
  hu v (hasVar_flat.mp (h ▸ hasVar_flat.mpr hv))

theorem items (chain : F.isChain op = true) (h : Renested F t u) :
    List.Forall₂ (Renested F) (t.items op) (u.items op) := by
  have eq := congrArg (Tree.items op) h
  rw [items_flat chain, items_flat chain, ← List.forall₂_eq_eq_eq, List.forall₂_map_left_iff,
    List.forall₂_map_right_iff] at eq
  exact eq

/-- Trees that differ only in how their chains are nested are alike. -/
theorem alike (h : Renested F t u) : Alike F t u := by
  induction t using size_induct generalizing u with
  | step t ih =>
    cases u with
    | app op ys b =>
      obtain ⟨xs, rfl, each⟩ := h.exists_app
      exact .of_pairs (.of_forall₂ (forall₂_imp_mem each fun t ht u _ h =>
        ih t (size_lt_of_mem_operands ht) h))
    | var v => rw [h.eq_var]; exact .refl _
    | leaf l => rw [h.eq_leaf]; exact .refl _
    | unknown id => rw [h.eq_unknown]; exact .refl _

/-- Instances of trees nested in another way are nested in another way. -/
theorem subst {σ τ : UInt32 → Tree} (h : Renested F t u)
    (each : ∀ v, t.HasVar v → Renested F (σ v) (τ v)) : Renested F (t.subst σ) (u.subst τ) := by
  induction t using size_induct generalizing u with
  | step t ih =>
    cases u with
    | app op ys b =>
      obtain ⟨xs, rfl, pairs⟩ := h.exists_app
      rw [subst_app, subst_app, app_iff, Alike.operands_subst, Alike.operands_subst]
      have inner : List.Forall₂ (fun t u => Renested F (t.subst σ) (u.subst τ)) (operands F op xs)
          (operands F op ys) := forall₂_imp_mem pairs fun t ht u _ h =>
        ih t (size_lt_of_mem_operands ht) h fun v hv =>
          each v (Alike.hasVar_operands.mpr ⟨t, ht, hv⟩)
      refine ⟨rfl, rfl, ?_⟩
      split
      · rename_i chain
        rw [List.flatMap_def, List.flatMap_def]
        refine List.rel_flatten ?_
        rw [List.forall₂_map_left_iff, List.forall₂_map_right_iff]
        exact inner.imp fun t u h => h.items chain
      · rwa [List.forall₂_map_left_iff, List.forall₂_map_right_iff]
    | var v =>
      obtain rfl := h.eq_var
      exact each v .var
    | leaf l => rw [h.eq_leaf]; exact .refl _
    | unknown id => rw [h.eq_unknown]; exact .refl _

end Renested

/-! ## Groups -/

/-- Some trees as one: the tree itself if there is one, or else an application to all of them. -/
def joined (op : String) : List Tree → Tree
  | [t] => t
  | ts => .app op ts .unspecified

theorem joined_of_length (h : xs.length ≠ 1) : joined op xs = .app op xs .unspecified := by
  match xs with
  | [] => rfl
  | [t] => exact absurd rfl h
  | _ :: _ :: _ => rfl

/-- Operands of trees nested in another way are nested in another way. -/
theorem Renested.operands (h : List.Forall₂ (Renested F) xs ys) :
    List.Forall₂ (Renested F) (operands F op xs) (operands F op ys) := by
  unfold Tree.operands
  split
  · rename_i chain
    rw [List.flatMap_def, List.flatMap_def]
    refine List.rel_flatten ?_
    rw [List.forall₂_map_left_iff, List.forall₂_map_right_iff]
    exact h.imp fun t u h => h.items chain
  · exact h

theorem Bare.attrs_eq (h : (app op xs a).Bare) : a = .unspecified := (over_app.mp h).1

theorem Bare.filled (h : t.Bare) : t.Filled := h.imp fun
  | .leaf (.const _), fills => fills
  | .leaf (.input _), _ => trivial
  | .node _ _ _, _ => trivial

theorem Plain.bare (h : Plain F t) : t.Bare := h.imp fun
  | .leaf (.const _), fills => fills
  | .leaf (.input _), _ => trivial
  | .node _ _ _, plain => plain.1

theorem Strand.group_single {positions : List Nat}
    (single : positions.filterMap ((t.items op)[·]?) = [u])
    (made : (Strand.of op t).group op positions = some g) : g = u := by
  unfold group at made
  rw [(of_reads op t).items_eq, single] at made
  exact (Option.some.inj made).symm

/-- Chains of the same operands differ only in how they are nested. -/
theorem Bare.renested_of_items (ht : t.Bare) (chain : F.isChain op = true) (isApp : t.IsApp op)
    (h : t.items op = xs) : Renested F t (app op xs .unspecified) := by
  obtain ⟨zs, a, rfl⟩ := isApp.exists_app
  obtain rfl := ht.attrs_eq
  rw [← h, Renested.app_iff, ← operands_eq_items (a := .unspecified) chain, operands_operands chain]
  exact ⟨rfl, rfl, List.forall₂_same.mpr fun u _ => .refl u⟩

/-- A group is what the items at its positions come to, however they are nested. -/
theorem Strand.renested_group {positions : List Nat} (chain : F.isChain op = true) (bare : t.Bare)
    (ascending : positions.Pairwise (· < ·)) (made : (Strand.of op t).group op positions = some g) :
    Renested F g (joined op (positions.filterMap ((t.items op)[·]?))) := by
  have items := (group_spec ascending made).1
  have bare : g.Bare := over_group rfl bare made
  by_cases one : (positions.filterMap ((t.items op)[·]?)).length = 1
  · obtain ⟨u, eq⟩ := List.length_eq_one_iff.mp one
    rw [group_single eq made, eq]
    exact .refl u
  · have isApp : g.IsApp op := by
      by_contra single
      rw [items_of_not_isApp single] at items
      rw [← items] at one
      exact one rfl
    rw [joined_of_length one]
    exact bare.renested_of_items chain isApp items

theorem renested_joined (h : List.Forall₂ (Renested F) xs ys) :
    Renested F (joined op xs) (joined op ys) := by
  by_cases one : xs.length = 1
  · obtain ⟨t, rfl⟩ := List.length_eq_one_iff.mp one
    obtain ⟨u, us, renested, rest, rfl⟩ := List.forall₂_cons_left_iff.mp h
    obtain rfl := List.forall₂_nil_left_iff.mp rest
    exact renested
  · rw [joined_of_length one, joined_of_length (h.length_eq ▸ one), Renested.app_iff]
    exact ⟨rfl, rfl, Renested.operands h⟩

/-- Bare trees that differ only in how their chains are nested. -/
structure Renests (F : Facts) (t u : Tree) : Prop where
  renested : Renested F t u
  left : t.Bare
  right : u.Bare

/-- Chains with the same parts for some slots have the same groups for them, however they are nested. -/
theorem Strand.exists_groups {assignment assignment' : List Nat} {slots : List Nat} {ts : List Tree}
    (chain : F.isChain op = true) (ht : t.Bare) (hu : u.Bare)
    (made : List.Forall₂ (fun slot g =>
      (Strand.of op t).group op (Search.members assignment slot) = some g) slots ts)
    (parts : ∀ slot ∈ slots, List.Forall₂ (Renested F)
      ((Search.members assignment slot).filterMap ((t.items op)[·]?))
      ((Search.members assignment' slot).filterMap ((u.items op)[·]?))) :
    ∃ us, List.Forall₂ (fun slot g =>
        (Strand.of op u).group op (Search.members assignment' slot) = some g) slots us ∧
      List.Forall₂ (Renests F) ts us := by
  induction made with
  | nil => exact ⟨[], .nil, .nil⟩
  | @cons slot g slots ts made _ ih =>
    rw [List.forall_mem_cons] at parts
    obtain ⟨us, later, others⟩ := ih parts.2
    have group := renested_group chain ht (Search.members_ascending assignment slot) made
    obtain ⟨g', made'⟩ : ∃ g', (Strand.of op u).group op (Search.members assignment' slot) = some g' := by
      refine Strand.exists_group _ fun none => ?_
      rw [(of_reads op u).items_eq] at none
      have nil := parts.1.length_eq
      rw [none, List.length_nil, List.length_eq_zero_iff] at nil
      unfold Strand.group at made
      rw [(of_reads op t).items_eq, nil] at made
      cases made
    have group' := renested_group chain hu (Search.members_ascending assignment' slot) made'
    refine ⟨g' :: us, .cons made' later, .cons ⟨?_, over_group rfl ht made, over_group rfl hu made'⟩ others⟩
    exact (group.trans (renested_joined parts.1)).trans group'.symm

/-! ## Lineups -/

/-- A tree and a pattern, and the same nested in another way. -/
structure RenestsPair (F : Facts) (p q : Tree × Tree) : Prop where
  tree : Renests F p.1 q.1
  pattern : Renested F p.2 q.2

theorem renests_zip {ts ts' us us' : List Tree} (trees : List.Forall₂ (Renests F) ts ts')
    (patterns : List.Forall₂ (Renested F) us us') :
    List.Forall₂ (RenestsPair F) (ts.zip us) (ts'.zip us') := by
  induction trees generalizing us us' with
  | nil => exact .nil
  | cons tree _ ih =>
    cases patterns with
    | nil => exact .nil
    | cons pattern patterns => exact .cons ⟨tree, pattern⟩ (ih patterns)

theorem Lineup.renested {xs' ys' : List Tree} {ps : List (Tree × Tree)}
    (h : Lineup F (app op xs a) (app op ys b) ps)
    (trees : Renests F (app op xs a) (app op xs' a)) (patterns : Renested F (app op ys b) (app op ys' b)) :
    ∃ qs, Lineup F (app op xs' a) (app op ys' b) qs ∧ List.Forall₂ (RenestsPair F) ps qs := by
  obtain ⟨-, -, left⟩ := Renested.app_iff.mp trees.renested
  obtain ⟨-, -, right⟩ := Renested.app_iff.mp patterns
  cases h with
  | pair length arranged =>
    have each : List.Forall₂ (Renests F) (operands F op xs) (operands F op xs') :=
      forall₂_imp_mem left fun t ht u hu h =>
        ⟨h, trees.left.of_mem_operands ht, trees.right.of_mem_operands hu⟩
    obtain ⟨zs', each, arranged'⟩ := arranged.symm.forall₂ each
    refine ⟨zs'.zip (operands F op ys'), .pair ?_ arranged'.symm, renests_zip each right⟩
    rw [← left.length_eq, ← right.length_eq, length]
  | @group _ _ _ ts _ _ assignment chain longer absorbs length bound ok made =>
    have vars : (operands F op ys').map isVar = (operands F op ys).map isVar := by
      rw [← List.forall₂_eq_eq_eq, List.forall₂_map_left_iff, List.forall₂_map_right_iff]
      exact List.Forall₂.flip (right.imp fun t u h => h.isVar_eq.symm)
    obtain ⟨ts', made', each⟩ := Strand.exists_groups chain trees.left trees.right made fun slot _ =>
      Search.forall₂_filterMap (trees.renested.items chain) (Search.members assignment slot)
    rw [left.length_eq] at longer length
    rw [right.length_eq] at longer bound made'
    rw [← vars] at absorbs ok
    exact ⟨_, .group chain longer absorbs length bound ok made', renests_zip each right⟩

/-! ## Matches -/

/-- Patterns without variables match the trees that they are, nested in another way. -/
theorem Matches.of_renested (h : Renested F t u) (ground : u.Ground) : Matches F [(t, u)] .var := by
  induction t using size_induct generalizing u with
  | step t ih =>
    cases u with
    | var v => exact absurd .var (ground v)
    | leaf l =>
      rw [h.eq_leaf]
      exact .same ground .nil
    | unknown id =>
      rw [h.eq_unknown]
      exact .same ground .nil
    | app op ys b =>
      obtain ⟨xs, rfl, each⟩ := h.exists_app
      have all : ∀ {ts us : List Tree}, List.Forall₂ (Renested F) ts us →
          (∀ t ∈ ts, t ∈ operands F op xs) → (∀ u ∈ us, u ∈ operands F op ys) →
          Matches F (ts.zip us) .var := by
        intro ts us pairs
        induction pairs with
        | nil => exact fun _ _ => .nil
        | @cons t u ts us renested _ ihPairs =>
          intro left right
          rw [List.forall_mem_cons] at left right
          have inner : u.Ground := fun v hv => ground v (Alike.hasVar_operands.mpr ⟨u, right.1, hv⟩)
          have first := ih t (size_lt_of_mem_operands left.1) renested inner
          exact first.append (by rw [fill_var]; exact ihPairs left.2 right.2)
      refine (app_iff (h.ground ground)).mpr ⟨rfl, b.compatible_self, _, .pair each.length_eq (.inl rfl), ?_⟩
      exact all each (fun _ => id) fun _ => id

/-- Trees and patterns that match also match nested in another way, and give the variables the same
    trees, nested in another way. -/
theorem Matches.renested {ps qs : List (Tree × Tree)} {σ : UInt32 → Tree} (h : Matches F ps σ)
    (each : List.Forall₂ (RenestsPair F) ps qs) :
    ∃ τ, Matches F qs τ ∧ ∀ v, Renested F (σ v) (τ v) := by
  induction h generalizing qs with
  | nil =>
    obtain rfl := List.forall₂_nil_left_iff.mp each
    exact ⟨.var, .nil, fun _ => .refl _⟩
  | same ground later ih =>
    obtain ⟨⟨t', u'⟩, qs, pair, rest, rfl⟩ := List.forall₂_cons_left_iff.mp each
    obtain ⟨τ, matched, renested⟩ := ih rest
    have first : Matches F [(t', u')] .var := .of_renested (pair.tree.renested.symm.trans pair.pattern)
      (pair.pattern.symm.ground ground)
    exact ⟨τ, first.append (by rwa [fill_var]), renested⟩
  | @bind t v rest θ ground later ih =>
    obtain ⟨⟨t', u'⟩, qs, pair, others, rfl⟩ := List.forall₂_cons_left_iff.mp each
    obtain rfl : u' = var v := pair.pattern.symm.eq_var
    have put : ∀ w, Renested F (only v t w) (only v t' w) := by
      intro w
      by_cases eq : w = v
      · rw [eq, only_self, only_self]
        exact pair.tree.renested
      · rw [only_of_ne eq, only_of_ne eq]
        exact .refl _
    have filled : List.Forall₂ (RenestsPair F) (fill (only v t) rest) (fill (only v t') qs) := by
      rw [List.forall₂_map_left_iff, List.forall₂_map_right_iff]
      exact others.imp fun p q h => ⟨h.tree, h.pattern.subst fun w _ => put w⟩
    obtain ⟨τ, matched, renested⟩ := ih filled
    refine ⟨_, .bind (pair.tree.renested.symm.ground ground) matched, fun w => ?_⟩
    exact (put w).subst fun x _ => renested x
  | @leaf l m rest θ value later ih =>
    obtain ⟨⟨t', u'⟩, qs, pair, others, rfl⟩ := List.forall₂_cons_left_iff.mp each
    obtain rfl : t' = Tree.leaf l := pair.tree.renested.symm.eq_leaf
    obtain rfl : u' = Tree.leaf m := pair.pattern.symm.eq_leaf
    obtain ⟨τ, matched, renested⟩ := ih others
    exact ⟨τ, .leaf value matched, renested⟩
  | app fits lineup later ih =>
    obtain ⟨⟨t', u'⟩, qs, pair, others, rfl⟩ := List.forall₂_cons_left_iff.mp each
    obtain ⟨xs', rfl, -⟩ := pair.tree.renested.symm.exists_app
    obtain ⟨ys', rfl, -⟩ := pair.pattern.symm.exists_app
    obtain ⟨pairs', lineup', paired⟩ := lineup.renested pair.tree pair.pattern
    obtain ⟨τ, matched, renested⟩ := ih (List.rel_append paired others)
    exact ⟨τ, .app fits lineup' matched, renested⟩

/-- A pattern that matches a tree also matches the tree nested in another way. -/
theorem Matches.renests {lhs : Tree} {σ : UInt32 → Tree} (h : Matches F [(t, lhs)] σ)
    (tree : Renests F t u) : ∃ τ, Matches F [(u, lhs)] τ ∧ ∀ v, Renested F (σ v) (τ v) :=
  h.renested (.cons ⟨tree, .refl lhs⟩ .nil)

end Tree

end Regraft
