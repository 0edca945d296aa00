import Regraft.Proofs.Match.Gives
import Regraft.Proofs.Match.Instances

/-
  Two trees that may both have variables. Their operands are paired up in the ways that matching tries,
  where groups are made of the longer chain on whichever side it is (`Tree.Pairing`). What is paired up
  has all occurrences of variables that the two trees have, and no more (`Pairing.sum_varCount`), has
  less mass (`Pairing.mass_lt`), and is less deep if it is a single pair (`Pairing.depth_lt`). Two trees
  join if they come apart into pairs in this way down to variables and to leaves of one value
  (`Tree.Joins`); the sides may be exchanged (`Joins.symm`).
-/

namespace Regraft

namespace Tree

variable {F : Facts} {op f g : String} {t u : Tree} {xs ys : List Tree} {a b : Attrs} {v : UInt32}
  {ps qs : List (Tree × Tree)}

/-! ## Occurrences -/

/-- How often a variable occurs. -/
def varCount (v : UInt32) : Tree → Nat :=
  fold (fun w => if w = v then 1 else 0) (fun _ => 0) (fun _ _ counts => counts.sum) fun _ => 0

theorem varCount_var (v w : UInt32) : (var w).varCount v = if w = v then 1 else 0 := rfl

theorem varCount_leaf (v : UInt32) (l : Leaf) : (leaf l).varCount v = 0 := rfl

theorem varCount_app (v : UInt32) (op : String) (args : List Tree) (attrs : Attrs) :
    (app op args attrs).varCount v = (args.map (varCount v)).sum := fold_app ..

theorem varCount_pos_iff : 0 < t.varCount v ↔ t.HasVar v := by
  induction t with
  | var w =>
    rw [hasVar_var]
    show 0 < (if w = v then 1 else 0) ↔ _
    split <;> simp_all [eq_comm]
  | leaf l => simp [varCount, fold]
  | unknown id => simp [varCount, fold]
  | app op args attrs ih =>
    rw [varCount_app, hasVar_app, Nat.pos_iff_ne_zero, ne_eq, List.sum_eq_zero_iff]
    simp only [List.mem_map, forall_exists_index, and_imp, forall_apply_eq_imp_iff₂, not_forall,
      ← Nat.pos_iff_ne_zero, exists_prop]
    exact exists_congr fun t => and_congr_right fun ht => ih t ht

theorem sum_varCount_items (op : String) (v : UInt32) (t : Tree) :
    ((t.items op).map (varCount v)).sum = t.varCount v := by
  induction t with
  | app f args attrs ih =>
    by_cases hf : f = op
    · subst hf
      rw [items_app_self, varCount_app, List.flatMap_def, List.map_flatten, List.sum_flatten,
        List.map_map, List.map_map]
      exact congrArg List.sum (List.map_congr_left ih)
    · rw [items_of_not_isApp (t := app f args attrs) hf, List.map_singleton, List.sum_singleton]
  | _ => rfl

theorem sum_varCount_operands (F : Facts) (op : String) (v : UInt32) (args : List Tree)
    (attrs : Attrs) :
    ((operands F op args).map (varCount v)).sum = (app op args attrs).varCount v := by
  by_cases chain : F.isChain op = true
  · rw [operands_eq_items (a := attrs) chain, sum_varCount_items]
  · rw [operands_eq_self chain, varCount_app]

/-- No variable occurs twice in the trees of some pairs. -/
def Linear (ps : List (Tree × Tree)) : Prop :=
  ∀ v, (ps.map fun p => p.1.varCount v + p.2.varCount v).sum ≤ 1

/-- A variable occurs in the trees of some pairs. -/
def Mentions (ps : List (Tree × Tree)) (v : UInt32) : Prop := ∃ p ∈ ps, p.1.HasVar v ∨ p.2.HasVar v

theorem mentions_iff :
    Mentions ps v ↔ 0 < (ps.map fun p => p.1.varCount v + p.2.varCount v).sum := by
  rw [Nat.pos_iff_ne_zero, ne_eq, List.sum_eq_zero_iff]
  simp only [List.mem_map, forall_exists_index, and_imp, forall_apply_eq_imp_iff₂, not_forall,
    ← varCount_pos_iff, Mentions, exists_prop]
  exact exists_congr fun p => and_congr_right fun _ => by omega

theorem mentions_append : Mentions (ps ++ qs) v ↔ Mentions ps v ∨ Mentions qs v := by
  simp only [Mentions, List.mem_append, or_and_right, exists_or]

theorem Linear.append (h : Linear (ps ++ qs)) :
    Linear ps ∧ Linear qs ∧ ∀ v, Mentions ps v → ¬ Mentions qs v := by
  have split : ∀ v, _ + _ ≤ 1 := fun v => by
    have := h v
    rwa [List.map_append, List.sum_append] at this
  refine ⟨fun v => ?_, fun v => ?_, fun v first second => ?_⟩
  · exact Nat.le_trans (Nat.le_add_right ..) (split v)
  · exact Nat.le_trans (Nat.le_add_left ..) (split v)
  · have := split v
    have := mentions_iff.mp first
    have := mentions_iff.mp second
    omega

/-! ## Lineups -/

namespace Lineup

theorem isApp (h : Lineup F t u ps) : ∃ op xs ys a b, t = .app op xs a ∧ u = .app op ys b := by
  cases h <;> exact ⟨_, _, _, _, _, rfl, rfl⟩

/-- A lineup has the occurrences of both trees. -/
theorem sum_varCount (h : Lineup F t u ps) (v : UInt32) :
    (ps.map fun p => p.1.varCount v + p.2.varCount v).sum =
      t.varCount v + u.varCount v := by
  obtain ⟨op, xs, ys, a, b, rfl, rfl⟩ := h.isApp
  obtain ⟨ts, length, rfl, perm, arranged⟩ := h.exists_trees
  have left : ((ts.zip (operands F op ys)).map fun p => p.1.varCount v) = ts.map (varCount v) := by
    conv => rhs; rw [← List.map_fst_zip (Nat.le_of_eq length), List.map_map]
    rfl
  have right : ((ts.zip (operands F op ys)).map fun p => p.2.varCount v) =
      (operands F op ys).map (varCount v) := by
    conv => rhs; rw [← List.map_snd_zip (Nat.le_of_eq length.symm), List.map_map]
    rfl
  rw [List.sum_map_add, left, right, sum_varCount_operands]
  congr 1
  by_cases chain : F.isChain op = true
  · rw [← sum_varCount_operands F op v xs a, ← ((perm chain).map _).sum_eq, List.flatMap_def,
      List.map_flatten, List.sum_flatten, List.map_map, List.map_map]
    exact congrArg List.sum (List.map_congr_left fun t _ => (sum_varCount_items op v t).symm)
  · rw [varCount_app, ((arranged chain).perm.map _).sum_eq]

/-- What is paired up has less mass. -/
theorem mass_lt (h : Lineup F t u ps) : ∀ p ∈ ps, p.1.mass F + p.2.mass F < t.mass F + u.mass F := by
  rintro ⟨x, y⟩ hp
  cases h with
  | pair length arranged =>
    obtain ⟨hx, hy⟩ := List.of_mem_zip hp
    exact Nat.add_lt_add (mass_lt_of_mem (arranged.perm.mem_iff.mpr hx)) (mass_lt_of_mem hy)
  | @group op xs ys ts a b assignment chain longer absorbs length bound ok made =>
    obtain ⟨hx, hy⟩ := List.of_mem_zip hp
    have items : List.Forall₂ (fun slot g => Tree.items op g =
        (Search.members assignment slot).filterMap ((operands F op xs)[·]?))
          (List.range (operands F op ys).length) ts := by
      refine made.imp fun slot g made => ?_
      rw [operands_eq_items (a := a) chain]
      exact (Strand.group_spec (Search.members_ascending assignment slot) made).1
    have given : ∀ slot < (operands F op ys).length, Search.members assignment slot ≠ [] :=
      fun slot lt => Search.members_ne_nil ok (by rwa [List.length_map])
    have le : x.mass F ≤ (app op xs a).mass F :=
      (mass_groups chain rfl length bound given items x hx).1
    exact Nat.add_lt_add_of_le_of_lt le (mass_lt_of_mem hy)

/-- A single pair is less deep: its right side is an operand, and its left side one as well, unless the right
    one is a variable. -/
theorem depth_lt {p : Tree × Tree} (h : Lineup F t u [p]) :
    min p.1.depth p.2.depth < min t.depth u.depth := by
  generalize eq : [p] = ps at h
  have hp : p ∈ ps := eq ▸ .head _
  cases h with
  | @pair op xs ys zs a b length arranged =>
    obtain ⟨hx, hy⟩ := List.of_mem_zip hp
    have left : p.1.depth < (app op xs a).depth :=
      depth_lt_of_mem_operands (arranged.perm.mem_iff.mpr hx)
    have right : p.2.depth < (app op ys b).depth := depth_lt_of_mem_operands hy
    omega
  | @group op xs ys ts a b assignment chain longer absorbs length bound ok made =>
    have count := made.length_eq
    rw [List.length_range] at count
    have alone : operands F op ys = [p.2] := by
      rw [← List.map_snd_zip (Nat.le_of_eq count), ← eq]
      rfl
    rw [alone] at absorbs
    have shallow : p.2.depth = 0 := by
      cases hp : p.2 with
      | var v => rfl
      | _ =>
        rw [hp] at absorbs
        cases absorbs
    rw [depth_app, depth_app, shallow]
    omega

end Lineup

/-! ## Pairings -/

/-- The ways to pair up the operands of two trees, with groups of the longer chain on either side. -/
def Pairing (F : Facts) (t u : Tree) (ps : List (Tree × Tree)) : Prop :=
  Lineup F t u ps ∨ Lineup F u t (ps.map Prod.swap)

namespace Pairing

theorem symm (h : Pairing F t u ps) : Pairing F u t (ps.map Prod.swap) := by
  have twice : (ps.map Prod.swap).map Prod.swap = ps := by
    rw [List.map_map, Prod.swap_swap_eq, List.map_id]
  exact h.elim (fun h => .inr (twice.symm ▸ h)) .inl

theorem sum_varCount (h : Pairing F t u ps) (v : UInt32) :
    (ps.map fun p => p.1.varCount v + p.2.varCount v).sum =
      t.varCount v + u.varCount v := by
  rcases h with h | h
  · exact h.sum_varCount v
  · have sum := h.sum_varCount v
    rw [List.map_map] at sum
    rw [Nat.add_comm, ← sum]
    exact congrArg List.sum (List.map_congr_left fun p _ => Nat.add_comm ..)

theorem linear (h : Pairing F t u ps) (one : Linear [(t, u)]) : Linear ps := fun v => by
  have le := one v
  rw [List.map_singleton, List.sum_singleton] at le
  rwa [h.sum_varCount v]

theorem mentions (h : Pairing F t u ps) : Mentions ps v ↔ Mentions [(t, u)] v := by
  rw [mentions_iff, mentions_iff, h.sum_varCount v, List.map_singleton, List.sum_singleton]

theorem mass_lt (h : Pairing F t u ps) : ∀ p ∈ ps, p.1.mass F + p.2.mass F < t.mass F + u.mass F := by
  intro p hp
  rcases h with h | h
  · exact h.mass_lt p hp
  · have := h.mass_lt _ (List.mem_map_of_mem hp)
    rw [Prod.fst_swap, Prod.snd_swap] at this
    omega

theorem depth_lt {p : Tree × Tree} (h : Pairing F t u [p]) :
    min p.1.depth p.2.depth < min t.depth u.depth := by
  rcases h with h | h
  · exact h.depth_lt
  · have := h.depth_lt
    rw [Prod.fst_swap, Prod.snd_swap] at this
    omega

end Pairing

section

variable {R : Tree → Tree → Prop}

theorem exists_pairing_symm :
    (∃ ps, Pairing F t u ps ∧ ∀ p ∈ ps, R p.1 p.2) ↔ ∃ ps, Pairing F u t ps ∧ ∀ p ∈ ps, R p.2 p.1 := by
  have turn : ∀ {t u : Tree} {R : Tree → Tree → Prop}, (∃ ps, Pairing F t u ps ∧ ∀ p ∈ ps, R p.1 p.2) →
      ∃ ps, Pairing F u t ps ∧ ∀ p ∈ ps, R p.2 p.1 := by
    rintro t u R ⟨ps, pairing, each⟩
    refine ⟨_, pairing.symm, fun p hp => ?_⟩
    obtain ⟨q, hq, rfl⟩ := List.mem_map.mp hp
    exact each q hq
  exact ⟨turn, turn (R := fun x y => R y x)⟩

theorem exists_lineup_of_length (length : (operands F op xs).length = (operands F op ys).length) :
    (∃ ps, Lineup F (.app op xs a) (.app op ys b) ps ∧ ∀ p ∈ ps, R p.1 p.2) ↔
      F.Pairs R op (operands F op xs) (operands F op ys) := by
  have zipped : ∀ {zs : List Tree}, F.Arranges op (operands F op xs) zs →
      ((∀ p ∈ zs.zip (operands F op ys), R p.1 p.2) ↔ List.Forall₂ R zs (operands F op ys)) := by
    intro zs arranged
    rw [List.forall₂_iff_zip]
    constructor
    · exact fun each => ⟨arranged.perm.length_eq.symm.trans length, fun mem => each _ mem⟩
    · exact fun each p hp => each.2 hp
  constructor
  · rintro ⟨_, ⟨-, arranged⟩ | ⟨-, longer⟩, each⟩
    · exact ⟨_, arranged, (zipped arranged).mp each⟩
    · omega
  · rintro ⟨zs, arranged, each⟩
    exact ⟨_, .pair length arranged, (zipped arranged).mpr each⟩

/-- Equally many operands are paired up in an order that the facts allow. -/
theorem exists_pairing_of_length (length : (operands F op xs).length = (operands F op ys).length) :
    (∃ ps, Pairing F (.app op xs a) (.app op ys b) ps ∧ ∀ p ∈ ps, R p.1 p.2) ↔
      F.Pairs R op (operands F op xs) (operands F op ys) := by
  constructor
  · rintro ⟨ps, lineup | lineup, each⟩
    · exact (exists_lineup_of_length length).mp ⟨ps, lineup, each⟩
    · have turned : ∀ q ∈ ps.map Prod.swap, R q.2 q.1 := by
        intro q hq
        obtain ⟨p, hp, rfl⟩ := List.mem_map.mp hq
        exact each p hp
      have pairs := (exists_lineup_of_length (R := fun x y => R y x) length.symm).mp
        ⟨_, lineup, turned⟩
      exact pairs.symm fun _ _ => id
  · intro pairs
    obtain ⟨ps, lineup, each⟩ := (exists_lineup_of_length length).mpr pairs
    exact ⟨ps, .inl lineup, each⟩

end

/-- Groups are made of the longer chain. -/
theorem pairing_of_longer (longer : (operands F op ys).length < (operands F op xs).length) :
    Pairing F (.app op xs a) (.app op ys b) ps ↔ Lineup F (.app op xs a) (.app op ys b) ps := by
  refine ⟨fun pairing => pairing.resolve_right fun lineup => ?_, .inl⟩
  exact Search.not_lineup (Nat.ne_of_lt longer) (fun _ shorter => by omega) lineup

/-- Different numbers of operands are not paired up unless a variable of the shorter chain takes
    several. -/
theorem not_pairing (length : (operands F op xs).length ≠ (operands F op ys).length)
    (left : F.isChain op = true → (operands F op ys).length < (operands F op xs).length →
      ((operands F op ys).map isVar).contains true = false)
    (right : F.isChain op = true → (operands F op xs).length < (operands F op ys).length →
      ((operands F op xs).map isVar).contains true = false) :
    ¬ Pairing F (.app op xs a) (.app op ys b) ps :=
  not_or.mpr ⟨Search.not_lineup length left, Search.not_lineup length.symm right⟩

/-! ## Trees that join -/

/-- Two trees come apart into pairs, down to variables and to leaves of one value. -/
inductive Joins (F : Facts) : Tree → Tree → Prop
  | left (v : UInt32) (t : Tree) : Joins F (.var v) t
  | right (t : Tree) (v : UInt32) : Joins F t (.var v)
  | unknown (id : TermId) : Joins F (.unknown id) (.unknown id)
  | leaf {l m : Leaf} (value : l = m ∨ l.valueEq m = true) : Joins F (.leaf l) (.leaf m)
  | app {op : String} {xs ys : List Tree} {a b : Attrs} {ps : List (Tree × Tree)}
      (fits : a.compatible b = true) (pairing : Pairing F (.app op xs a) (.app op ys b) ps)
      (each : ∀ p ∈ ps, Joins F p.1 p.2) : Joins F (.app op xs a) (.app op ys b)

theorem joins_app_iff : Joins F (.app f xs a) (.app g ys b) ↔ f = g ∧ a.compatible b = true ∧
    ∃ ps, Pairing F (.app f xs a) (.app g ys b) ps ∧ ∀ p ∈ ps, Joins F p.1 p.2 := by
  constructor
  · rintro (_ | _ | _ | _ | ⟨fits, pairing, each⟩)
    exact ⟨rfl, fits, _, pairing, each⟩
  · rintro ⟨rfl, fits, ps, pairing, each⟩
    exact .app fits pairing each

namespace Joins

theorem refl (t : Tree) : Joins F t t := by
  generalize hn : t.mass F = n
  induction n using Nat.strongRecOn generalizing t with
  | ind n ih =>
    cases t with
    | var v => exact .left v _
    | leaf l => exact .leaf (.inl rfl)
    | unknown id => exact .unknown id
    | app op args attrs =>
      have same : List.Forall₂ (Joins F) (operands F op args) (operands F op args) :=
        List.forall₂_same.mpr fun t ht => ih _ (hn ▸ mass_lt_of_mem ht) t rfl
      obtain ⟨ps, pairing, each⟩ := (exists_pairing_of_length rfl).mpr (.of_forall₂ same)
      exact .app attrs.compatible_self pairing each

theorem symm (h : Joins F t u) : Joins F u t := by
  induction h with
  | left v t => exact .right t v
  | right t v => exact .left v t
  | unknown id => exact .unknown id
  | leaf value => exact .leaf (value.imp Eq.symm Leaf.valueEq_symm)
  | app fits pairing each ih =>
    refine .app (Attrs.compatible_symm fits) pairing.symm fun p hp => ?_
    obtain ⟨q, hq, rfl⟩ := List.mem_map.mp hp
    exact ih q hq

end Joins

theorem joins_comm : Joins F t u ↔ Joins F u t := ⟨.symm, .symm⟩

end Tree

end Regraft
