import Regraft.Proofs.Match.Counts
import Regraft.Proofs.Rewriting.Anywhere
import Regraft.Proofs.Rewriting.Identities

/-
  The identities make ground trees smaller, whatever their applications look like. The number of nodes does not
  show it, since parts of a chain may be made anew with more applications than the chain had. But
  the tree gets no more ends of branches and no more negations, and fewer of both together (`Tree.Shrinks`).
  This holds for each of the patterns (`IsIdentity.shrinks_of_changes`), and for a tree in which a part has been
  rewritten (`Rewrites.shrinks`).
-/

namespace Regraft

/-- The two tallies that go down: ends of branches, and negations. -/
inductive Tally.Falls : Tally → Prop
  | leaves : Falls .leaves
  | negs : Falls (.uses "neg")

theorem Tally.Falls.weightless {c : Tally} (h : c.Falls) : c.Weightless .standard := by
  cases h with
  | leaves => exact leaves_weightless _
  | negs => exact uses_weightless rfl

namespace Tree

variable {F : Facts} {op : String} {t u w : Tree} {θ : UInt32 → Tree} {ys : List Tree} {b : Attrs}
  {c : Tally}

/-- No more ends of branches and no more negations, and fewer of both together. -/
structure Shrinks (t u : Tree) : Prop where
  leaves : u.count .leaves ≤ t.count .leaves
  negs : u.count (.uses "neg") ≤ t.count (.uses "neg")
  less : u.count .leaves + u.count (.uses "neg") < t.count .leaves + t.count (.uses "neg")

theorem Shrinks.trans (h : Shrinks t u) (h' : Shrinks u w) : Shrinks t w :=
  ⟨Nat.le_trans h'.leaves h.leaves, Nat.le_trans h'.negs h.negs, Nat.lt_trans h'.less h.less⟩

/-- Being smaller does not depend on how constants are written. -/
theorem Shrinks.congr (h : Shrinks t u) (alike : Alike .none w u) : Shrinks t w := by
  have same : ∀ c, w.count c = u.count c := fun c => alike.count_eq
  refine ⟨?_, ?_, ?_⟩
  · rw [same]
    exact h.leaves
  · rw [same]
    exact h.negs
  · rw [same, same]
    exact h.less

/-- A tree is smaller if another part of what was there is left out. -/
theorem Shrinks.of_left (g : Tree) (h : ∀ c : Tally, c.Falls → u.count c + g.count c ≤ t.count c) :
    Shrinks t u := by
  have leaves := h _ .leaves
  have negs := h _ .negs
  have pos := g.leaves_pos
  constructor <;> omega

/-! ## Inside a tree -/

/-- Another operand adds what it counts more, or takes away what it counts less. -/
theorem count_set {args : List Tree} {attrs : Attrs} {i : Nat} (operand : args[i]? = some t)
    (c : Tally) : (app op (args.set i u) attrs).count c + t.count c =
      (app op args attrs).count c + u.count c := by
  obtain ⟨inside, rfl⟩ := List.getElem?_eq_some_iff.mp operand
  obtain ⟨before, behind, eq, -, set⟩ := List.exists_of_set inside
  have sum : (args.map (count c)).sum = (before.map (count c)).sum +
      (args[i].count c + (behind.map (count c)).sum) := by
    conv_lhs => rw [eq, List.map_append, List.map_cons, List.sum_append, List.sum_cons]
  rw [count_app, count_app, List.length_set, set, sum, List.map_append, List.map_cons, List.sum_append,
    List.sum_cons]
  omega

theorem Rewrites.shrinks {R : Tree → Tree → Prop} (h : Rewrites R t u) (ht : t.Ground)
    (each : ∀ t u, R t u → t.Ground → Shrinks t u) : Shrinks t u := by
  induction h with
  | here h => exact each _ _ h ht
  | @inside op args attrs i t u w operand _ rebuilt ih =>
    have set : ∀ c, (app op (args.set i u) attrs).count c + t.count c =
        (app op args attrs).count c + u.count c := count_set operand
    have leaves := set .leaves
    have negs := set (.uses "neg")
    obtain ⟨le, le', lt⟩ := ih (ht.of_mem (List.mem_of_getElem? operand))
    refine Shrinks.congr ⟨?_, ?_, ?_⟩ (rebuilt .none) <;> omega

theorem Rewrites.ground {R : Tree → Tree → Prop} (h : Rewrites R t u) (ht : t.Ground)
    (each : ∀ t u, R t u → t.Ground → u.Ground) : u.Ground := by
  induction h with
  | here h => exact each _ _ h ht
  | @inside op args attrs i t u w operand _ rebuilt ih =>
    refine (rebuilt .none).ground fun v has => ?_
    obtain ⟨x, mem, inner⟩ := hasVar_app.mp has
    rcases List.mem_or_eq_of_mem_set mem with mem | eq
    · exact ht.of_mem mem v inner
    · exact ih (ht.of_mem (List.mem_of_getElem? operand)) v (eq ▸ inner)

/-! ## Parts that operands are matched with -/

theorem operands_of_not_isApp (single : ∀ t ∈ ys, ¬ IsApp op t) : operands F op ys = ys := by
  unfold operands
  split
  · exact flatMap_items_of_not_isApp single
  · rfl

namespace Matches

/-- The operands of a pattern are matched with ground parts that count at most as much as the tree. -/
theorem exists_parts (h : Matches F [(t, .app op ys b)] θ) (ht : t.Ground)
    (some : operands F op ys ≠ []) : ∃ gs : List Tree, gs.length = (operands F op ys).length ∧
      (∀ g ∈ gs, g.Ground) ∧ Matches F (gs.zip (operands F op ys)) θ ∧
      ∀ c : Tally, c.Weightless F → c.node op gs.length + (gs.map (count c)).sum ≤ t.count c := by
  cases t with
  | app f xs a =>
    obtain ⟨rfl, -, pairs, lineup, matched⟩ := (app_iff ht).mp h
    have ground := lineup.ground ht
    obtain ⟨gs, rfl, length, le⟩ := lineup.exists_parts some
    refine ⟨gs, length, fun g hg => ?_, matched, le⟩
    have fst : (gs.zip (operands F f ys)).map Prod.fst = gs := List.map_fst_zip (Nat.le_of_eq length)
    obtain ⟨p, hp, rfl⟩ := List.mem_map.mp (fst ▸ hg)
    exact ground p hp
  | var v => exact absurd .var (ht v)
  | leaf l => cases h
  | unknown id => cases h

/-- A variable gets the tree that it is matched with. -/
theorem of_var {v : UInt32} {rest : List (Tree × Tree)} (h : Matches F ((t, .var v) :: rest) θ) :
    θ v = t ∧ ∃ τ, Matches F (fill (only v t) rest) τ ∧ θ = andThen (only v t) τ := by
  cases h with
  | same ground => exact absurd .var (ground v)
  | @bind _ _ _ τ ground later =>
    refine ⟨?_, τ, later, rfl⟩
    rw [andThen, only_self, ground.subst]

end Matches

namespace Pattern

variable {p : Pattern}

/-- A variable beside something that is no chain itself is matched with one of two parts. -/
theorem exists_count_pair {v : UInt32} {b : Attrs} (h : Matches F [(t, .app op [.var v, u] b)] θ)
    (ht : t.Ground) (hu : ¬ u.IsApp op) :
    ∃ g : Tree, ∀ c : Tally, c.Weightless F → (θ v).count c + g.count c ≤ t.count c := by
  have single : operands F op [.var v, u] = [.var v, u] :=
    operands_of_not_isApp (List.forall_mem_cons.mpr ⟨id, List.forall_mem_singleton.mpr hu⟩)
  obtain ⟨gs, length, -, matched, le⟩ := h.exists_parts ht (by rw [single]; exact List.cons_ne_nil _ _)
  rw [single] at length matched
  obtain ⟨g, g', rfl⟩ := List.length_eq_two.mp length
  obtain ⟨rfl, -⟩ := matched.of_var
  refine ⟨g', fun c light => ?_⟩
  have le : c.node op 2 + ((θ v).count c + g'.count c) ≤ t.count c := by simpa using le c light
  omega

/-- Negated twice, `x` is matched with a part that has two negations less than the tree. -/
theorem count_negNeg (h : Matches F [(t, negNeg.lhs)] θ) (ht : t.Ground)
    (plain : F.isChain "neg" = false) (light : c.Weightless F) :
    c.node "neg" 1 + (c.node "neg" 1 + (θ 1).count c) ≤ t.count c := by
  have alone : ∀ u, operands F "neg" [u] = [u] := fun u => if_neg (by rw [plain]; decide)
  have one : ∀ {t u : Tree}, Matches F [(t, .app "neg" [u] .unspecified)] θ → t.Ground → ∃ g : Tree,
      g.Ground ∧ Matches F [(g, u)] θ ∧ c.node "neg" 1 + g.count c ≤ t.count c := by
    intro t u h ht
    obtain ⟨gs, length, ground, matched, le⟩ :=
      h.exists_parts ht (by rw [alone u]; exact List.cons_ne_nil _ _)
    rw [alone] at length matched
    obtain ⟨g, rfl⟩ := List.length_eq_one_iff.mp length
    exact ⟨g, ground g (.head _), matched, by simpa using le c light⟩
  obtain ⟨g, ground, matched, outer⟩ := one h ht
  obtain ⟨g', -, matched, inner⟩ := one matched ground
  obtain ⟨rfl, -⟩ := matched.of_var
  omega

/-- Multiplied with itself in a longer product, `x` is matched with one of two parts, and what is left
    is another part. -/
theorem exists_count_beside (h : Matches F [(t, (mulSelf.beside "mul" 2).lhs)] θ) (ht : t.Ground)
    (chain : F.isChain "mul" = true) : ∃ g : Tree, ∀ c : Tally, c.Weightless F →
      (θ 1).count c + (g.count c + (θ 2).count c) ≤ t.count c := by
  have single : operands F "mul" [mulSelf.lhs, .var 2] = [.var 1, .var 1, .var 2] := by
    rw [operands, if_pos chain]
    simp [mulSelf, items, itemsAll]
  obtain ⟨gs, length, ground, matched, le⟩ :=
    Matches.exists_parts h ht (by rw [single]; exact List.cons_ne_nil _ _)
  rw [single] at length matched
  obtain ⟨g, g', r, rfl⟩ := List.length_eq_three.mp length
  obtain ⟨first, τ, later, eq⟩ := matched.of_var
  have filled : fill (only 1 g) [(g', .var 1), (r, .var 2)] = [(g', g)] ++ [(r, .var 2)] := by
    simp [fill, only]
  replace later : Matches F (fill (only 1 g) [(g', .var 1), (r, .var 2)]) τ := later
  rw [filled] at later
  -- Nothing is bound where `x` stands for the second time.
  obtain ⟨σ, τ', second, rest, rfl⟩ := Matches.append_iff.mp later
  obtain rfl := second.eq_var_of_ground (List.forall_mem_singleton.mpr (ground g (.head _)))
  rw [fill_var] at rest
  have last : θ 2 = r := by
    rw [eq, andThen, only_of_ne (by decide), subst_var, var_andThen, rest.of_var.1]
  rw [first, last]
  refine ⟨g', fun c light => ?_⟩
  have le : c.node "mul" 3 + (g.count c + (g'.count c + r.count c)) ≤ t.count c := by
    simpa using le c light
  omega

/-! ## What patterns make of a tree -/

/-- The pattern matches a tree, and another tree is the replacement, however its constants are written. -/
def Changes (F : Facts) (p : Pattern) (t u : Tree) : Prop :=
  ∃ σ, p.Binds F t σ ∧ ∀ G, Alike G u (p.rhs.subst σ)

theorem Changes.ground (h : p.Changes F t u) (closed : p.Closed) (ht : t.Ground) : u.Ground := by
  obtain ⟨σ, binds, alike⟩ := h
  refine (alike F).ground fun v has => ?_
  obtain ⟨w, hw, has⟩ := hasVar_subst.mp has
  exact binds.ground ht (closed w hw) v has

/-- What a pattern makes does not depend on how its variables are numbered. -/
theorem Changes.of_rename {ρ : UInt32 → UInt32} (h : (p.rename ρ).Changes F t u)
    (inj : Set.InjOn ρ p.vars) (closed : p.Closed) : p.Changes F t u := by
  obtain ⟨σ', binds', alike⟩ := h
  obtain ⟨σ, binds, eq⟩ := binds'.of_rename inj closed
  refine ⟨σ, binds, fun G => ?_⟩
  have same : (p.rhs.rename ρ).subst σ' = p.rhs.subst σ := by
    rw [subst_rename]
    exact subst_congr fun v hv => eq v (closed v hv)
  exact same ▸ alike G

/-- What an identity makes of a ground tree ends less often, or has fewer negations. -/
theorem IsIdentity.shrinks_of_changes (h : IsIdentity p) (ht : t.Ground)
    (changes : p.Changes .standard t u) : Shrinks t u := by
  obtain ⟨_, ⟨τ, matched, -, rfl⟩, alike⟩ := changes
  rw [h.subst_andThen matched] at alike
  refine Shrinks.congr ?_ (alike .none)
  have square : ∀ c : Tally, c.Falls → ∀ u, (app "square" [u] .unspecified).count c = u.count c := by
    rintro c (_ | _) u <;> simp [count_app, Tally.leaves, Tally.uses]
  have product : ∀ c : Tally, c.Falls → ∀ u w,
      (app "mul" [u, w] .unspecified).count c = u.count c + w.count c := by
    rintro c (_ | _) u w <;> simp [count_app, Tally.leaves, Tally.uses]
  cases h with
  | negNeg =>
    have leaves : 0 + (0 + (τ 1).count .leaves) ≤ t.count .leaves :=
      count_negNeg matched ht rfl Tally.Falls.leaves.weightless
    have negs : 1 + (1 + (τ 1).count (.uses "neg")) ≤ t.count (.uses "neg") :=
      count_negNeg matched ht rfl Tally.Falls.negs.weightless
    show Shrinks t (τ 1)
    constructor <;> omega
  | mulSelf =>
    obtain ⟨g, le⟩ := exists_count_pair matched ht id
    refine .of_left g fun c falls => ?_
    show (app "square" [τ 1] .unspecified).count c + _ ≤ _
    rw [square c falls]
    exact le c falls.weightless
  | mulSelfBeside =>
    obtain ⟨g, le⟩ := exists_count_beside matched ht rfl
    refine .of_left g fun c falls => ?_
    show (app "mul" [.app "square" [τ 1] .unspecified, τ 2] .unspecified).count c + _ ≤ _
    rw [product c falls, square c falls]
    have le := le c falls.weightless
    omega
  | _ =>
    obtain ⟨g, le⟩ := exists_count_pair matched ht id
    exact .of_left g fun c falls => le c falls.weightless

end Pattern

end Tree

end Regraft
