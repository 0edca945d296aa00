import Regraft.Proofs.Match.Gives
import Regraft.Proofs.Rewriting.Anywhere

/-
  What rewriting at one position does, told apart to the last detail. A relation does something to a
  ground tree (`Tree.Effect`): it replaces the tree and gives trees to some variables known outside of
  it. Its search comes to an end and answers just the effects that it is described by (`Relates`).
  Rewriting somewhere in a tree has the effects of the relation on all subtrees, each at its place
  (`Relates.anywhere_gives`), by induction on the tree.
-/

namespace Regraft

open Session (Goes)
open Regraft.Tree (andThen only)

namespace Tree

/-- The trees that variables get, the tree that replaces another, and the replacements that were
    recorded on the way. -/
structure Effect where
  binds : UInt32 → Tree
  result : Tree
  sites : List (Tree × Tree)

namespace Effect

/-- All trees are ground, and only some variables get one. -/
structure Confined (outer : UInt32 → Prop) (e : Effect) : Prop where
  ground : e.result.Ground
  binds : ∀ v, e.binds v = .var v ∨ outer v ∧ (e.binds v).Ground

/-- The effect with a record of the tree that was replaced. -/
def noting (t : Tree) (e : Effect) : Effect := { e with sites := e.sites ++ [(t, e.result)] }

/-- The effect on an operand, seen from the application. -/
def under (op : String) (args : List Tree) (attrs : Attrs) (i : Nat) (e : Effect) : Effect :=
  { e with result := .app op (args.set i e.result) attrs }

variable {outer : UInt32 → Prop} {e : Effect} {v w : UInt32}

/-- What all variables get, with the result for the output. -/
def output (e : Effect) (v : UInt32) : UInt32 → Tree := andThen e.binds (only v e.result)

theorem Confined.output_self (h : e.Confined outer) (hv : ¬ outer v) : e.output v v = e.result := by
  rcases h.binds v with eq | ⟨mem, -⟩
  · rw [output, andThen, eq, subst_var, only_self]
  · exact absurd mem hv

theorem Confined.output_of_ne (h : e.Confined outer) (ne : w ≠ v) : e.output v w = e.binds w := by
  rcases h.binds w with eq | ⟨-, ground⟩
  · rw [output, andThen, eq, subst_var, only_of_ne ne]
  · exact ground.subst _

end Effect

/-- The subtree `x` at a path is replaced by `y`, and all else stays. -/
inductive Replaces (x y : Tree) : List Nat → Tree → Tree → Prop
  | here : Replaces x y [] x y
  | inside {op : String} {args : List Tree} {attrs : Attrs} {i : Nat} {path : List Nat} {t u : Tree}
      (operand : args[i]? = some t) (h : Replaces x y path t u) :
      Replaces x y (i :: path) (.app op args attrs) (.app op (args.set i u) attrs)

/-- The effects on the subtrees of a tree, each at its place. -/
def anywhere (R : Tree → Set Effect) (t : Tree) : Set Effect :=
  {e | ∃ path x e', e' ∈ R x ∧ Replaces x e'.result path t e.result ∧ e.binds = e'.binds ∧
    e.sites = e'.sites ++ [(x, e'.result)]}

variable {R : Tree → Set Effect} {e : Effect} {t : Tree}

theorem mem_anywhere_app {op : String} {args : List Tree} {attrs : Attrs} :
    e ∈ anywhere R (.app op args attrs) ↔
      e ∈ Effect.noting (.app op args attrs) '' R (.app op args attrs) ∨
        ∃ t i, args[i]? = some t ∧ e ∈ Effect.under op args attrs i '' anywhere R t := by
  obtain ⟨binds, result, sites⟩ := e
  constructor
  · rintro ⟨path, x, e', mem, replaces, rfl, rfl⟩
    cases replaces with
    | here => exact .inl ⟨e', mem, rfl⟩
    | @inside _ _ _ i path t u operand h =>
      exact .inr ⟨t, i, operand, ⟨e'.binds, u, _⟩, ⟨path, x, e', mem, h, rfl, rfl⟩, rfl⟩
  · rintro (⟨e', mem, eq⟩ | ⟨t, i, operand, e'', ⟨path, x, e', mem, h, binds, sites⟩, eq⟩)
    · cases eq
      exact ⟨[], _, e', mem, .here, rfl, rfl⟩
    · cases eq
      exact ⟨i :: path, x, e', mem, .inside operand h, binds, sites⟩

theorem mem_anywhere_of_ne_app (h : ∀ op args attrs, t ≠ .app op args attrs) :
    e ∈ anywhere R t ↔ e ∈ Effect.noting t '' R t := by
  obtain ⟨binds, result, sites⟩ := e
  constructor
  · rintro ⟨path, x, e', mem, replaces, rfl, rfl⟩
    cases replaces with
    | here => exact ⟨e', mem, rfl⟩
    | inside => exact absurd rfl (h _ _ _)
  · rintro ⟨e', mem, eq⟩
    cases eq
    exact ⟨[], _, e', mem, .here, rfl, rfl⟩

theorem Replaces.ground {x y u : Tree} {path : List Nat} (h : Replaces x y path t u)
    (ht : t.Ground) (hy : x.Ground → y.Ground) : u.Ground := by
  induction h with
  | here => exact hy ht
  | @inside op args attrs i path t u operand _ ih =>
    intro v hv
    obtain ⟨w, mem, has⟩ := hasVar_app.mp hv
    rcases List.mem_or_eq_of_mem_set mem with mem | rfl
    · exact ht v (.app mem has)
    · exact ih (ht.of_mem (List.mem_of_getElem? operand)) v has

theorem Replaces.ground_left {x y u : Tree} {path : List Nat} (h : Replaces x y path t u)
    (ht : t.Ground) : x.Ground := by
  induction h with
  | here => exact ht
  | inside operand _ ih => exact ih (ht.of_mem (List.mem_of_getElem? operand))

/-- Effects at some place are confined as those of the relation are. -/
theorem confined_anywhere {outer : UInt32 → Prop}
    (h : ∀ t, t.Ground → ∀ e ∈ R t, e.Confined outer) (ht : t.Ground) :
    ∀ e ∈ anywhere R t, e.Confined outer := by
  rintro ⟨binds, result, sites⟩ ⟨path, x, e', mem, replaces, rfl, rfl⟩
  have confined := h x (replaces.ground_left ht) e' mem
  exact ⟨replaces.ground ht fun _ => confined.ground, confined.binds⟩

end Tree

open Regraft.Tree (Effect)

namespace Search

variable {F : Facts} {still : Prop} {base ses ses' : Session} {outer : UInt32 → Prop}
  {E : UInt32 → Tree} {relate : Relation} {R : Tree → Set Effect} {s s' : Subst} {st : Store}
  {a b : TermId} {v : UInt32}

/-- An answer has an effect, from a store and a substitution on, with a variable for the output. -/
abbrev Affecting (st : Store) (s : Subst) (v : UInt32) (ses' : Session) (s' : Subst) (e : Effect) :
    Prop := Subst.Solves e.sites st s ses'.store s' (e.output v)

/-- A ground term, and a variable that is open for the output. -/
structure Spot (F : Facts) (ses : Session) (s : Subst) (a b : TermId) (v : UInt32) : Prop where
  facts : ses.facts = F
  sound : s.Sound ses.store
  free : s.constraints = []
  within : s.Within ses.store
  left : ses.store.Stored a
  ground : (s.tree ses.store a).Ground
  out : ses.store.term? b = some (.var v)
  unbound : s.get? v = none

namespace Spot

theorem facing (h : Spot F ses s a b v) {p : TermId} (hp : ses.store.Stored p) :
    Facing F ses s a p := ⟨h.facts, h.sound, h.free, h.left, hp, h.ground⟩

theorem grows (h : Spot F ses s a b v) (g : ses.Grows ses') : Spot F ses' s a b v where
  facts := g.facts.trans h.facts
  sound := h.sound.grows g.store
  free := h.free
  within := h.within.grows g.store
  left := g.store.stored h.left
  ground := by
    rw [h.sound.tree_grows g.store h.left]
    exact h.ground
  out := g.store.keeps _ _ h.out
  unbound := h.unbound

end Spot

/-- Images stay when the store grows. -/
theorem image_grows (hs : s.Sound st) (g : st.Grows ses.store) (w : UInt32) :
    s.image ses.store w = s.image st w := by
  cases hw : s.get? w with
  | none => rw [Subst.image_of_unbound hw, Subst.image_of_unbound hw]
  | some t => rw [Subst.image_of_bound hw, Subst.image_of_bound hw, hs.tree_grows g (hs.stored w t hw)]

/-- A relation has just the effects that `R` describes, in all sessions later than `base` in which the
    variables known outside of it have the images `E`. -/
structure Relates (still : Prop) (base : Session) (outer : UInt32 → Prop) (E : UInt32 → Tree)
    (relate : Relation) (R : Tree → Set Effect) : Prop where
  known : ∀ v, outer v → base.store.Knows v
  confined : ∀ t, t.Ground → ∀ e ∈ R t, e.Confined outer
  gives : ∀ {ses s a b v}, base.Later ses → Spot base.facts ses s a b v → ¬ outer v →
    (∀ w, outer w → s.image ses.store w = E w) →
    ses.Later (relate a b ses).2 ∧ (ses.store.Tidy → (relate a b ses).2.store.Roomy →
      Gives still (Affecting ses.store s v) (relate a b ses).2 (.apply (relate a b ses).1 s)
        (R (s.tree ses.store a)))

theorem Relates.congr {R' : Tree → Set Effect} (h : Relates still base outer E relate R)
    (eq : ∀ t, R t = R' t) : Relates still base outer E relate R' := funext eq ▸ h

/-- What an answer affects from a later store on it affects from the earlier one. -/
theorem Gives.affect {A : Set Effect} {search : Search}
    (h : Gives still (Affecting st s v) ses search A) {st₀ : Store} (hs : s.Sound st₀)
    (free : s.constraints = []) (g : st₀.Grows st) : Gives still (Affecting st₀ s v) ses search A :=
  h.imp fun _ _ _ _ solved => solved.back hs free g

/-! ## At the root -/

/-- The relation is applied to the term itself, and the site is recorded. -/
theorem atRoot_gives (h : Relates still base outer E relate R) (l : base.Later ses)
    (tidy : ses.store.Tidy) (spot : Spot base.facts ses s a b v) (hv : ¬ outer v)
    (images : ∀ w, outer w → s.image ses.store w = E w) :
    Goes False ses (atRoot relate a b s ses).2 ∧ ((atRoot relate a b s ses).2.store.Roomy →
      Gives False (Affecting ses.store s v) (atRoot relate a b s ses).2 (atRoot relate a b s ses).1
        (Effect.noting (s.tree ses.store a) '' R (s.tree ses.store a))) := by
  obtain ⟨later, gives⟩ := h.gives l spot hv images
  have goal : atRoot relate a b s ses =
      (.bind (.apply (relate a b ses).1 s) (.site a b), (relate a b ses).2) := rfl
  rw [goal]
  refine ⟨⟨later, False.elim⟩, fun room => ?_⟩
  have inner : Gives False (Affecting ses.store s v) _ _ _ :=
    (gives tidy room).map id (fun _ _ _ _ => id) False.elim
  rw [Set.image_id] at inner
  have each : ∀ e ∈ R (s.tree ses.store a), ∀ ses' s', (relate a b ses).2.Later ses' →
      Affecting ses.store s v ses' s' e → Gives False (Affecting ses.store s v) ses'
        (.apply (.site a b) s') {e.noting (s.tree ses.store a)} := by
    intro e mem ses' s' l' solved
    have confined := h.confined _ spot.ground e mem
    have out : s'.tree ses'.store b = e.result := by
      rw [solved.tree_eq spot.sound (Store.stored_of_term? spot.out), spot.sound.tree_var spot.out,
        Subst.image_of_unbound spot.unbound, Tree.subst_var, confined.output_self hv]
    have input := solved.tree_of_ground spot.sound spot.left spot.ground
    have noted : Gives False (Solving [(s'.tree ses'.store a, s'.tree ses'.store b)] ses'.store s')
        ses' (.apply (.site a b) s') {Tree.var} :=
      site_gives solved.sound solved.free (solved.grows.stored spot.left)
        (solved.grows.stored (Store.stored_of_term? spot.out)) (input ▸ spot.ground)
        (out ▸ confined.ground)
    rw [input, out] at noted
    refine (noted.map (fun _ => e.noting (s.tree ses.store a)) (fun ses'' s'' τ hτ more => ?_)
      id).congr (Set.image_singleton ..)
    obtain rfl := hτ
    have both := solved.trans more
    rwa [Tree.andThen_var] at both
  refine (inner.bind each).congr ?_
  ext e
  simp only [Set.mem_iUnion, Set.mem_singleton_iff, Set.mem_image, exists_prop]
  exact exists_congr fun e' => and_congr_right fun _ => eq_comm

/-! ## Below the root -/

variable {op : String} {args : List TermId} {attrs : Attrs} {i : Nat} {x hole rebuilt : TermId} {w : UInt32}

/-- The result of an operand is put into the application, and the output becomes that. -/
theorem rebuilt_gives {e : Effect} (spot : Spot F ses s a b v) (confined : e.Confined outer)
    (hv : ¬ outer v) (ne : v ≠ w) (ha : ses.store.term? (s.deref ses.store a) = some (.app op args attrs))
    (hole_var : ses.store.term? hole = some (.var w)) (hw : s.get? w = none) (outside : ¬ outer w)
    (app : ses.store.term? rebuilt = some (.app op (args.set i hole) attrs))
    (solved : Affecting ses.store s w ses' s' e) (g : ses.Grows ses') :
    Gives False (Solving [] ses'.store s') ses' (.apply (.eq b rebuilt) s')
      {only v (e.under op (args.map (s.tree ses.store)) attrs i).result} := by
  have hs := spot.sound
  have tree := hs.tree_of_app ha
  have ground := spot.ground
  rw [tree] at ground
  have stays : (args.map (s.tree ses.store)).map (Tree.subst (e.output w)) =
      args.map (s.tree ses.store) := by
    conv => rhs; rw [← List.map_id (args.map (s.tree ses.store))]
    exact List.map_congr_left fun t ht => (ground.of_mem ht).subst _
  have result : s'.tree ses'.store rebuilt =
      (e.under op (args.map (s.tree ses.store)) attrs i).result := by
    rw [solved.tree_eq hs (Store.stored_of_term? app), hs.tree_app app, Tree.subst_app, List.map_set,
      List.map_set, stays, hs.tree_var hole_var, Subst.image_of_unbound hw, Tree.subst_var,
      confined.output_self outside]
    rfl
  have unbound : s'.get? v = none := by
    refine solved.get?_eq_none ⟨b, spot.out⟩ spot.unbound ?_
    rw [confined.output_of_ne ne]
    exact (confined.binds v).resolve_right fun h => hv h.1
  have out := solved.grows.keeps _ _ spot.out
  have deref := solved.sound.deref_of_unbound out unbound
  have facing : Facing F ses' s' rebuilt b := by
    refine ⟨g.facts.trans spot.facts, solved.sound, solved.free,
      solved.grows.stored (Store.stored_of_term? app), Store.stored_of_term? out, ?_⟩
    rw [result]
    intro u hu
    obtain ⟨t, mem, has⟩ := Tree.hasVar_app.mp hu
    rcases List.mem_or_eq_of_mem_set mem with mem | rfl
    · exact ground u (.app mem has)
    · exact confined.ground u has
  rw [← result]
  exact .apply (facing.unify_left (by rw [deref]; exact out))

/-- The relation is applied somewhere in one operand. -/
theorem inOperand_gives {t : Tree} (h : Relates still base outer E relate R)
    (ih : ∀ {ses s a b v}, base.Later ses → Spot base.facts ses s a b v → ¬ outer v →
      (∀ w, outer w → s.image ses.store w = E w) → s.tree ses.store a = t →
      Gives False (Affecting ses.store s v) ses (.apply (.anywhere relate a b) s) (Tree.anywhere R t))
    (l : base.Later ses) (tidy : ses.store.Tidy) (spot : Spot base.facts ses s a b v) (hv : ¬ outer v)
    (images : ∀ w, outer w → s.image ses.store w = E w)
    (ha : ses.store.term? (s.deref ses.store a) = some (.app op args attrs)) (hx : args[i]? = some x)
    (tree : s.tree ses.store x = t) :
    Goes False ses (inOperand relate op args attrs b i x s ses).2 ∧
      ((inOperand relate op args attrs b i x s ses).2.store.Roomy →
        Gives False (Affecting ses.store s v) (inOperand relate op args attrs b i x s ses).2
          (inOperand relate op args attrs b i x s ses).1
          (Effect.under op (args.map (s.tree ses.store)) attrs i '' Tree.anywhere R t)) := by
  have hs := spot.sound
  have new := tidy.not_knows_fresh
  obtain ⟨hole, rebuilt, ses₂, eq, l₂, hole_var, app⟩ :=
    inOperand_spec relate attrs b i x s fun u => hs.valid.stored ha
  rw [eq]
  refine ⟨⟨l₂, False.elim⟩, fun room => ?_⟩
  generalize ses.store.nextVar = w at new hole_var
  have storedX := hs.valid.stored ha (List.mem_of_getElem? hx)
  have sameX := hs.tree_grows l₂.grows.store storedX
  have groundX : (s.tree ses.store x).Ground := by
    have ground := spot.ground
    rw [hs.tree_of_app ha] at ground
    exact ground.of_mem (List.mem_map_of_mem (List.mem_of_getElem? hx))
  have hw : s.get? w = none := by
    by_contra some
    obtain ⟨u, hu⟩ := Option.ne_none_iff_exists'.mp some
    exact new (spot.within w u hu)
  have outside : ¬ outer w := fun mem => new (l.grows.store.knows (h.known w mem))
  have ne : v ≠ w := by
    rintro rfl
    exact new ⟨b, spot.out⟩
  have spot₂ := spot.grows l₂.grows
  have operand : Spot base.facts ses₂ s x hole w :=
    ⟨spot₂.facts, spot₂.sound, spot.free, spot₂.within, l₂.grows.store.stored storedX,
      sameX ▸ groundX, hole_var, hw⟩
  have images₂ : ∀ w, outer w → s.image ses₂.store w = E w := fun w mem =>
    (image_grows hs l₂.grows.store w).trans (images w mem)
  have ha₂ : ses₂.store.term? (s.deref ses₂.store a) = some (.app op args attrs) := by
    rw [hs.deref_grows l₂.grows.store spot.left]
    exact l₂.grows.store.keeps _ _ ha
  have trees : args.map (s.tree ses₂.store) = args.map (s.tree ses.store) :=
    List.map_congr_left fun u hu => hs.tree_grows l₂.grows.store (hs.valid.stored ha hu)
  have inner := ih (l.trans l₂) operand outside images₂ (sameX.trans tree)
  have each : ∀ e ∈ Tree.anywhere R t, ∀ ses' s', ses₂.Later ses' → Affecting ses₂.store s w ses' s' e →
      Gives False (Affecting ses.store s v) ses' (.apply (.eq b rebuilt) s')
        {e.under op (args.map (s.tree ses.store)) attrs i} := by
    intro e mem ses' s' l' solved
    have confined := Tree.confined_anywhere h.confined (tree ▸ groundX) e mem
    have gives := rebuilt_gives spot₂ confined hv ne ha₂ hole_var hw outside app solved l'.grows
    rw [trees] at gives
    refine (gives.map (fun _ => e.under op (args.map (s.tree ses.store)) attrs i)
      (fun ses'' s'' τ hτ more => ?_) id).congr (Set.image_singleton ..)
    obtain rfl := hτ
    have both := (solved.trans more).back hs spot.free l₂.grows.store
    rw [List.append_nil] at both
    refine both.congr fun y known _ => ?_
    have ne : y ≠ w := by
      rintro rfl
      exact new known
    rw [andThen, confined.output_of_ne ne]
    rfl
  refine (inner.bind each).congr ?_
  ext e
  simp only [Set.mem_iUnion, Set.mem_singleton_iff, Set.mem_image, exists_prop]
  exact exists_congr fun e' => and_congr_right fun _ => eq_comm

/-- The relation is applied somewhere in any of the operands. -/
theorem belowRoot_gives (h : Relates still base outer E relate R)
    (ih : ∀ x ∈ args, ∀ {ses₁ s₁ a₁ b₁ v₁}, base.Later ses₁ → Spot base.facts ses₁ s₁ a₁ b₁ v₁ →
      ¬ outer v₁ → (∀ w, outer w → s₁.image ses₁.store w = E w) →
      s₁.tree ses₁.store a₁ = s.tree ses.store x → Gives False (Affecting ses₁.store s₁ v₁) ses₁
        (.apply (.anywhere relate a₁ b₁) s₁) (Tree.anywhere R (s.tree ses.store x)))
    (l : base.Later ses) (spot : Spot base.facts ses s a b v) (hv : ¬ outer v)
    (images : ∀ w, outer w → s.image ses.store w = E w)
    (ha : ses.store.term? (s.deref ses.store a) = some (.app op args attrs)) :
    Gives False (Affecting ses.store s v) ses (.suspend (belowRoot relate a b s))
      (⋃ p ∈ args.zipIdx, Effect.under op (args.map (s.tree ses.store)) attrs p.2 ''
        Tree.anywhere R (s.tree ses.store p.1)) := by
  have hs := spot.sound
  refine .suspend fun ses' l' _ => ?_
  have ha' : ses'.store.app? (s.deref ses'.store a) = some (op, args, attrs) := by
    rw [hs.deref_grows l'.grows.store spot.left]
    exact Store.app?_eq_some_iff.mpr (l'.grows.store.keeps _ _ ha)
  rw [belowRoot, ha']
  refine ⟨.refl ses', fun _ => ?_⟩
  let branch : TermId × Nat → Search × Set Effect := fun p =>
    (.suspend (inOperand relate op args attrs b p.2 p.1 s),
      Effect.under op (args.map (s.tree ses.store)) attrs p.2 '' Tree.anywhere R (s.tree ses.store p.1))
  have each : ∀ b ∈ args.zipIdx.map branch,
      Gives False (Affecting ses.store s v) ses' b.1 b.2 := by
    intro _ mem
    obtain ⟨p, hp, rfl⟩ := List.mem_map.mp mem
    have hx : args[p.2]? = some p.1 := List.mk_mem_zipIdx_iff_getElem?.mp hp
    refine .suspend fun ses₁ l₁ tidy => ?_
    have g := (l'.trans l₁).grows
    obtain ⟨goes, gives⟩ := inOperand_gives h (ih p.1 (List.mem_of_getElem? hx)) ((l.trans l').trans l₁)
      tidy.tidy (spot.grows g) hv (fun w mem => (image_grows hs g.store w).trans (images w mem))
      (by
        rw [hs.deref_grows g.store spot.left]
        exact g.store.keeps _ _ ha)
      hx (hs.tree_grows g.store (hs.valid.stored ha (List.mem_of_getElem? hx)))
    have trees : args.map (s.tree ses₁.store) = args.map (s.tree ses.store) :=
      List.map_congr_left fun u hu => hs.tree_grows g.store (hs.valid.stored ha hu)
    rw [trees] at gives
    exact ⟨goes, fun room => (gives room.roomy).affect hs spot.free g.store⟩
  have all := Gives.union each
  simp only [List.map_map, List.mem_map, Set.iUnion_exists, Set.biUnion_and',
    Set.iUnion_iUnion_eq_right] at all
  exact all

/-! ## Somewhere -/

/-- The places are the root and those below it. -/
theorem places_give (h : Relates still base outer E relate R) (l : base.Later ses)
    (spot : Spot base.facts ses s a b v) (hv : ¬ outer v)
    (images : ∀ w, outer w → s.image ses.store w = E w) {B : Set Effect}
    (below : Gives False (Affecting ses.store s v) ses (.suspend (belowRoot relate a b s)) B) :
    Gives False (Affecting ses.store s v) ses (.apply (.anywhere relate a b) s)
      (Effect.noting (s.tree ses.store a) '' R (s.tree ses.store a) ∪ B) := by
  have hs := spot.sound
  have root : Gives False (Affecting ses.store s v) ses (.suspend (atRoot relate a b s))
      (Effect.noting (s.tree ses.store a) '' R (s.tree ses.store a)) := by
    refine .suspend fun ses' l' tidy => ?_
    have g := l'.grows
    obtain ⟨goes, gives⟩ := atRoot_gives h (l.trans l') tidy.tidy (spot.grows g) hv fun w mem =>
      (image_grows hs g.store w).trans (images w mem)
    rw [hs.tree_grows g.store spot.left] at gives
    exact ⟨goes, fun room => (gives room.roomy).affect hs spot.free g.store⟩
  refine .apply fun ses' l' _ => ?_
  have noVar : ses'.store.var? (s.deref ses'.store a) = none := by
    have spot' := spot.grows l'.grows
    exact Option.eq_none_iff_forall_ne_some.mpr fun w hw =>
      spot'.sound.ne_var_of_ground spot'.ground w (Store.var?_eq_some_iff.mp hw)
  show Goes False ses' (Search.anywhere relate a b s ses').2 ∧
    (_ → Gives False _ (Search.anywhere relate a b s ses').2 (Search.anywhere relate a b s ses').1 _)
  rw [Search.anywhere, noVar]
  exact ⟨.refl ses', fun _ => ((root.plus below).later l')⟩

/-- There is no place below the root of what is no application. -/
theorem belowRoot_empty (spot : Spot F ses s a b v)
    (ha : ∀ op args attrs, s.tree ses.store a ≠ .app op args attrs) :
    Gives False (Affecting ses.store s v) ses (.suspend (belowRoot relate a b s)) ∅ := by
  refine .suspend fun ses' l' _ => ?_
  have spot' := spot.grows l'.grows
  have none : ses'.store.app? (s.deref ses'.store a) = none := by
    refine Option.eq_none_iff_forall_ne_some.mpr fun ⟨op, args, attrs⟩ some => ?_
    have tree := spot'.sound.tree_of_app (Store.app?_eq_some_iff.mp some)
    rw [spot.sound.tree_grows l'.grows.store spot.left] at tree
    exact ha _ _ _ tree
  rw [belowRoot, none]
  exact ⟨.refl ses', fun _ => .empty⟩

/-- A tree without operands has the root as its only place. -/
theorem root_gives (h : Relates still base outer E relate R) (l : base.Later ses)
    (spot : Spot base.facts ses s a b v) (hv : ¬ outer v)
    (images : ∀ w, outer w → s.image ses.store w = E w)
    (ha : ∀ op args attrs, s.tree ses.store a ≠ .app op args attrs) :
    Gives False (Affecting ses.store s v) ses (.apply (.anywhere relate a b) s)
      (Tree.anywhere R (s.tree ses.store a)) := by
  refine (places_give h l spot hv images (belowRoot_empty spot ha)).congr ?_
  rw [Set.union_empty]
  exact Set.ext fun e => (Tree.mem_anywhere_of_ne_app ha).symm

/-- The relation is applied at all places of a tree, and has its effects at each. -/
theorem Relates.anywhere_gives (h : Relates still base outer E relate R) (l : base.Later ses)
    (spot : Spot base.facts ses s a b v) (hv : ¬ outer v)
    (images : ∀ w, outer w → s.image ses.store w = E w) :
    Gives False (Affecting ses.store s v) ses (.apply (.anywhere relate a b) s)
      (Tree.anywhere R (s.tree ses.store a)) := by
  generalize eq : s.tree ses.store a = t
  induction t generalizing ses s a b v with
  | var | leaf | unknown =>
    rw [← eq]
    exact root_gives h l spot hv images (eq ▸ nofun)
  | app op ts attrs ih =>
    have hs := spot.sound
    have tree := eq
    rw [hs.tree_eq] at eq
    split at eq
    · cases eq
    · cases eq
    · rename_i args _ ha
      cases eq
      refine (places_give h l spot hv images (belowRoot_gives h ?_ l spot hv images ha)).congr ?_
      · intro x hx ses₁ s₁ a₁ b₁ v₁ l₁ spot₁ hv₁ images₁ same
        exact ih _ (List.mem_map_of_mem hx) l₁ spot₁ hv₁ images₁ same
      · ext e
        rw [tree, Tree.mem_anywhere_app, Set.mem_union]
        refine or_congr_right ?_
        simp only [Set.mem_iUnion, exists_prop, List.getElem?_map, Option.map_eq_some_iff]
        constructor
        · rintro ⟨⟨x, i⟩, mem, he⟩
          exact ⟨_, i, ⟨x, List.mk_mem_zipIdx_iff_getElem?.mp mem, rfl⟩, he⟩
        · rintro ⟨_, i, ⟨x, hx, rfl⟩, he⟩
          exact ⟨(x, i), List.mk_mem_zipIdx_iff_getElem?.mpr hx, he⟩
    · cases eq

end Search

end Regraft
