import Mathlib.Data.Fin.VecNotation
import Mathlib.Data.List.FinRange
import Regraft.Proofs.Unify.Stepwise

/-
  Unification place by place does not depend on the order of the places, where matching labels is
  transitive (`Tree.Coherent`): labels that match one another then count as one label, so that trees are
  alike if they have the same labels up to that (`Coherent.likeness`), and the places are unified just when
  some assignment makes the two terms of each of them alike. A part that attributes leave out matches
  anything, so that matching is not transitive in general, and a variable for two places may be bound to
  the term of the one that says less.
-/

namespace Regraft

/-- What matches in a set, on which matching is transitive, counts as one. -/
def classesOf {α : Type} (P : α → Prop) (r : α → α → Prop) (symm : ∀ x y, r x y → r y x)
    (trans : ∀ x y z, P x → P y → P z → r x y → r y z → x = z ∨ r x z) : Setoid α where
  r x y := x = y ∨ P x ∧ P y ∧ r x y
  iseqv := by
    refine ⟨fun x => .inl rfl, ?_, ?_⟩
    · rintro x y (rfl | ⟨hx, hy, h⟩)
      · exact .inl rfl
      · exact .inr ⟨hy, hx, symm x y h⟩
    · rintro x y z (rfl | ⟨hx, hy, h⟩) (rfl | ⟨hy', hz, h'⟩)
      · exact .inl rfl
      · exact .inr ⟨hy', hz, h'⟩
      · exact .inr ⟨hx, hy, h⟩
      · exact (trans x y z hx hy hz h h').imp_right fun h => ⟨hx, hz, h⟩

namespace Tree

/-- Matching is transitive on some labels: on leaves by their values, and on applications of one operator
    to equally many operands by their attributes. -/
structure Coherent (has : Label → Prop) : Prop where
  leaves : ∀ l m n, has (.leaf l) → has (.leaf m) → has (.leaf n) →
    l.valueEq m = true → m.valueEq n = true → l = n ∨ l.valueEq n = true
  attrs : ∀ op k a b c, has (.node op k a) → has (.node op k b) → has (.node op k c) →
    a.compatible b = true → b.compatible c = true → a.compatible c = true

/-- Other leaves and other attributes, which may depend on operator and number of operands. -/
def relabel (leaf : Leaf → Leaf) (attrs : String → Nat → Attrs → Attrs) : Tree → Tree :=
  fold .var (fun l => .leaf (leaf l)) (fun op a args => .app op args (attrs op args.length a)) .unknown

section

variable {leaf : Leaf → Leaf} {attrs : String → Nat → Attrs → Attrs}

theorem relabel_app (op : String) (args : List Tree) (a : Attrs) :
    (app op args a).relabel leaf attrs =
      app op (args.map (relabel leaf attrs)) (attrs op args.length a) := by
  rw [relabel, fold_app, List.length_map]

theorem size_relabel (t : Tree) : (t.relabel leaf attrs).size = t.size := by
  induction t with
  | app op args a ih =>
    rw [relabel_app, size_app, size_app, List.map_map]
    exact congrArg (List.sum · + 1) (List.map_congr_left ih)
  | _ => rfl

theorem congruence_relabel :
    Congruence fun t u => t.relabel leaf attrs = u.relabel leaf attrs where
  refl _ := rfl
  symm := Eq.symm
  trans := Eq.trans
  congr {op xs ys a} h := by
    have each : xs.map (relabel leaf attrs) = ys.map (relabel leaf attrs) := by
      rwa [← List.forall₂_eq_eq_eq, List.forall₂_map_left_iff, List.forall₂_map_right_iff]
    rw [relabel_app, relabel_app, each, h.length_eq]

end

namespace Coherent

variable {has : Label → Prop} (h : Coherent has)
include h

/-- Leaves that match count as one. -/
def leafClasses : Setoid Leaf :=
  classesOf (fun l => has (.leaf l)) (fun l m => l.valueEq m = true) (fun _ _ => Leaf.valueEq_symm)
    h.leaves

/-- Attributes that match count as one. -/
def attrClasses (op : String) (n : Nat) : Setoid Attrs :=
  classesOf (fun a => has (.node op n a)) (fun a b => a.compatible b = true)
    (fun _ _ => Attrs.compatible_symm)
    fun a b c ha hb hc hab hbc => .inr (h.attrs op n a b c ha hb hc hab hbc)

/-- A tree with one label of each class. -/
noncomputable def normal : Tree → Tree :=
  relabel (fun l => (Quotient.mk h.leafClasses l).out)
    fun op n a => (Quotient.mk (h.attrClasses op n) a).out

/-- Trees that have the same labels, up to matching, are alike. -/
theorem likeness : Likeness has fun t u => h.normal t = h.normal u where
  toCongruence := congruence_relabel
  size_eq {t u} eq := by
    rw [← size_relabel (t := t), ← size_relabel (t := u)]
    exact congrArg size eq
  leaf_iff {l m} hl hm := by
    have classes : h.normal (.leaf l) = h.normal (.leaf m) ↔ h.leafClasses.r l m :=
      Tree.leaf.injEq .. ▸ Quotient.out_inj.trans Quotient.eq
    refine classes.trans (or_congr_right ?_)
    exact ⟨fun h => h.2.2, fun value => ⟨hl, hm, value⟩⟩
  app_iff {f g xs ys a b} ha hb := by
    have operands : xs.map h.normal = ys.map h.normal ↔
        List.Forall₂ (fun t u => h.normal t = h.normal u) xs ys := by
      rw [← List.forall₂_eq_eq_eq, List.forall₂_map_left_iff, List.forall₂_map_right_iff]
    have classes : ∀ n, (Quotient.mk (h.attrClasses f n) a).out =
        (Quotient.mk (h.attrClasses f n) b).out ↔ (h.attrClasses f n).r a b := fun n =>
      Quotient.out_inj.trans Quotient.eq
    unfold normal at operands ⊢
    rw [relabel_app, relabel_app, Tree.app.injEq, operands]
    constructor
    · rintro ⟨rfl, each, eq⟩
      rw [each.length_eq] at eq
      rcases (classes _).mp eq with rfl | ⟨-, -, fits⟩
      · exact ⟨rfl, Attrs.compatible_self _, each⟩
      · exact ⟨rfl, fits, each⟩
    · rintro ⟨rfl, fits, each⟩
      rw [each.length_eq] at ha ⊢
      exact ⟨rfl, each, (classes _).mpr (.inr ⟨ha, hb, fits⟩)⟩
  leaf_app {l g ys b} := by
    unfold normal
    rw [relabel_app]
    exact nofun

end Coherent

end Tree

namespace Subst

variable {has : Tree.Label → Prop} {st : Store} {s : Subst} {n : Nat} {x y : Fin n → TermId}

theorem zip_ofFn : (List.ofFn x).zip (List.ofFn y) = List.ofFn fun i => (x i, y i) := by
  rw [List.ofFn_eq_map, List.ofFn_eq_map, List.ofFn_eq_map, List.zip_map']

/-- Without disequalities, places are unified just when an assignment that is admitted makes the terms of
    each place alike. -/
theorem exists_unifyAll_iff {R : Tree → Tree → Prop} (like : Tree.Likeness has R) (hs : s.Sound st)
    (free : s.constraints = []) (stored : ∀ i, st.Stored (x i) ∧ st.Stored (y i))
    (labels : ∀ i, (s.tree st (x i)).Over has ∧ (s.tree st (y i)).Over has) :
    (∃ t, s.unifyAll st (List.ofFn x) (List.ofFn y) = some t) ↔
      ∃ θ, s.AdmitsIn R st θ ∧ ∀ i, R ((st.tree (x i)).subst θ) ((st.tree (y i)).subst θ) := by
  have length : (List.ofFn x).length = (List.ofFn y).length := by
    rw [List.length_ofFn, List.length_ofFn]
  have ready : Work.Ready st (List.ofFn fun i => (x i, y i), s) :=
    ⟨hs, List.forall_mem_ofFn_iff.mpr stored⟩
  have labelled : Work.Over has st (List.ofFn fun i => (x i, y i), s) :=
    List.forall_mem_ofFn_iff.mpr labels
  have watched : Watched has has st (List.ofFn fun i => (x i, y i), s) :=
    ⟨ready, labelled, labelled, fun d hd => absurd (free ▸ hd) List.not_mem_nil, .inl free⟩
  have all : s.unifyAll st (List.ofFn x) (List.ofFn y) =
      bindPairs st (List.ofFn fun i => (x i, y i)) s := by
    rw [unifyAll, if_pos length, zip_ofFn, watched.unifyPairs_eq]
    cases eq : bindPairs st (List.ofFn fun i => (x i, y i)) s with
    | none => rfl
    | some t =>
      have none : t.constraints = [] := (bindPairs_keeps ready eq).constraints.trans free
      rw [Option.bind_some, finish, revalidate_of_free none, ite_self]
  rw [all, (bindPairs_run ready).exists_iff like ready labelled]
  exact exists_congr fun θ => and_congr_right fun _ => List.forall_mem_ofFn_iff

/-- Places are unified in any order, where matching labels is transitive. -/
theorem exists_unifyAll_perm (hs : s.Sound st) (free : s.constraints = [])
    (stored : ∀ i, st.Stored (x i) ∧ st.Stored (y i)) (coherent : Tree.Coherent has)
    (labels : ∀ i, (s.tree st (x i)).Over has ∧ (s.tree st (y i)).Over has)
    (π : Equiv.Perm (Fin n)) :
    (∃ t, s.unifyAll st (List.ofFn x) (List.ofFn y) = some t) ↔
      ∃ t, s.unifyAll st (List.ofFn (x ∘ π)) (List.ofFn (y ∘ π)) = some t := by
  have there := exists_unifyAll_iff coherent.likeness hs free stored labels
  have permuted := exists_unifyAll_iff (x := x ∘ π) (y := y ∘ π) coherent.likeness hs free
    (fun i => stored (π i)) fun i => labels (π i)
  rw [there, permuted]
  exact exists_congr fun θ => and_congr_right fun _ => π.forall_congr_right.symm

/-- Two variables, an input, `f` of it with and without an element type, and `g` of the variables. -/
def partlyTyped : Session :=
  .holding .none [.var 0, .var 1, .leaf (.input "a"), .app "f" [⟨2⟩] .unspecified,
    .app "f" [⟨2⟩] ⟨some .f64, none, none⟩, .app "g" [⟨0⟩] .unspecified, .app "g" [⟨1⟩] .unspecified]

/-- Labels of terms of which nothing is said but that they are doubles. -/
def doubles : Tree.Label → Prop
  | .leaf l => l = .input "a"
  | .node _ _ attrs => attrs = .unspecified ∨ attrs = ⟨some .f64, none, none⟩

theorem coherent_doubles : Tree.Coherent doubles where
  leaves _ _ _ hl _ hn _ _ := .inl (Eq.trans hl (Eq.symm hn))
  attrs _ _ _ _ _ ha _ hc _ _ := by
    rcases ha with rfl | rfl <;> rcases hc with rfl | rfl <;> decide

/-- With `y` bound to `f(a)` as a double, the places `(x, f(a))`, `(g(x), g(y))`, `(y, x)` are unified in
    their order, and so in the reverse order, which binds `x` to another term. -/
theorem partlyTyped_unifyAll_rev :
    ∃ t, (Subst.empty.bind 1 ⟨4⟩).unifyAll partlyTyped.store
      (List.ofFn (![⟨0⟩, ⟨5⟩, ⟨1⟩] ∘ Fin.revPerm)) (List.ofFn (![⟨3⟩, ⟨6⟩, ⟨0⟩] ∘ Fin.revPerm)) =
        some t := by
  have valid : partlyTyped.store.Valid := by decide
  have sound : (Subst.empty.bind 1 ⟨4⟩).Sound partlyTyped.store := by
    refine (Sound.empty valid).bind (by decide) (get?_empty 1) ?_
    rw [← (Sound.empty valid).occurs_iff]
    decide
  have x := sound.tree_var (show partlyTyped.store.term? ⟨0⟩ = some (.var 0) by decide)
  have y := sound.tree_var (show partlyTyped.store.term? ⟨1⟩ = some (.var 1) by decide)
  have a := sound.tree_leaf
    (show partlyTyped.store.term? ⟨2⟩ = some (.leaf (.input "a")) by decide)
  have f := sound.tree_app
    (show partlyTyped.store.term? ⟨3⟩ = some (.app "f" [⟨2⟩] .unspecified) by decide)
  have f64 := sound.tree_app
    (show partlyTyped.store.term? ⟨4⟩ = some (.app "f" [⟨2⟩] ⟨some .f64, none, none⟩) by
      decide +kernel)
  have gx := sound.tree_app
    (show partlyTyped.store.term? ⟨5⟩ = some (.app "g" [⟨0⟩] .unspecified) by decide +kernel)
  have gy := sound.tree_app
    (show partlyTyped.store.term? ⟨6⟩ = some (.app "g" [⟨1⟩] .unspecified) by decide +kernel)
  rw [image_of_unbound (by decide)] at x
  rw [image_of_bound (show (Subst.empty.bind 1 ⟨4⟩).get? 1 = some ⟨4⟩ by decide +kernel)] at y
  simp only [List.map_cons, List.map_nil, x, a] at f f64 gx
  simp only [List.map_cons, List.map_nil, y, f64] at gy
  have inOrder : ∃ t, (Subst.empty.bind 1 ⟨4⟩).unifyAll partlyTyped.store
      (List.ofFn ![⟨0⟩, ⟨5⟩, ⟨1⟩]) (List.ofFn ![⟨3⟩, ⟨6⟩, ⟨0⟩]) = some t :=
    Option.isSome_iff_exists.mp (by decide +kernel)
  refine (exists_unifyAll_perm sound rfl (by decide +kernel) coherent_doubles ?_ _).mp inOrder
  simp [Fin.forall_fin_succ, x, y, f, f64, gx, gy, Tree.over_app, Tree.over_leaf, Tree.Over.var,
    doubles]

/-- A variable, an input, `f` of it without an element type, as a double and as a float, and constants of
    one shape with no value, with one and with two as their value. -/
def indistinct : Session :=
  .holding .none [.var 0, .leaf (.input "a"), .app "f" [⟨1⟩] .unspecified,
    .app "f" [⟨1⟩] ⟨some .f64, none, none⟩, .app "f" [⟨1⟩] ⟨some .f32, none, none⟩,
    .leaf (.const (.ofTensor ⟨⟨[1]⟩, []⟩ .f64)), .leaf (.const (.ofTensor ⟨⟨[1]⟩, [1]⟩ .f64)),
    .leaf (.const (.ofTensor ⟨⟨[1]⟩, [2]⟩ .f64))]

/-- A variable stands for what has no element type and is then compared with what has one, or with what
    has another one; bound to either of these first, it does not fit the other. So it is with a constant
    that does not fill its shape. -/
theorem not_exists_unifyAll_perm :
    Subst.empty.Sound indistinct.store ∧ Subst.empty.constraints = [] ∧
      ((∃ t, Subst.empty.unifyAll indistinct.store (List.ofFn ![⟨0⟩, ⟨0⟩, ⟨0⟩])
          (List.ofFn ![⟨2⟩, ⟨3⟩, ⟨4⟩]) = some t) ∧
        ¬ ∃ t, Subst.empty.unifyAll indistinct.store
          (List.ofFn (![⟨0⟩, ⟨0⟩, ⟨0⟩] ∘ Equiv.swap 0 1))
          (List.ofFn (![⟨2⟩, ⟨3⟩, ⟨4⟩] ∘ Equiv.swap 0 1)) = some t) ∧
      (∃ t, Subst.empty.unifyAll indistinct.store (List.ofFn ![⟨0⟩, ⟨0⟩, ⟨0⟩])
          (List.ofFn ![⟨5⟩, ⟨6⟩, ⟨7⟩]) = some t) ∧
        ¬ ∃ t, Subst.empty.unifyAll indistinct.store
          (List.ofFn (![⟨0⟩, ⟨0⟩, ⟨0⟩] ∘ Equiv.swap 0 1))
          (List.ofFn (![⟨5⟩, ⟨6⟩, ⟨7⟩] ∘ Equiv.swap 0 1)) = some t := by
  have valid : indistinct.store.Valid := by decide +kernel
  refine ⟨.empty valid, rfl, ?_, ?_⟩ <;>
    simp only [← Option.isSome_iff_exists] <;> decide +kernel

end Subst

end Regraft
