import Mathlib.Algebra.Field.Basic
import Regraft.Proofs.Meaning.Interpretation
import Regraft.Proofs.Rewriting.Correlated

/-
  Shifting some occurrences of a subterm. Variables in a tree without others mark the occurrences; with
  `x` for the marks it is the tree before, and with the value of `mu + tau * x` for them it has
  the value of the tree after (`Marked`). So nothing needs to be said about positions. One site of a
  rewriting makes one mark (`Marked.of_rewrites`), and two sites make two, wherever they are
  (`Marked.of_both`).
-/

universe k

namespace Regraft

/-- The operations of a field. -/
structure Interpretation.Arithmetic {K : Type*} [Field K] (I : Interpretation K) : Prop where
  add : ∀ x y, I.op "add" [x, y] = x + y
  sub : ∀ x y, I.op "sub" [x, y] = x - y
  mul : ∀ x y, I.op "mul" [x, y] = x * y
  div : ∀ x y, I.op "div" [x, y] = x / y
  square : ∀ x, I.op "square" [x] = x * x

/-- Another value for an input. -/
def Valuation.withInput {M : Type*} (ρ : Valuation M) (name : String) (x : M) : Valuation M :=
  { ρ with input := Function.update ρ.input name x }

/-- The operators of densities do not commute. -/
def Facts.OrderDensities (F : Facts) : Prop :=
  ∀ op ∈ ["square", "div", "sub"], F.isCommutative op = false

instance (F : Facts) : Decidable F.OrderDensities :=
  inferInstanceAs (Decidable (∀ op ∈ ["square", "div", "sub"], F.isCommutative op = false))

variable {F : Facts} {t u w p q : Tree} {ts us ps : List Tree} {op : String} {a b : Attrs} {n m i : Nat}

theorem exists_of_forall₂_getElem? {α β : Type*} {R : α → β → Prop} {xs : List α} {ys : List β} {y : β}
    (h : List.Forall₂ R xs ys) (here : ys[i]? = some y) : ∃ x, xs[i]? = some x ∧ R x y := by
  induction h generalizing i with
  | nil => cases here
  | cons first _ ih => cases i with
    | zero =>
      cases here
      exact ⟨_, rfl, first⟩
    | succ i => exact ih here

theorem forall₂_set {α β : Type*} {R : α → β → Prop} {xs : List α} {ys : List β} {x : α} {y : β}
    (h : List.Forall₂ R xs ys) (new : R x y) : List.Forall₂ R (xs.set i x) (ys.set i y) := by
  induction h generalizing i with
  | nil => exact .nil
  | cons first rest ih => cases i with
    | zero => exact .cons new rest
    | succ i => exact .cons first ih

namespace Tree

/-- What is alike whatever the facts is alike. -/
theorem Alike.of_none (h : Alike .none t u) : Alike F t u := by
  induction h using Alike.induct with
  | var v => exact .var v
  | leaf l m same => exact .leaf same
  | app op xs ys a b h =>
    have plain : ∀ ts, operands .none op ts = ts := fun ts => if_neg Bool.false_ne_true
    rw [plain, plain] at h
    obtain ⟨zs, rfl | ⟨commutes, -⟩, h⟩ := h
    · exact .congr (.of_forall₂ (h.imp fun _ _ h => h.2))
    · cases commutes
  | unknown id => exact .unknown id

/-- What is alike an application of an operator to one operand, in its order. -/
theorem Alike.exists_unary (ordered : F.isCommutative op = false) (h : Alike F t (.app op [u] a)) :
    ∃ t' b, t = .app op [t'] b ∧ Alike F t' u := by
  obtain ⟨_, b, rfl, alike⟩ := h.operands_of_ordered ordered
  obtain ⟨t', _, first, rest, rfl⟩ := List.forall₂_cons_right_iff.mp alike
  obtain rfl := List.forall₂_nil_right_iff.mp rest
  exact ⟨t', b, rfl, first⟩

theorem Alike.exists_binary (ordered : F.isCommutative op = false) (h : Alike F t (.app op [u, w] a)) :
    ∃ t' t'' b, t = .app op [t', t''] b ∧ Alike F t' u ∧ Alike F t'' w := by
  obtain ⟨_, b, rfl, alike⟩ := h.operands_of_ordered ordered
  obtain ⟨t', _, first, others, rfl⟩ := List.forall₂_cons_right_iff.mp alike
  obtain ⟨t'', _, second, rest, rfl⟩ := List.forall₂_cons_right_iff.mp others
  obtain rfl := List.forall₂_nil_right_iff.mp rest
  exact ⟨t', t'', b, rfl, first, second⟩

theorem isApp_unique {op' : String} (h : t.IsApp op) (h' : t.IsApp op') : op = op' := by
  cases t with
  | app f args attrs => exact h.symm.trans h'
  | _ => exact h.elim

/-- Only the input itself is alike an input. -/
theorem Alike.eq_input {name : String} (h : Alike F t (.leaf (.input name))) :
    t = .leaf (.input name) := by
  cases h with
  | @leaf l _ same => cases l with
    | const c => exact same.elim
    | input other =>
      obtain rfl : other = name := same
      rfl

/-! ## Counts -/

/-- How many variables a tree has. -/
def marks : Tree → Nat := fold (fun _ => 1) (fun _ => 0) (fun _ _ counts => counts.sum) fun _ => 0

@[simp] theorem marks_var (v : UInt32) : (var v).marks = 1 := rfl

@[simp] theorem marks_app (op : String) (args : List Tree) (attrs : Attrs) :
    (app op args attrs).marks = (args.map marks).sum := fold_app ..

theorem Ground.marks_eq (h : Ground t) : t.marks = 0 := by
  induction t with
  | var v => exact absurd .var (h v)
  | leaf l => rfl
  | app op args attrs ih =>
    rw [marks_app, List.sum_eq_zero]
    intro k mem
    obtain ⟨t, here, rfl⟩ := List.mem_map.mp mem
    exact ih t here (h.of_mem here)
  | unknown id => rfl

/-- How often an input occurs in a tree. -/
def occurrences (name : String) : Tree → Nat :=
  fold (fun _ => 0) (fun l => if l = .input name then 1 else 0) (fun _ _ counts => counts.sum) fun _ => 0

theorem occurrences_app (name op : String) (args : List Tree) (attrs : Attrs) :
    (app op args attrs).occurrences name = (args.map (occurrences name)).sum := fold_app ..

/-- An input that is put in for the marks occurs at them. -/
theorem occurrences_subst (name : String) (p : Tree) :
    (p.subst fun _ => .leaf (.input name)).occurrences name = p.occurrences name + p.marks := by
  induction p with
  | var v => exact if_pos rfl
  | leaf l => rfl
  | app op args attrs ih =>
    rw [subst_app, occurrences_app, occurrences_app, marks_app, List.map_map, ← List.sum_map_add]
    exact congrArg List.sum (List.map_congr_left ih)
  | unknown id => rfl

/-- An input that does not occur has no effect on the value. -/
theorem value_withInput {M : Type*} {I : Interpretation M} {ρ : Valuation M} {name : String}
    (none : p.occurrences name = 0) (x : M) : I.value (ρ.withInput name x) p = I.value ρ p := by
  induction p with
  | var v => rfl
  | leaf l =>
    cases l with
    | const c => rfl
    | input other =>
      have ne : other ≠ name := by
        rintro rfl
        exact absurd (none.symm.trans (if_pos rfl)) Nat.zero_ne_one
      exact Function.update_of_ne ne x ρ.input
  | app op args attrs ih =>
    rw [occurrences_app, List.sum_eq_zero_iff_forall_eq_nat] at none
    rw [Interpretation.value_app, Interpretation.value_app]
    congr 1
    exact List.map_congr_left fun t mem => ih t mem (none _ (List.mem_map_of_mem mem))
  | unknown id => rfl

/-! ## Densities -/

def squared (t : Tree) : Tree := .app "square" [t] .unspecified

/-- The density term of `y` around `m` with width `s`. -/
def density (y m s : Tree) : Tree :=
  squared (.app "div" [.app "sub" [y, m] .unspecified, s] .unspecified)

end Tree

/-- The terms that a step binds: `x` around `mu` with width `tau`, and `y` around `x` with width
    `sigma`. -/
structure Hierarchy where
  x : Tree
  mu : Tree
  tau : Tree
  y : Tree
  sigma : Tree

namespace Hierarchy

variable {h : Hierarchy} {x y s mu tau : Tree} {name : String}

/-- What stands for `x` once its own density is standard: `mu + tau * x`. -/
def shifted (h : Hierarchy) : Tree :=
  .app "add" [h.mu, .app "mul" [h.tau, h.x] .unspecified] .unspecified

/-- The density of `x` becomes standard. -/
def Standardizes (F : Facts) (h : Hierarchy) (t u : Tree) : Prop :=
  Tree.Alike F t (.density h.x h.mu h.tau) ∧ ∀ G, Tree.Alike G u h.x.squared

/-- The density of `y` around `x` becomes one around `mu + tau * x`. -/
def Shifts (F : Facts) (h : Hierarchy) (t u : Tree) : Prop :=
  Tree.Alike F t (.density h.y h.x h.sigma) ∧ ∀ G, Tree.Alike G u (.density h.y h.shifted h.sigma)

/-- One density of `x` becomes standard, and in what results one density around `x` is shifted. -/
def Recenters (F : Facts) (h : Hierarchy) (t u : Tree) : Prop :=
  ∃ mid, Tree.Rewrites (h.Standardizes F) t mid ∧ Tree.Rewrites (h.Shifts F) mid u

/-- The marks stand for the value of `mu + tau * x`. -/
def atMarks {K : Type*} (h : Hierarchy) (I : Interpretation K) (ρ : Valuation K) : Valuation K :=
  { ρ with var := fun _ => I.value ρ h.shifted }

theorem value_shifted {K : Type*} [Field K] {I : Interpretation K} {ρ : Valuation K}
    (arith : I.Arithmetic) :
    I.value ρ h.shifted = I.value ρ h.mu + I.value ρ h.tau * I.value ρ h.x := by
  unfold shifted
  simp only [Interpretation.value_app, List.map_cons, List.map_nil, arith.add, arith.mul]

/-- In every field a tree has the value of a marked tree. -/
def Reads (F : Facts) (h : Hierarchy) (p u : Tree) : Prop :=
  ∀ (K : Type k) [Field K] (I : Interpretation K) (ρ : Valuation K), I.Respects F → I.Arithmetic →
    I.value ρ h.tau ≠ 0 → I.value ρ u = I.value (h.atMarks I ρ) p

/-- A tree before and a tree after, and the tree with `n` marks where `x` was shifted. -/
structure Marked (F : Facts) (h : Hierarchy) (n : Nat) (p t u : Tree) : Prop where
  source : p.subst (fun _ => h.x) = t
  marks : p.marks = n
  reads : Reads.{k} F h p u

/-- The same for all operands, with the marks counted together. -/
inductive MarkedAll (F : Facts) (h : Hierarchy) :
    Nat → List Tree → List Tree → List Tree → Prop
  | nil : MarkedAll F h 0 [] [] []
  | cons {n m : Nat} {p t u : Tree} {ps ts us : List Tree} (first : Marked.{k} F h n p t u)
      (rest : MarkedAll F h m ps ts us) : MarkedAll F h (n + m) (p :: ps) (t :: ts) (u :: us)

/-! ## Applications -/

theorem MarkedAll.map_source (all : MarkedAll.{k} F h n ps ts us) :
    ps.map (Tree.subst fun _ => h.x) = ts := by
  induction all with
  | nil => rfl
  | cons first _ ih => rw [List.map_cons, first.source, ih]

theorem MarkedAll.sum_marks (all : MarkedAll.{k} F h n ps ts us) : (ps.map Tree.marks).sum = n := by
  induction all with
  | nil => rfl
  | cons first _ ih => rw [List.map_cons, List.sum_cons, first.marks, ih]

theorem MarkedAll.map_reads (all : MarkedAll.{k} F h n ps ts us) {K : Type k} [Field K]
    {I : Interpretation K} {ρ : Valuation K} (hI : I.Respects F) (arith : I.Arithmetic)
    (wide : I.value ρ h.tau ≠ 0) : us.map (I.value ρ) = ps.map (I.value (h.atMarks I ρ)) := by
  induction all with
  | nil => rfl
  | cons first _ ih => rw [List.map_cons, List.map_cons, first.reads K I ρ hI arith wide, ih]

/-- An application has the marks of its operands. -/
theorem Marked.app (all : MarkedAll.{k} F h n ps ts us) (alike : Tree.Alike F w (.app op us b)) :
    Marked.{k} F h n (.app op ps a) (.app op ts a) w where
  source := by rw [Tree.subst_app, all.map_source]
  marks := by rw [Tree.marks_app, all.sum_marks]
  reads K _ I ρ hI arith wide := by
    rw [hI.value_eq alike, Interpretation.value_app, Interpretation.value_app,
      all.map_reads hI arith wide]

/-- A tree without variables has no marks. -/
theorem Marked.ground (ground : t.Ground) (alike : Tree.Alike F u t) : Marked.{k} F h 0 t t u where
  source := ground.subst _
  marks := ground.marks_eq
  reads K _ I ρ hI _ _ := by
    rw [hI.value_eq alike]
    exact Interpretation.value_congr fun v occurs => absurd occurs (ground v)

/-- What stands at a mark. -/
theorem Marked.mark (v : UInt32) : Marked.{k} F h 1 (.var v) h.x h.shifted where
  source := rfl
  marks := rfl
  reads _ _ _ _ _ _ _ := rfl

theorem Marked.congr (marked : Marked.{k} F h n p t u) (alike : Tree.Alike F w u) :
    Marked.{k} F h n p t w where
  source := marked.source
  marks := marked.marks
  reads K _ I ρ hI arith wide := by rw [hI.value_eq alike, marked.reads K I ρ hI arith wide]

theorem MarkedAll.ground (ground : ∀ t ∈ ts, t.Ground) (alike : List.Forall₂ (Tree.Alike F) us ts) :
    MarkedAll.{k} F h 0 ts ts us := by
  induction alike with
  | nil => exact .nil
  | cons first _ ih =>
    rw [List.forall_mem_cons] at ground
    exact .cons (.ground ground.1 first) (ih ground.2)

/-- An operand without marks is replaced by one with marks. -/
theorem MarkedAll.set (all : MarkedAll.{k} F h n ps ts us) (here : ps[i]? = some q) (none : q.marks = 0)
    (source : ts[i]? = some t) (marked : Marked.{k} F h m p t u) :
    MarkedAll.{k} F h (n + m) (ps.set i p) ts (us.set i u) := by
  induction all generalizing i with
  | nil => cases here
  | @cons n' m' _ _ _ _ _ _ first rest ih =>
    cases i with
    | zero =>
      cases here
      cases source
      obtain rfl : n' = 0 := first.marks.symm.trans none
      rw [Nat.zero_add, Nat.add_comm]
      exact .cons marked rest
    | succ i =>
      rw [Nat.add_assoc]
      exact .cons first (ih here source)

theorem MarkedAll.unary (marked : Marked.{k} F h n p t u) : MarkedAll.{k} F h n [p] [t] [u] :=
  .cons marked .nil

theorem MarkedAll.binary {p' t' u' : Tree} (first : Marked.{k} F h n p t u)
    (second : Marked.{k} F h m p' t' u') : MarkedAll.{k} F h (n + m) [p, p'] [t, t'] [u, u'] :=
  .cons first (.unary second)

/-! ## Sites -/

/-- Where each site makes one mark, so does a rewriting at one position. -/
theorem Marked.of_rewrites {R : Tree → Tree → Prop} {t' : Tree}
    (site : ∀ {t t' u}, t.Ground → Tree.Alike .none t t' → R t' u → ∃ p, Marked.{k} F h 1 p t u)
    (rewrites : Tree.Rewrites R t' u) (ground : t.Ground) (same : Tree.Alike .none t t') :
    ∃ p, Marked.{k} F h 1 p t u := by
  induction rewrites generalizing t with
  | here applies => exact site ground same applies
  | @inside op args attrs i s' u w operand _ rebuilt ih =>
    obtain ⟨ws, attrs', rfl, alike⟩ := same.operands_of_ordered rfl
    obtain ⟨s, here, same⟩ := exists_of_forall₂_getElem? alike operand
    have operands : ∀ s ∈ ws, s.Ground := fun s mem => ground.of_mem mem
    obtain ⟨p, marked⟩ := ih (operands s (List.mem_of_getElem? here)) same
    have unmarked : MarkedAll.{k} F h 0 ws ws args :=
      .ground operands (List.Forall₂.flip (alike.imp fun _ _ same => same.of_none.symm))
    have all := unmarked.set here (operands s (List.mem_of_getElem? here)).marks_eq here marked
    exact ⟨_, .app all (rebuilt F)⟩

variable (ordered : F.OrderDensities)

include ordered

/-- What is alike a density is one. -/
theorem exists_of_density (alike : Tree.Alike F t (.density y mu s)) :
    ∃ y' mu' s' a b c, t = .app "square" [.app "div" [.app "sub" [y', mu'] a, s'] b] c ∧
      Tree.Alike F y' y ∧ Tree.Alike F mu' mu ∧ Tree.Alike F s' s := by
  obtain ⟨_, c, rfl, quotient⟩ := alike.exists_unary (ordered _ (by decide))
  obtain ⟨_, s', b, rfl, difference, width⟩ := quotient.exists_binary (ordered _ (by decide))
  obtain ⟨y', mu', a, rfl, left, right⟩ := difference.exists_binary (ordered _ (by decide))
  exact ⟨y', mu', s', a, b, c, rfl, left, right, width⟩

omit ordered in
/-- Only `x` is alike `x`, since it is an input. -/
theorem eq_of_alike (input : h.x = .leaf (.input name)) (alike : Tree.Alike F t h.x) : t = h.x := by
  rw [input] at alike ⊢
  exact alike.eq_input

/-- A density that becomes standard has one mark. -/
theorem Marked.standardizes {t' : Tree} (input : h.x = .leaf (.input name)) (ground : t.Ground)
    (same : Tree.Alike .none t t') (step : h.Standardizes F t' u) : ∃ p, Marked.{k} F h 1 p t u := by
  obtain ⟨x, mu, tau, a, b, c, rfl, center, mean, width⟩ :=
    exists_of_density ordered (same.of_none.trans step.1)
  obtain rfl : x = h.x := eq_of_alike input center
  have quotient := ground.of_mem (.head _)
  have difference := quotient.of_mem (.head _)
  have groundMu := difference.of_mem (.tail _ (.head _))
  have groundTau := quotient.of_mem (.tail _ (.head _))
  refine ⟨.app "square" [.app "div" [.app "sub" [.var 0, mu] a, tau] b] c, ?_, ?_, ?_⟩
  · simp [groundMu.subst, groundTau.subst]
  · simp [groundMu.marks_eq, groundTau.marks_eq]
  · intro K _ I ρ hI arith wide
    have sameMu : I.value (h.atMarks I ρ) mu = I.value ρ h.mu :=
      ((Marked.ground groundMu mean.symm).reads K I ρ hI arith wide).symm
    have sameTau : I.value (h.atMarks I ρ) tau = I.value ρ h.tau :=
      ((Marked.ground groundTau width.symm).reads K I ρ hI arith wide).symm
    have atMark : I.value (h.atMarks I ρ) (.var 0) =
        I.value ρ h.mu + I.value ρ h.tau * I.value ρ h.x := value_shifted arith
    rw [hI.value_eq (step.2 F)]
    unfold Tree.squared
    simp only [Interpretation.value_app, List.map_cons, List.map_nil, arith.square, arith.div,
      arith.sub, sameMu, sameTau, atMark]
    rw [add_sub_cancel_left, mul_div_cancel_left₀ _ wide]

omit ordered in
/-- A density around `x` that is shifted has a mark at `x`. -/
theorem Marked.density {t' u' : Tree} {a b c : Attrs} (center : Marked.{k} F h n p t u)
    (width : Marked.{k} F h m q t' u') (alike : Tree.Alike F w (.density u h.shifted u')) :
    Marked.{k} F h (n + 1 + m)
      (.app "square" [.app "div" [.app "sub" [p, .var 0] a, q] b] c)
      (.app "square" [.app "div" [.app "sub" [t, h.x] a, t'] b] c) w :=
  .app (.unary (.app (.binary (.app (.binary center (.mark 0)) (.refl _)) width) (.refl _))) alike

/-- A density around `x` that is shifted has one mark. -/
theorem Marked.shifts {t' : Tree} (input : h.x = .leaf (.input name)) (ground : t.Ground)
    (same : Tree.Alike .none t t') (step : h.Shifts F t' u) : ∃ p, Marked.{k} F h 1 p t u := by
  obtain ⟨y, x, s, a, b, c, rfl, left, center, width⟩ :=
    exists_of_density ordered (same.of_none.trans step.1)
  obtain rfl : x = h.x := eq_of_alike input center
  have quotient := ground.of_mem (.head _)
  have difference := quotient.of_mem (.head _)
  exact ⟨_, .density (.ground (difference.of_mem (.head _)) left.symm)
    (.ground (quotient.of_mem (.tail _ (.head _))) width.symm) (step.2 F)⟩

/-! ## Two sites -/

omit ordered in
/-- A density that became standard is an application of the square. -/
theorem isApp_of_rewrites (rewrites : Tree.Rewrites (h.Standardizes F) t u) : ∃ op, u.IsApp op := by
  cases rewrites with
  | here step => exact ⟨"square", (step.2 F).isApp_iff.mpr rfl⟩
  | inside _ _ rebuilt => exact ⟨_, (rebuilt F).isApp_iff.mpr rfl⟩

omit ordered in
/-- Where what results is another application to two operands, one of the operands was rewritten. -/
theorem exists_below {l r : Tree} (fixed : F.isCommutative op = false) (ne : op ≠ "square")
    (rewrites : Tree.Rewrites (h.Standardizes F) t u) (alike : Tree.Alike F u (.app op [l, r] a)) :
    ∃ t₁ t₂ b, t = .app op [t₁, t₂] b ∧
      ((∃ u₁, Tree.Rewrites (h.Standardizes F) t₁ u₁ ∧ Tree.Alike F u₁ l ∧ Tree.Alike F t₂ r) ∨
        (∃ u₂, Tree.Rewrites (h.Standardizes F) t₂ u₂ ∧ Tree.Alike F t₁ l ∧ Tree.Alike F u₂ r)) := by
  cases rewrites with
  | here step =>
    have square : u.IsApp "square" := (step.2 F).isApp_iff.mpr rfl
    exact absurd (Tree.isApp_unique (alike.isApp_iff.mpr rfl) square) ne
  | @inside f args attrs i s s' _ operand step rebuilt =>
    obtain ⟨l', r', b, eq, left, right⟩ :=
      ((rebuilt F).symm.trans alike).exists_binary fixed
    injection eq with same operands
    subst same
    have two : args.length = 2 := by
      rw [← List.length_set (i := i) (a := s'), operands]
      rfl
    obtain ⟨t₁, t₂, rfl⟩ := List.length_eq_two.mp two
    refine ⟨t₁, t₂, attrs, rfl, ?_⟩
    match i with
    | 0 =>
      cases operand
      cases operands
      exact .inl ⟨_, step, left, right⟩
    | 1 =>
      cases operand
      cases operands
      exact .inr ⟨_, step, left, right⟩
    | i + 2 => cases operand

variable (input : h.x = .leaf (.input name))

include input

theorem Marked.of_standardized (ground : t.Ground) (first : Tree.Rewrites (h.Standardizes F) t u) :
    ∃ p, Marked.{k} F h 1 p t u :=
  Marked.of_rewrites (standardizes ordered input) first ground (.refl t)

/-- The density that became standard is inside the one that is shifted: in `y` or in its width. -/
theorem Marked.above {t' d : Tree} {c : Attrs} (ground : t'.Ground)
    (first : Tree.Rewrites (h.Standardizes F) t' d) (quotient : Tree.Alike F d
      (.app "div" [.app "sub" [h.y, h.x] .unspecified, h.sigma] .unspecified))
    (result : Tree.Alike F u (.density h.y h.shifted h.sigma)) :
    ∃ p, Marked.{k} F h 2 p (.app "square" [t'] c) u := by
  obtain ⟨e, s, b, rfl, ⟨e', inE, difference, width⟩ | ⟨s', inS, difference, width⟩⟩ :=
    exists_below (ordered "div" (by decide)) (by decide) first quotient
  · have difference' := ground.of_mem (.head _)
    obtain ⟨y, x, a, rfl, ⟨y', inY, left, center⟩ | ⟨x', inX, left, center⟩⟩ :=
      exists_below (ordered "sub" (by decide)) (by decide) inE difference
    · obtain rfl : x = h.x := eq_of_alike input center
      obtain ⟨p, marked⟩ := of_standardized ordered input (difference'.of_mem (.head _)) inY
      exact ⟨_, .density (marked.congr left.symm)
        (.ground (ground.of_mem (.tail _ (.head _))) width.symm) result⟩
    · obtain ⟨op, app⟩ := isApp_of_rewrites inX
      rw [eq_of_alike input center, input] at app
      exact app.elim
  · obtain ⟨y, x, a, rfl, left, center⟩ := difference.exists_binary (ordered "sub" (by decide))
    obtain rfl : x = h.x := eq_of_alike input center
    obtain ⟨p, marked⟩ := of_standardized ordered input (ground.of_mem (.tail _ (.head _))) inS
    exact ⟨_, .density (.ground ((ground.of_mem (.head _)).of_mem (.head _)) left.symm)
      (marked.congr width.symm) result⟩

theorem not_shifts_x : ¬ Tree.Rewrites (h.Shifts F) h.x u := by
  intro rewrites
  rw [input] at rewrites
  cases rewrites with
  | here step =>
    obtain ⟨_, _, _, _, _, _, eq, -⟩ := exists_of_density ordered step.1
    cases eq

/-- No density around `x` is shifted in the square of `x`. -/
theorem not_shifts_squared (same : Tree.Alike .none t h.x.squared) :
    ¬ Tree.Rewrites (h.Shifts F) t u := by
  obtain ⟨d, c, rfl, inner⟩ := same.exists_unary rfl
  obtain rfl : d = h.x := eq_of_alike input inner
  intro rewrites
  cases rewrites with
  | here step =>
    obtain ⟨_, _, _, _, _, _, eq, -⟩ := exists_of_density ordered step.1
    rw [input] at eq
    cases eq
  | @inside _ _ _ j d' _ _ operand step =>
    have mem := List.mem_of_getElem? operand
    rw [List.mem_singleton.mp mem] at step
    exact not_shifts_x ordered input step

/-- One operand is rewritten to a standard density, and then the same or another one is shifted. -/
theorem MarkedAll.of_operands {args ws : List Tree} {s s' s₂ : Tree} {j : Nat}
    (ground : ∀ s ∈ args, s.Ground) (operand : args[i]? = some s)
    (step : Tree.Rewrites (h.Standardizes F) s s')
    (alike : List.Forall₂ (Tree.Alike .none) ws (args.set i s')) (operand' : ws[j]? = some s₂)
    (shift : Tree.Rewrites (h.Shifts F) s₂ u)
    (both : Tree.Alike .none s₂ s' → ∃ p, Marked.{k} F h 2 p s u) :
    ∃ ps, MarkedAll.{k} F h 2 ps args (ws.set j u) := by
  have unmarked : ∀ {t}, t ∈ args → t.marks = 0 := fun mem => (ground _ mem).marks_eq
  have mem := List.mem_of_getElem? operand
  have start : MarkedAll.{k} F h 0 args args (ws.set i s) := by
    refine .ground ground ?_
    obtain ⟨lt, rfl⟩ := List.getElem?_eq_some_iff.mp operand
    have before := forall₂_set (i := i) alike (.refl args[i])
    rw [List.set_set, List.set_getElem_self lt] at before
    exact before.imp fun _ _ => Tree.Alike.of_none
  obtain ⟨t, there, same⟩ := exists_of_forall₂_getElem? (List.Forall₂.flip alike) operand'
  by_cases here : j = i
  · subst here
    rw [List.getElem?_set_self (List.getElem?_eq_some_iff.mp operand).1] at there
    cases there
    obtain ⟨p, marked⟩ := both same
    have all := start.set operand (unmarked mem) operand marked
    rw [List.set_set] at all
    exact ⟨_, all⟩
  · have new : (args.set i s')[i]? = some s' :=
      List.getElem?_set_self (List.getElem?_eq_some_iff.mp operand).1
    obtain ⟨s'', after, same'⟩ := exists_of_forall₂_getElem? alike new
    have kept : ws.set i s'' = ws := by
      obtain ⟨lt, rfl⟩ := List.getElem?_eq_some_iff.mp after
      exact List.set_getElem_self lt
    rw [List.getElem?_set_ne (Ne.symm here)] at there
    have mem' := List.mem_of_getElem? there
    obtain ⟨p, first⟩ := Marked.of_standardized ordered input (ground s mem) step
    obtain ⟨q, second⟩ :=
      Marked.of_rewrites (Marked.shifts ordered input) shift (ground t mem') same.symm
    have one := start.set operand (unmarked mem) operand (first.congr same'.of_none)
    rw [List.set_set, kept] at one
    have other : (args.set i p)[j]? = some t := by
      rwa [List.getElem?_set_ne (Ne.symm here)]
    exact ⟨_, one.set other (unmarked mem') there second⟩

/-- Two sites make two marks, wherever they are. The induction is on the position of the first site;
    the second is then around it, in the same operand or in another one. -/
theorem Marked.of_both {mid mid' : Tree} (first : Tree.Rewrites (h.Standardizes F) t mid)
    (second : Tree.Rewrites (h.Shifts F) mid' u) (same : Tree.Alike .none mid' mid)
    (ground : t.Ground) : ∃ p, Marked.{k} F h 2 p t u := by
  induction first generalizing mid' u with
  | here step => exact absurd second (not_shifts_squared ordered input (same.trans (step.2 .none)))
  | @inside op args attrs i s s' w operand step rebuilt ih =>
    obtain ⟨ws, attrs', rfl, alike⟩ := (same.trans (rebuilt .none)).operands_of_ordered rfl
    have operands : ∀ s ∈ args, s.Ground := fun s mem => ground.of_mem mem
    have groundS := operands s (List.mem_of_getElem? operand)
    cases second with
    | here shift =>
      obtain ⟨t', _, eq, quotient⟩ := shift.1.exists_unary (ordered "square" (by decide))
      cases eq
      have one : args.length = 1 := by
        rw [← List.length_set (i := i) (a := s'), ← alike.length_eq]
        rfl
      obtain ⟨t, rfl⟩ := List.length_eq_one_iff.mp one
      match i with
      | 0 =>
        cases operand
        have inner := (List.forall₂_cons.mp alike).1
        exact above ordered input groundS step (inner.symm.of_none.trans quotient) (shift.2 F)
      | i + 1 => cases operand
    | inside operand' shift rebuilt' =>
      obtain ⟨ps, all⟩ := MarkedAll.of_operands ordered input operands operand step alike operand' shift
        fun same => ih shift same groundS
      exact ⟨_, .app all (rebuilt' F)⟩

omit ordered input

end Hierarchy

end Regraft
