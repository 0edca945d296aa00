import Regraft.Proofs.Term.Alike

/-
  Equality of trees modulo the facts of a session, as the least congruence: operands of an operator
  that commutes may be permuted, nested pairs of a chain operator regrouped, and constants replaced by
  constants of the same value. On plain trees, whose chain operators have two operands each, it is the
  same as being alike (`equal_iff_alike`).
-/

namespace Regraft

namespace Tree

/-- Equality modulo the facts. -/
inductive Equal (F : Facts) : Tree → Tree → Prop
  | refl (t : Tree) : Equal F t t
  | symm {t u : Tree} (h : Equal F t u) : Equal F u t
  | trans {t u w : Tree} (h : Equal F t u) (h' : Equal F u w) : Equal F t w
  | const {c d : Constant} (hc : c.Fills) (hd : d.Fills) (h : c.valueEq d = true) :
      Equal F (.leaf (.const c)) (.leaf (.const d))
  | operand {op : String} {attrs : Attrs} {t u : Tree} (before after : List Tree)
      (h : Equal F t u) :
      Equal F (.app op (before ++ t :: after) attrs) (.app op (before ++ u :: after) attrs)
  | permute {op : String} {attrs : Attrs} {xs ys : List Tree} (comm : F.isCommutative op = true)
      (h : xs.Perm ys) : Equal F (.app op xs attrs) (.app op ys attrs)
  | regroup {op : String} (chain : F.isChain op = true) (x y z : Tree) :
      Equal F (.app op [.app op [x, y] .unspecified, z] .unspecified)
        (.app op [x, .app op [y, z] .unspecified] .unspecified)

/-- Labels without attributes, where constants fill their shapes and chain operators have two
    operands. -/
def plainLabel (F : Facts) : Label → Prop
  | .leaf (.const c) => c.Fills
  | .leaf (.input _) => True
  | .node op operands attrs =>
    attrs = .unspecified ∧ (F.isChain op = true → operands = 2)

/-- No application says anything of its value, constants fill their shapes, and operators that
    commute and associate are applied to exactly two operands. -/
def Plain (F : Facts) (t : Tree) : Prop := t.Over (plainLabel F)

variable {F : Facts} {op : String} {attrs : Attrs} {t u : Tree} {xs ys : List Tree}

theorem plain_app : Plain F (.app op xs attrs) ↔
    (attrs = .unspecified ∧ (F.isChain op = true → xs.length = 2)) ∧ ∀ t ∈ xs, Plain F t := over_app

theorem plain_pair (h : attrs = .unspecified) (hx : Plain F t) (hy : Plain F u) :
    Plain F (.app op [t, u] attrs) := over_pair ⟨h, fun _ => rfl⟩ hx hy

/-! ## From the congruence to being alike -/

theorem Equal.alike (h : Equal F t u) : Alike F t u := by
  induction h with
  | refl t => exact .refl t
  | symm _ ih => exact ih.symm
  | trans _ _ ih ih' => exact ih.trans ih'
  | const hc hd h => exact .leaf (Constant.same_of_valueEq hc hd h)
  | operand before after _ ih =>
    refine .congr (.append (.of_forall₂ ?_) (.of_forall₂ (.cons ih ?_)))
    · exact List.forall₂_same.mpr fun t _ => .refl t
    · exact List.forall₂_same.mpr fun t _ => .refl t
  | permute comm h =>
    exact .congr ⟨_, .inr ⟨comm, h⟩, List.forall₂_same.mpr fun t _ => .refl t⟩
  | regroup chain x y z =>
    refine .of_items chain rfl rfl (.of_forall₂ ?_)
    simp only [items_app_self, List.flatMap_cons, List.flatMap_nil, List.append_nil,
      List.append_assoc]
    exact List.forall₂_same.mpr fun t _ => .refl t

/-- Equal trees are plain together. -/
theorem Equal.plain_iff (h : Equal F t u) : Plain F t ↔ Plain F u := by
  induction h with
  | refl t => rfl
  | symm _ ih => exact ih.symm
  | trans _ _ ih ih' => exact ih.trans ih'
  | const hc hd _ => exact ⟨fun _ => .leaf hd, fun _ => .leaf hc⟩
  | operand before after _ ih =>
    rw [plain_app, plain_app, List.length_append, List.length_append, List.length_cons,
      List.length_cons, List.forall_mem_append, List.forall_mem_append, List.forall_mem_cons,
      List.forall_mem_cons, ih]
  | permute comm h =>
    rw [plain_app, plain_app, h.length_eq]
    exact and_congr_right fun _ => ⟨fun hp t ht => hp t (h.mem_iff.mpr ht),
      fun hp t ht => hp t (h.mem_iff.mp ht)⟩
  | regroup chain x y z =>
    simp only [plain_app, List.forall_mem_cons, List.length_cons, List.length_nil]
    tauto

/-! ## From being alike to the congruence -/

/-- Operands may be replaced by equal ones. -/
theorem Equal.congr (h : List.Forall₂ (Equal F) xs ys) :
    Equal F (.app op xs attrs) (.app op ys attrs) := by
  have from_ : ∀ before, Equal F (.app op (before ++ xs) attrs) (.app op (before ++ ys) attrs) := by
    induction h with
    | nil => exact fun before => .refl _
    | @cons x y xs ys hxy _ ih =>
      intro before
      have rest := ih (before ++ [y])
      rw [List.append_assoc, List.append_assoc, List.singleton_append, List.singleton_append] at rest
      exact (Equal.operand before xs hxy).trans rest
  exact from_ []

/-- Substitutions that put in equal trees make equal trees. -/
theorem Equal.subst_congr {σ τ : UInt32 → Tree} (h : ∀ v, HasVar v t → Equal F (σ v) (τ v)) :
    Equal F (t.subst σ) (t.subst τ) := by
  induction t with
  | var v => exact h v .var
  | leaf l => exact .refl _
  | app op args attrs ih =>
    rw [subst_app, subst_app]
    refine .congr ?_
    rw [List.forall₂_map_left_iff, List.forall₂_map_right_iff, List.forall₂_same]
    exact fun u hu => ih u hu fun v hv => h v (.app hu hv)
  | unknown id => exact .refl _

/-- A chain of an operator, nested to the right. -/
def nested (op : String) : List Tree → Tree
  | [] => .app op [] .unspecified
  | [t] => t
  | t :: u :: rest => .app op [t, nested op (u :: rest)] .unspecified

theorem nested_cons (op : String) (t : Tree) (h : xs ≠ []) :
    nested op (t :: xs) = .app op [t, nested op xs] .unspecified := by
  cases xs with
  | nil => exact absurd rfl h
  | cons u rest => rfl

/-- The chain of a nested list is the list. -/
theorem items_nested (h : ∀ u ∈ xs, ¬ IsApp op u) : (nested op xs).items op = xs := by
  induction xs with
  | nil => exact items_app_self op [] .unspecified
  | cons x rest ih =>
    rw [List.forall_mem_cons] at h
    cases rest with
    | nil => exact items_of_not_isApp h.1
    | cons y rest =>
      rw [nested_cons op x (List.cons_ne_nil y rest), items_app_self, List.flatMap_cons,
        List.flatMap_singleton, items_of_not_isApp h.1, ih h.2, List.singleton_append]

theorem plain_nested (ne : xs ≠ []) (h : ∀ u ∈ xs, Plain F u) : Plain F (nested op xs) := by
  induction xs with
  | nil => exact absurd rfl ne
  | cons x rest ih =>
    rw [List.forall_mem_cons] at h
    cases rest with
    | nil => exact h.1
    | cons y rest =>
      rw [nested_cons op x (List.cons_ne_nil y rest)]
      exact plain_pair rfl h.1 (ih (List.cons_ne_nil y rest) h.2)

theorem isApp_nested (h : xs.length ≠ 1) : IsApp op (nested op xs) := by
  match xs with
  | [] => rfl
  | [_] => exact absurd rfl h
  | _ :: _ :: _ => rfl

theorem Equal.second {t u w : Tree} (h : Equal F t u) :
    Equal F (.app op [w, t] attrs) (.app op [w, u] attrs) := .operand [w] [] h

theorem Equal.first {t u w : Tree} (h : Equal F t u) :
    Equal F (.app op [t, w] attrs) (.app op [u, w] attrs) := .operand [] [w] h

theorem nested_append (chain : F.isChain op = true) (hx : xs ≠ []) (hy : ys ≠ []) :
    Equal F (.app op [nested op xs, nested op ys] .unspecified) (nested op (xs ++ ys)) := by
  induction xs with
  | nil => exact absurd rfl hx
  | cons x xs ih =>
    by_cases h : xs = []
    · subst h
      rw [List.singleton_append, nested_cons op x hy]
      exact .refl _
    · rw [nested_cons op x h, List.cons_append, nested_cons op x (List.append_ne_nil_of_left_ne_nil h ys)]
      exact (Equal.regroup chain _ _ _).trans (ih h).second

theorem nested_perm (chain : F.isChain op = true) (h : xs.Perm ys) :
    Equal F (nested op xs) (nested op ys) := by
  have swap : ∀ {t u : Tree}, Equal F (.app op [t, u] .unspecified) (.app op [u, t] .unspecified) :=
    .permute (Facts.commutative_of_isChain chain) (.swap ..)
  induction h with
  | nil => exact .refl _
  | @cons x xs ys h ih =>
    by_cases hx : xs = []
    · subst hx
      rw [h.nil_eq]
      exact .refl _
    · rw [nested_cons op x hx, nested_cons op x fun hy => hx (by rw [hy] at h; exact h.eq_nil)]
      exact ih.second
  | swap x y rest =>
    by_cases hr : rest = []
    · subst hr
      exact swap
    · rw [nested_cons op y (by simp), nested_cons op x hr, nested_cons op x (by simp),
        nested_cons op y hr]
      exact (Equal.regroup chain _ _ _).symm.trans (swap.first.trans (.regroup chain _ _ _))
  | trans _ _ ih ih' => exact ih.trans ih'

theorem nested_congr (h : List.Forall₂ (Equal F) xs ys) : Equal F (nested op xs) (nested op ys) := by
  induction h with
  | nil => exact .refl _
  | @cons x y xs ys hxy h ih =>
    by_cases hx : xs = []
    · subst hx
      cases h
      exact hxy
    · have hy : ys ≠ [] := by
        rintro rfl
        cases h
        exact hx rfl
      rw [nested_cons op x hx, nested_cons op y hy]
      exact hxy.first.trans ih.second

/-- The chain of a plain tree is not empty, and has several operands when the tree is an application
    of the operator. -/
theorem Plain.items_length (chain : F.isChain op = true) (h : Plain F t) :
    1 ≤ (items op t).length ∧ (IsApp op t → 2 ≤ (items op t).length) := by
  induction t with
  | app f args attrs ih =>
    by_cases hf : f = op
    · subst hf
      obtain ⟨⟨-, binary⟩, plain⟩ := plain_app.mp h
      match args, binary chain with
      | [x, y], _ =>
        have hx := (ih x (by simp) (plain x (by simp))).1
        have hy := (ih y (by simp) (plain y (by simp))).1
        rw [items_app_self, List.flatMap_cons, List.flatMap_singleton, List.length_append]
        exact ⟨by omega, fun _ => by omega⟩
    · rw [items_of_not_isApp (t := .app f args attrs) hf]
      exact ⟨Nat.le_refl _, fun h => absurd h hf⟩
  | var v => exact ⟨Nat.le_refl _, False.elim⟩
  | leaf l => exact ⟨Nat.le_refl _, False.elim⟩
  | unknown id => exact ⟨Nat.le_refl _, False.elim⟩

theorem Plain.items_ne_nil (chain : F.isChain op = true) (h : Plain F t) : items op t ≠ [] := by
  have := (h.items_length chain).1
  exact List.ne_nil_of_length_pos this

/-- The operands of a chain are together as large as the tree. -/
theorem Plain.sum_items (chain : F.isChain op = true) (h : Plain F t) :
    ((items op t).map fun u => u.size + 1).sum = t.size + 1 := by
  induction t with
  | app f args attrs ih =>
    by_cases hf : f = op
    · subst hf
      obtain ⟨⟨-, binary⟩, plain⟩ := plain_app.mp h
      obtain ⟨x, y, rfl⟩ := List.length_eq_two.mp (binary chain)
      have hx := ih x (by simp) (plain x (by simp))
      have hy := ih y (by simp) (plain y (by simp))
      rw [items_app_self, List.flatMap_cons, List.flatMap_singleton, List.map_append,
        List.sum_append, hx, hy, size_app]
      simp only [List.map_cons, List.map_nil, List.sum_cons, List.sum_nil]
      omega
    · rw [items_of_not_isApp (t := .app f args attrs) hf]
      rfl
  | var v => rfl
  | leaf l => rfl
  | unknown id => rfl

/-- Plain trees whose chains pair up are alike. -/
theorem Plain.alike_of_items (chain : F.isChain op = true) (ht : Plain F t) (hu : Plain F u)
    (h : F.Pairs (Alike F) op (items op t) (items op u)) : Alike F t u := by
  have length := h.length_eq
  have lt := (ht.items_length chain).2
  have lu := (hu.items_length chain).2
  by_cases appT : IsApp op t
  · by_cases appU : IsApp op u
    · exact .of_items chain appT appU h
    · have := lt appT
      rw [items_of_not_isApp appU, List.length_singleton] at length
      omega
  · by_cases appU : IsApp op u
    · have := lu appU
      rw [items_of_not_isApp appT, List.length_singleton] at length
      omega
    · rw [items_of_not_isApp appT, items_of_not_isApp appU] at h
      exact h.single

/-- A plain tree is equal to its chain, nested to the right. -/
theorem Plain.equal_nested (chain : F.isChain op = true) (h : Plain F t) :
    Equal F t (nested op (items op t)) := by
  induction t with
  | app f args attrs ih =>
    by_cases hf : f = op
    · subst hf
      obtain ⟨⟨rfl, binary⟩, plain⟩ := plain_app.mp h
      match args, binary chain with
      | [x, y], _ =>
        have px := plain x (by simp)
        have py := plain y (by simp)
        rw [items_app_self, List.flatMap_cons, List.flatMap_singleton]
        exact ((ih x (by simp) px).first.trans (ih y (by simp) py).second).trans
          (nested_append chain (px.items_ne_nil chain) (py.items_ne_nil chain))
    · rw [items_of_not_isApp (t := .app f args attrs) hf]
      exact .refl _
  | var v => exact .refl _
  | leaf l => exact .refl _
  | unknown id => exact .refl _

theorem Over.of_mem_operands {has : Label → Prop} (h : (Tree.app op xs attrs).Over has)
    (ht : t ∈ operands F op xs) : t.Over has := by
  have each := (over_app.mp h).2
  unfold operands at ht
  split at ht
  · obtain ⟨x, hx, ht⟩ := List.mem_flatMap.mp ht
    exact (each x hx).of_mem_items ht
  · exact each t ht

theorem equal_of_same {c d : Constant} (hc : c.Fills) (hd : d.Fills) (h : c.Same d) :
    Equal F (.leaf (.const c)) (.leaf (.const d)) := by
  rcases h.eq_or_valueEq with rfl | h
  · exact .refl _
  · exact .const hc hd h

/-- Plain trees that are alike are equal. -/
theorem Alike.equal (h : Alike F t u) (ht : Plain F t) (hu : Plain F u) : Equal F t u := by
  induction h using Alike.induct with
  | var v => exact .refl _
  | leaf l m same =>
    cases l with
    | const c => cases m with
      | const d => exact equal_of_same (over_leaf.mp ht) (over_leaf.mp hu) same
      | input name => exact same.elim
    | input name => cases m with
      | const d => exact same.elim
      | input other =>
        obtain rfl : name = other := same
        exact .refl _
  | app op xs ys a b h =>
    obtain ⟨zs, hz, h⟩ := h
    have h : List.Forall₂ (Equal F) zs (operands F op ys) := by
      refine forall₂_imp_mem h fun t mt u mu h => h.2 ?_ (hu.of_mem_operands mu)
      exact ht.of_mem_operands (hz.perm.mem_iff.mpr mt)
    unfold operands at hz h
    by_cases chain : F.isChain op = true
    · rw [if_pos chain] at hz h
      have nx := ht.equal_nested chain
      have ny := hu.equal_nested chain
      rw [items_app_self] at nx ny
      refine nx.trans (.trans ?_ ny.symm)
      exact (nested_perm chain hz.perm).trans (nested_congr h)
    · rw [if_neg chain] at hz h
      obtain rfl : a = .unspecified := (plain_app.mp ht).1.1
      obtain rfl : b = .unspecified := (plain_app.mp hu).1.1
      rcases hz with rfl | ⟨comm, hz⟩
      · exact .congr h
      · exact (Equal.permute comm hz).trans (.congr h)
  | unknown id => exact .refl _

/-- A plain tree is equal to just the plain trees that it is alike to. -/
theorem equal_iff_alike (h : Plain F u) : Equal F t u ↔ Plain F t ∧ Alike F t u :=
  ⟨fun e => ⟨e.plain_iff.mpr h, e.alike⟩, fun a => a.2.equal a.1 h⟩

end Tree

end Regraft
