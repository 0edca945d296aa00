import Regraft.Proofs.Renaming.Terms
import Regraft.Proofs.Subst.Resolves

/-
  Twin substitutions bind twin variables to twin terms and carry twin disequalities and sites
  (`Renaming.Substs`). What is read under them is the same on both sides: what a variable leads to, what
  occurs in a term, which variable is still open, and what a term is read as (`reify_made`). The bounds
  of the searches depend on the sizes of the stores; each proof takes one that suffices on both sides.
-/

namespace Regraft

namespace Renaming

variable {ρ : Renaming} {st st' st₁ st₁' : Store} {s s' : Subst} {t t' a a' b b' : TermId}
  {v w : UInt32}

/-- Options are related by everything that their values are related by. -/
theorem rel_imp {α β : Type} {R R' : α → β → Prop} {x : Option α} {y : Option β}
    (h : Option.Rel R x y) (imp : ∀ a b, R a b → R' a b) : Option.Rel R' x y := by
  cases h with
  | none => exact .none
  | some h => exact .some (imp _ _ h)

/-- What is found first in lists is related when what may be found is. -/
theorem findSome?_rel {α β γ δ : Type} {R : α → β → Prop} {P : γ → δ → Prop} {f : α → Option γ}
    {g : β → Option δ} (each : ∀ a b, R a b → Option.Rel P (f a) (g b)) {xs : List α} {ys : List β}
    (h : List.Forall₂ R xs ys) : Option.Rel P (xs.findSome? f) (ys.findSome? g) := by
  induction h with
  | nil => exact .none
  | @cons a b xs ys first _ ih =>
    have here := each a b first
    rw [List.findSome?_cons, List.findSome?_cons]
    generalize f a = x at here ⊢
    generalize g b = y at here ⊢
    cases here with
    | none => exact ih
    | some found => exact .some found

theorem any_eq {α β : Type} {R : α → β → Prop} {f : α → Bool} {g : β → Bool}
    (each : ∀ a b, R a b → g b = f a) {xs : List α} {ys : List β} (h : List.Forall₂ R xs ys) :
    ys.any g = xs.any f := by
  induction h with
  | nil => rfl
  | cons first _ ih => rw [List.any_cons, List.any_cons, each _ _ first, ih]

theorem getElem?_rel {α β : Type} {R : α → β → Prop} {xs : List α} {ys : List β}
    (h : List.Forall₂ R xs ys) (i : Nat) : Option.Rel R xs[i]? ys[i]? := by
  induction h generalizing i with
  | nil => exact .none
  | cons first _ ih => cases i with
    | zero => exact .some first
    | succ i => exact ih i

/-- Two terms have twins each. -/
def Pairs (ρ : Renaming) (st st' : Store) (p p' : TermId × TermId) : Prop :=
  ρ.Twins st st' p.1 p'.1 ∧ ρ.Twins st st' p.2 p'.2

theorem zip_rel {R S : TermId → TermId → Prop} {xs xs' ys ys' : List TermId}
    (left : List.Forall₂ R xs xs') (right : List.Forall₂ S ys ys') :
    List.Forall₂ (fun p p' => R p.1 p'.1 ∧ S p.2 p'.2) (xs.zip ys) (xs'.zip ys') := by
  induction left generalizing ys ys' with
  | nil => exact .nil
  | cons first _ ih => cases right with
    | nil => exact .nil
    | cons first' others => exact .cons ⟨first, first'⟩ (ih others)

/-- The variable of a twin is the one that is taken. -/
theorem Twins.var? (h : ρ.Twins st st' t t') : Option.Rel ρ.Takes (st.var? t) (st'.var? t') := by
  obtain ⟨x, x', left, right, layer⟩ := h.layer
  rw [Store.var?, Store.var?, left, right]
  cases layer with
  | var takes => exact .some takes
  | leaf | app => exact .none

/-- A term and its twin are applications together, of one operator to twins. -/
theorem Twins.app? (h : ρ.Twins st st' t t') :
    st.app? t = none ∧ st'.app? t' = none ∨ ∃ op args args' attrs,
      st.app? t = some (op, args, attrs) ∧ st'.app? t' = some (op, args', attrs) ∧
        List.Forall₂ (ρ.Twins st st') args args' := by
  obtain ⟨x, x', left, right, layer⟩ := h.layer
  rw [Store.app?, Store.app?, left, right]
  cases layer with
  | app operands => exact .inr ⟨_, _, _, _, rfl, rfl, operands⟩
  | var | leaf => exact .inl ⟨rfl, rfl⟩

/-- Both sides of a disequality have twins. -/
def Disequalities (ρ : Renaming) (st st' : Store) (d d' : Disequality) : Prop :=
  ρ.Pairs st st' (d.lhs, d.rhs) (d'.lhs, d'.rhs)

/-- Both terms of a site have twins. -/
def Sites (ρ : Renaming) (st st' : Store) (x x' : Site) : Prop :=
  ρ.Pairs st st' (x.matched, x.replacement) (x'.matched, x'.replacement)

/-- What substitutions carry is twins. -/
structure Carries (ρ : Renaming) (st st' : Store) (s s' : Subst) : Prop where
  size : s'.size = s.size
  bound : ∀ {v w}, ρ.Takes v w → Option.Rel (ρ.Twins st st') (s.get? v) (s'.get? w)
  constraints : List.Forall₂ (ρ.Disequalities st st') s.constraints s'.constraints
  sites : List.Forall₂ (ρ.Sites st st') s.sites s'.sites

/-- Twin substitutions, which are sound. -/
structure Substs (ρ : Renaming) (st st' : Store) (s s' : Subst) : Prop extends
    ρ.Carries st st' s s' where
  left : s.Sound st
  right : s'.Sound st'

theorem empty_substs (left : st.Valid) (right : st'.Valid) : ρ.Substs st st' .empty .empty where
  size := rfl
  bound _ := by
    rw [Subst.get?_empty, Subst.get?_empty]
    exact .none
  constraints := .nil
  sites := .nil
  left := .empty left
  right := .empty right

theorem Substs.grows (h : ρ.Substs st st' s s') (g : st.Grows st₁) (g' : st'.Grows st₁') :
    ρ.Substs st₁ st₁' s s' where
  size := h.size
  bound takes := rel_imp (h.bound takes) fun _ _ twins => twins.grows g g'
  constraints := h.constraints.imp fun _ _ d => ⟨d.1.grows g g', d.2.grows g g'⟩
  sites := h.sites.imp fun _ _ d => ⟨d.1.grows g g', d.2.grows g g'⟩
  left := h.left.grows g
  right := h.right.grows g'

/-! ## Following bindings -/

theorem Carries.derefWithin (h : ρ.Carries st st' s s') (twins : ρ.Twins st st' t t') (hops : Nat) :
    ρ.Twins st st' (s.derefWithin st hops t) (s'.derefWithin st' hops t') := by
  induction hops generalizing t t' with
  | zero => exact twins
  | succ hops ih =>
    have vars := twins.var?
    rw [Subst.derefWithin, Subst.derefWithin]
    generalize st.var? t = x at vars ⊢
    generalize st'.var? t' = x' at vars ⊢
    cases vars with
    | none => exact twins
    | some takes =>
      rename_i v w
      have bound := h.bound takes
      dsimp only
      generalize s.get? v = y at bound ⊢
      generalize s'.get? w = y' at bound ⊢
      cases bound with
      | none => exact twins
      | some twins => exact ih twins

theorem Carries.deref (h : ρ.Carries st st' s s') (twins : ρ.Twins st st' t t') :
    ρ.Twins st st' (s.deref st t) (s'.deref st' t') := by
  unfold Subst.deref
  rw [h.size]
  exact h.derefWithin twins _

/-! ## Variables in terms -/

/-- The first unbound variable is searched in step. -/
theorem Carries.firstUnboundWithin (h : ρ.Carries st st' s s') (twins : ρ.Twins st st' t t')
    (depth : Nat) : Option.Rel ρ.Takes (s.firstUnboundWithin st depth t)
      (s'.firstUnboundWithin st' depth t') := by
  induction depth generalizing t t' with
  | zero => exact .none
  | succ depth ih =>
    obtain ⟨x, x', left, right, layer⟩ := (h.deref twins).layer
    rw [Subst.firstUnboundWithin, Subst.firstUnboundWithin, left, right]
    cases layer with
    | var takes => exact .some takes
    | leaf => exact .none
    | app operands =>
      exact findSome?_rel (R := ρ.Twins st st') (fun _ _ => ih) operands

theorem Substs.firstUnbound (h : ρ.Substs st st' s s') (twins : ρ.Twins st st' t t') :
    Option.Rel ρ.Takes (s.firstUnbound st t) (s'.firstUnbound st' t') := by
  rw [← h.left.resolves.firstUnbound t _ (Nat.le_max_left _ (Subst.depthBound st')),
    ← h.right.resolves.firstUnbound t' _ (Nat.le_max_right (Subst.depthBound st) _)]
  exact h.toCarries.firstUnboundWithin twins _

/-- Occurrences are searched in step. -/
theorem Carries.occursWithin (h : ρ.Carries st st' s s') (takes : ρ.Takes v w)
    (twins : ρ.Twins st st' t t') (depth : Nat) :
    s'.occursWithin st' w depth t' = s.occursWithin st v depth t := by
  induction depth generalizing t t' with
  | zero => rfl
  | succ depth ih =>
    obtain ⟨x, x', left, right, layer⟩ := (h.deref twins).layer
    rw [Subst.occursWithin, Subst.occursWithin, left, right]
    cases layer with
    | var takes' => exact decide_eq_decide.mpr (takes'.eq_iff takes)
    | leaf => rfl
    | app operands =>
      dsimp only
      rw [List.any_reverse, List.any_reverse]
      exact any_eq (R := ρ.Twins st st') (fun _ _ => ih) operands

theorem Substs.occurs (h : ρ.Substs st st' s s') (takes : ρ.Takes v w)
    (twins : ρ.Twins st st' t t') : s'.occurs st' w t' = s.occurs st v t := by
  rw [← h.left.resolves.occurs v t _ (Nat.le_max_left _ (Subst.depthBound st')),
    ← h.right.resolves.occurs w t' _ (Nat.le_max_right (Subst.depthBound st) _)]
  exact h.toCarries.occursWithin takes twins _

/-! ## Reading -/

/-- Operands are read one after the other. -/
theorem mapOperands_made {read read' : TermId → Store → TermId × Store} {ts ts' : List TermId}
    (operands : List.Forall₂ (ρ.Twins st st') ts ts')
    (each : ∀ {q q' t t'}, st.Grows q → st'.Grows q' → ρ.Agrees q q' → ρ.Twins q q' t t' →
      ρ.Made q q' ρ.Twins (read t q) (read' t' q'))
    (g : st.Grows st₁) (g' : st'.Grows st₁') (h : ρ.Agrees st₁ st₁') :
    ρ.Made st₁ st₁' (fun q q' => List.Forall₂ (ρ.Twins q q')) (Subst.mapOperands read ts st₁)
      (Subst.mapOperands read' ts' st₁') := by
  induction operands generalizing st₁ st₁' with
  | nil => exact ⟨h, .refl st₁, .refl st₁', .nil⟩
  | cons first _ ih =>
    obtain ⟨agrees, left, right, here⟩ := each g g' h (first.grows g g')
    obtain ⟨agrees', left', right', rest⟩ := ih (g.trans left) (g'.trans right) agrees
    exact ⟨agrees', left.trans left', right.trans right', .cons (here.grows left' right') rest⟩

theorem reifyWithin_made (h : ρ.Agrees st st') (hs : ρ.Substs st st' s s')
    (twins : ρ.Twins st st' t t') (depth : Nat) :
    ρ.Made st st' ρ.Twins (s.reifyWithin depth t st) (s'.reifyWithin depth t' st') := by
  induction depth generalizing st st' t t' with
  | zero => exact ⟨h, .refl st, .refl st', twins⟩
  | succ depth ih =>
    have found := hs.toCarries.deref twins
    rw [Subst.reifyWithin, Subst.reifyWithin]
    dsimp only
    rcases found.app? with ⟨left, right⟩ | ⟨op, args, args', attrs, left, right, operands⟩
    · rw [left, right]
      exact ⟨h, .refl st, .refl st', found⟩
    · rw [left, right]
      obtain ⟨agrees, g, g', read⟩ := mapOperands_made operands
        (fun g g' h twins => ih h (hs.grows g g') twins) (.refl st) (.refl st') h
      dsimp only
      generalize Subst.mapOperands (s.reifyWithin depth) args st = r at agrees g read ⊢
      generalize Subst.mapOperands (s'.reifyWithin depth) args' st' = r' at agrees g' read ⊢
      have same := twins_eq_iff read (operands.imp fun _ _ twins => twins.grows g g')
      by_cases eq : r.1 = args
      · rw [if_pos eq, if_pos (same.mpr eq)]
        exact ⟨agrees, g, g', found.grows g g'⟩
      · rw [if_neg eq, if_neg fun eq' => eq (same.mp eq')]
        obtain ⟨agrees', made, made', twins⟩ := app_made agrees read op attrs
        exact ⟨agrees', g.trans made, g'.trans made', twins⟩

/-- Twins are read as twins. -/
theorem reify_made (h : ρ.Agrees st st') (hs : ρ.Substs st st' s s') (twins : ρ.Twins st st' t t') :
    ρ.Made st st' ρ.Twins (s.reify t st) (s'.reify t' st') := by
  rw [← hs.left.resolves.reify t _ twins.stored_left (Nat.le_max_left _ (Subst.depthBound st')),
    ← hs.right.resolves.reify t' _ twins.stored_right (Nat.le_max_right (Subst.depthBound st) _)]
  exact reifyWithin_made h hs twins _

end Renaming

end Regraft
