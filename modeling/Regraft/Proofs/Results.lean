import Mathlib.Data.List.Forall2

/-
  Results that may not be there: steps that succeed, and lists whose entries all have a result. Such
  lists are related place by place.
-/

namespace Regraft

theorem exists_of_forall₂_right {α β : Type*} {R : α → β → Prop} {xs : List α} {ys : List β}
    (h : List.Forall₂ R xs ys) {y : β} (hy : y ∈ ys) : ∃ x ∈ xs, R x y := by
  induction h with
  | nil => cases hy
  | cons hxy _ ih => cases hy with
    | head => exact ⟨_, .head _, hxy⟩
    | tail _ hy =>
      obtain ⟨x, hx, hxy⟩ := ih hy
      exact ⟨x, .tail _ hx, hxy⟩

theorem forall₂_imp_mem {α β : Type*} {R S : α → β → Prop} {xs : List α} {ys : List β}
    (h : List.Forall₂ R xs ys) (hS : ∀ x ∈ xs, ∀ y ∈ ys, R x y → S x y) : List.Forall₂ S xs ys := by
  rw [List.forall₂_iff_zip] at h ⊢
  refine ⟨h.1, fun hp => ?_⟩
  exact hS _ (List.of_mem_zip hp).1 _ (List.of_mem_zip hp).2 (h.2 hp)

theorem exists_of_forall₂_concat {α β : Type*} {R : α → β → Prop} {xs : List α} {x : α} {zs : List β}
    (h : List.Forall₂ R (xs ++ [x]) zs) : ∃ ys y, zs = ys ++ [y] ∧ List.Forall₂ R xs ys ∧ R x y := by
  induction xs generalizing zs with
  | nil =>
    obtain ⟨y, ys, hxy, rest, rfl⟩ := List.forall₂_cons_left_iff.mp h
    obtain rfl := List.forall₂_nil_left_iff.mp rest
    exact ⟨[], y, rfl, .nil, hxy⟩
  | cons w xs ih =>
    obtain ⟨z, zs, hwz, rest, rfl⟩ := List.forall₂_cons_left_iff.mp h
    obtain ⟨ys, y, rfl, each, hxy⟩ := ih rest
    exact ⟨z :: ys, y, rfl, .cons hwz each, hxy⟩

/-- A list of optional results, all of which are there. -/
theorem mapM_eq_some_iff {α β : Type*} {f : α → Option β} {ts : List α} {xs : List β} :
    ts.mapM f = some xs ↔ List.Forall₂ (fun t x => f t = some x) ts xs := by
  induction ts generalizing xs with
  | nil =>
    rw [List.mapM_nil, List.forall₂_nil_left_iff]
    exact ⟨fun h => (Option.some.inj h).symm, fun h => h ▸ rfl⟩
  | cons t rest ih =>
    rw [List.mapM_cons, List.forall₂_cons_left_iff]
    simp only [Option.bind_eq_bind, Option.bind_eq_some_iff, ih]
    constructor
    · rintro ⟨x, hx, xs, hxs, h⟩
      cases h
      exact ⟨x, xs, hx, hxs, rfl⟩
    · rintro ⟨x, xs, hx, hxs, rfl⟩
      exact ⟨x, hx, xs, hxs, rfl⟩

theorem mapM_eq_of_forall₂ {α β γ : Type*} {f : α → Option γ} {g : β → Option γ} {ts : List α}
    {us : List β} (h : List.Forall₂ (fun t u => f t = g u) ts us) : ts.mapM f = us.mapM g := by
  induction h with
  | nil => rfl
  | cons first _ ih => rw [List.mapM_cons, List.mapM_cons, first, ih]

theorem mapM_congr {α β : Type*} {f g : α → Option β} {ts : List α} (h : ∀ t ∈ ts, f t = g t) :
    ts.mapM f = ts.mapM g := mapM_eq_of_forall₂ (List.forall₂_same.mpr h)

theorem exists_mapM {α β : Type*} {f : α → Option β} {ts : List α} (h : ∀ t ∈ ts, ∃ x, f t = some x) :
    ∃ xs, ts.mapM f = some xs := by
  induction ts with
  | nil => exact ⟨[], rfl⟩
  | cons t rest ih =>
    rw [List.forall_mem_cons] at h
    obtain ⟨x, hx⟩ := h.1
    obtain ⟨xs, hxs⟩ := ih h.2
    exact ⟨x :: xs, mapM_eq_some_iff.mpr (.cons hx (mapM_eq_some_iff.mp hxs))⟩

/-- A step that succeeds, and what comes behind it. -/
theorem bind_eq_ok {ε α β : Type} {x : Except ε α} {f : α → Except ε β} {b : β}
    (h : (x >>= f) = .ok b) : ∃ a, x = .ok a ∧ f a = .ok b := by
  cases x with
  | error e => cases h
  | ok a => exact ⟨a, rfl, h⟩

theorem exists_eq_ok {ε α : Type} {x : Except ε α} (h : x.toOption.isSome = true) :
    ∃ a, x = .ok a := by
  cases x with
  | error e => cases h
  | ok a => exact ⟨a, rfl⟩

theorem mapM_eq_ok_iff {ε α β : Type} {f : α → Except ε β} {xs : List α} {ys : List β} :
    xs.mapM f = .ok ys ↔ List.Forall₂ (fun x y => f x = .ok y) xs ys := by
  induction xs generalizing ys with
  | nil =>
    rw [List.mapM_nil, List.forall₂_nil_left_iff]
    exact ⟨fun h => (Except.ok.inj h).symm, fun h => h ▸ rfl⟩
  | cons x rest ih =>
    rw [List.mapM_cons, List.forall₂_cons_left_iff]
    constructor
    · intro h
      obtain ⟨y, first, h⟩ := bind_eq_ok h
      obtain ⟨ys, later, h⟩ := bind_eq_ok h
      cases h
      exact ⟨y, ys, first, ih.mp later, rfl⟩
    · rintro ⟨y, ys, first, later, rfl⟩
      rw [first, ih.mpr later]
      rfl

theorem toOption_eq_some_iff {ε α : Type} {x : Except ε α} {a : α} :
    x.toOption = some a ↔ x = .ok a := by
  cases x with
  | error e => exact ⟨nofun, nofun⟩
  | ok b => exact ⟨fun h => congrArg _ (Option.some.inj h), fun h => h ▸ rfl⟩

end Regraft
