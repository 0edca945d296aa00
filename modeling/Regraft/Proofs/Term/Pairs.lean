import Regraft.Proofs.Results
import Regraft.Proofs.Term.Constant
import Regraft.Session.Facts
import Mathlib.Data.List.Perm.Basic

/-
  Pairing the operands of two applications: place by place, or in any order if the operator commutes.
-/

namespace Regraft

/-- An order of operands that the facts allow. -/
def Facts.Arranges (F : Facts) {α : Type*} (op : String) (xs zs : List α) : Prop :=
  xs = zs ∨ F.isCommutative op = true ∧ xs.Perm zs

/-- Operands pair up, in an order that the facts allow. -/
def Facts.Pairs (F : Facts) {α β : Type*} (R : α → β → Prop) (op : String) (xs : List α)
    (ys : List β) : Prop :=
  ∃ zs, F.Arranges op xs zs ∧ List.Forall₂ R zs ys

/-- Chains of the operator may be flattened and their operands taken in any order. -/
def Facts.isChain (F : Facts) (op : String) : Bool := F.isCommutative op && F.isAssociative op

namespace Facts

variable {F : Facts} {α β γ δ : Type*} {op : String}

theorem commutative_of_isChain (h : F.isChain op = true) : F.isCommutative op = true :=
  (Bool.and_eq_true_iff.mp h).1

namespace Arranges

variable {xs ys zs : List α}

theorem perm (h : F.Arranges op xs ys) : xs.Perm ys := by
  rcases h with rfl | ⟨_, h⟩
  · exact .refl _
  · exact h

theorem symm (h : F.Arranges op xs ys) : F.Arranges op ys xs := by
  rcases h with rfl | ⟨hc, h⟩
  · exact .inl rfl
  · exact .inr ⟨hc, h.symm⟩

theorem trans (h : F.Arranges op xs ys) (h' : F.Arranges op ys zs) : F.Arranges op xs zs := by
  rcases h with rfl | ⟨hc, h⟩
  · exact h'
  · exact .inr ⟨hc, h.trans h'.perm⟩

theorem map (f : α → β) (h : F.Arranges op xs ys) : F.Arranges op (xs.map f) (ys.map f) := by
  rcases h with rfl | ⟨hc, h⟩
  · exact .inl rfl
  · exact .inr ⟨hc, h.map f⟩

/-- Related operands can be brought into the same order. -/
theorem forall₂ {R : α → β → Prop} {us : List β} (h : F.Arranges op xs ys)
    (hr : List.Forall₂ R ys us) : ∃ vs, List.Forall₂ R xs vs ∧ F.Arranges op vs us := by
  rcases h with rfl | ⟨hc, h⟩
  · exact ⟨us, hr, .inl rfl⟩
  · obtain ⟨vs, hv, hp⟩ := List.perm_comp_forall₂ h hr
    exact ⟨vs, hv, .inr ⟨hc, hp⟩⟩

end Arranges

namespace Pairs

variable {R : α → β → Prop} {S : β → γ → Prop} {xs : List α} {ys : List β} {zs : List γ}

theorem of_forall₂ (h : List.Forall₂ R xs ys) : F.Pairs R op xs ys := ⟨xs, .inl rfl, h⟩

theorem of_arranges {us : List α} (h : F.Arranges op xs us) (h' : F.Pairs R op us ys) :
    F.Pairs R op xs ys := by
  obtain ⟨vs, hv, hr⟩ := h'
  exact ⟨vs, h.trans hv, hr⟩

theorem imp {T : α → β → Prop} (hT : ∀ a b, R a b → T a b) (h : F.Pairs R op xs ys) :
    F.Pairs T op xs ys := by
  obtain ⟨us, hu, hr⟩ := h
  exact ⟨us, hu, hr.imp hT⟩

theorem length_eq (h : F.Pairs R op xs ys) : xs.length = ys.length := by
  obtain ⟨us, hu, hr⟩ := h
  rw [hu.perm.length_eq, hr.length_eq]

theorem symm {T : β → α → Prop} (hT : ∀ a b, R a b → T b a) (h : F.Pairs R op xs ys) :
    F.Pairs T op ys xs := by
  obtain ⟨us, hu, hr⟩ := h
  obtain ⟨vs, hv, ha⟩ := hu.forall₂ hr
  exact ⟨vs, ha.symm, List.Forall₂.flip (hv.imp fun a b h => hT a b h)⟩

theorem trans {T : α → γ → Prop} (hT : ∀ a b c, R a b → S b c → T a c)
    (h : F.Pairs R op xs ys) (h' : F.Pairs S op ys zs) : F.Pairs T op xs zs := by
  obtain ⟨us, hu, hr⟩ := h
  obtain ⟨vs, hv, hs⟩ := h'
  obtain ⟨ws, hw, ha⟩ := hv.symm.forall₂ (R := flip R) (List.Forall₂.flip hr)
  exact ⟨ws, hu.trans ha.symm, forall₂_trans hT (List.Forall₂.flip hw) hs⟩

theorem arrange {us : List β} (h : F.Pairs R op xs ys) (h' : F.Arranges op ys us) :
    F.Pairs R op xs us := by
  obtain ⟨as, ha, hr⟩ := h
  obtain ⟨bs, hb, hp⟩ := h'.symm.forall₂ (R := flip R) (List.Forall₂.flip hr)
  exact ⟨bs, ha.trans hp.symm, List.Forall₂.flip hb⟩

theorem map {T : γ → δ → Prop} {f : α → γ} {g : β → δ}
    (h : F.Pairs (fun a b => T (f a) (g b)) op xs ys) :
    F.Pairs T op (xs.map f) (ys.map g) := by
  obtain ⟨us, hu, hr⟩ := h
  refine ⟨us.map f, hu.map f, ?_⟩
  rw [List.forall₂_map_left_iff, List.forall₂_map_right_iff]
  exact hr

theorem single {a : α} {b : β} (h : F.Pairs R op [a] [b]) : R a b := by
  obtain ⟨us, hu, hr⟩ := h
  rw [← List.singleton_perm.mp hu.perm] at hr
  exact (List.forall₂_cons.mp hr).1

theorem imp_mem {T : α → β → Prop} (hT : ∀ a ∈ xs, ∀ b ∈ ys, R a b → T a b)
    (h : F.Pairs R op xs ys) : F.Pairs T op xs ys := by
  obtain ⟨us, hu, hr⟩ := h
  exact ⟨us, hu, forall₂_imp_mem hr fun a ha b hb => hT a (hu.perm.mem_iff.mpr ha) b hb⟩

/-- Operands pair up when their images do. -/
theorem of_map {T : γ → δ → Prop} {f : α → γ} {g : β → δ} (h : F.Pairs T op (xs.map f) (ys.map g)) :
    F.Pairs (fun a b => T (f a) (g b)) op xs ys := by
  obtain ⟨us, hu, hr⟩ := h
  have graph : List.Forall₂ (fun c a => f a = c) (xs.map f) xs :=
    List.forall₂_map_left_iff.mpr (List.forall₂_same.mpr fun _ _ => rfl)
  obtain ⟨vs, hv, ha⟩ := hu.symm.forall₂ graph
  refine ⟨vs, ha.symm, ?_⟩
  exact forall₂_trans (fun a c b eq h => eq ▸ h) (List.Forall₂.flip hv)
    (List.forall₂_map_right_iff.mp hr)

theorem append {us : List α} {vs : List β} (h : F.Pairs R op xs ys) (h' : F.Pairs R op us vs) :
    F.Pairs R op (xs ++ us) (ys ++ vs) := by
  obtain ⟨as, ha, hr⟩ := h
  obtain ⟨bs, hb, hr'⟩ := h'
  refine ⟨as ++ bs, ?_, List.rel_append hr hr'⟩
  rcases ha with rfl | ⟨hc, ha⟩
  · rcases hb with rfl | ⟨hc, hb⟩
    · exact .inl rfl
    · exact .inr ⟨hc, hb.append_left xs⟩
  · exact .inr ⟨hc, ha.append hb.perm⟩

/-- Operands that pair up may be replaced by lists that pair up. -/
theorem flatMap {T : γ → δ → Prop} {f : α → List γ} {g : β → List δ}
    (h : F.Pairs (fun a b => F.Pairs T op (f a) (g b)) op xs ys) :
    F.Pairs T op (xs.flatMap f) (ys.flatMap g) := by
  obtain ⟨us, hu, hr⟩ := h
  have inOrder : F.Pairs T op (us.flatMap f) (ys.flatMap g) := by
    clear hu
    induction hr with
    | nil => exact of_forall₂ .nil
    | cons h _ ih =>
      rw [List.flatMap_cons, List.flatMap_cons]
      exact h.append ih
  rcases hu with rfl | ⟨hc, hu⟩
  · exact inOrder
  · exact of_arranges (.inr ⟨hc, hu.flatMap_right f⟩) inOrder

/-- Something that one operand has, the operand that it is paired with has. -/
theorem exists_mem {p : α → Prop} {q : β → Prop} (hpq : ∀ a b, R a b → p a → q b)
    (h : F.Pairs R op xs ys) (hp : ∃ a ∈ xs, p a) : ∃ b ∈ ys, q b := by
  obtain ⟨us, hu, hr⟩ := h
  obtain ⟨a, ha, hp⟩ := hp
  have ha := hu.perm.mem_iff.mp ha
  clear hu
  induction hr with
  | nil => cases ha
  | cons hab _ ih => cases ha with
    | head => exact ⟨_, .head _, hpq _ _ hab hp⟩
    | tail _ ha =>
      obtain ⟨b, hb, hq⟩ := ih ha
      exact ⟨b, .tail _ hb, hq⟩

end Pairs

end Facts

end Regraft
