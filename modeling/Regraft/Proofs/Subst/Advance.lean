import Regraft.Proofs.Subst.Reify
import Regraft.Proofs.Term.Alike

/-
  How substitutions and stores go on together. Along a search the store grows, bindings are kept, and
  terms get no labels outside a vocabulary (`Subst.Advance`). The trees of stored terms then change by
  a substitution alone (`Advance.tree_eq`), so that trees that are alike stay alike.
-/

namespace Regraft

/-- Labels that terms may have: constants among them fill their shapes, and with an application of a
    chain operator comes the plain application to two operands, of which new groups are made. -/
structure Vocabulary (F : Facts) where
  has : Tree.Label → Prop
  fills : ∀ c, has (.leaf (.const c)) → c.Fills
  nests : ∀ op n attrs, has (.node op n attrs) → F.isChain op = true →
    has (.node op 2 .unspecified)

/-- Leaves of a vocabulary that match by value are the same. -/
theorem Vocabulary.same_of_valueEq {F : Facts} (V : Vocabulary F) {l m : Leaf}
    (hl : V.has (.leaf l)) (hm : V.has (.leaf m)) (h : l.valueEq m = true) : l.Same m :=
  Leaf.same_of_valueEq (fun c eq => V.fills c (eq ▸ hl)) (fun c eq => V.fills c (eq ▸ hm)) h

namespace Subst

/-- From one store and substitution to a later store and substitution. -/
structure Advance (has : Tree.Label → Prop) (st : Store) (s : Subst) (st' : Store) (s' : Subst) :
    Prop where
  grows : st.Grows st'
  sound : s'.Sound st'
  kept : s.Extends s'
  labels : ∀ t, st.Stored t → (s.tree st t).Over has → (s'.tree st' t).Over has
  /-- No variable is bound outside the vocabulary if none was before. -/
  images : (∀ v, (s.image st v).Over has) → ∀ v, (s'.image st' v).Over has

namespace Advance

variable {has : Tree.Label → Prop} {st st' st'' : Store} {s s' s'' : Subst} {t u : TermId}

theorem of_grows (hs : s.Sound st) (g : st.Grows st') : Advance has st s st' s where
  grows := g
  sound := hs.grows g
  kept := .refl s
  labels t ht h := by rwa [hs.tree_grows g ht]
  images h v := by
    refine over_image fun t hv => ?_
    rw [hs.tree_grows g (hs.stored v t hv), ← image_of_bound hv]
    exact h v

theorem refl (hs : s.Sound st) : Advance has st s st s := of_grows hs (.refl st)

theorem trans (h : Advance has st s st' s') (h' : Advance has st' s' st'' s'') :
    Advance has st s st'' s'' where
  grows := h.grows.trans h'.grows
  sound := h'.sound
  kept := h.kept.trans h'.kept
  labels t ht hv := h'.labels t (h.grows.stored ht) (h.labels t ht hv)
  images ho := h'.images (h.images ho)

/-- Only the bindings of the later substitution count. -/
theorem congr {r : Subst} (h : Advance has st s st' s') (hr : s'.bindings = r.bindings) :
    Advance has st s st' r where
  grows := h.grows
  sound := h.sound.congr hr
  kept := h.kept.trans (extends_congr hr)
  labels t ht hv := by
    rw [h.sound.tree_congr hr]
    exact h.labels t ht hv
  images ho v := by
    refine over_image fun t hv => ?_
    rw [h.sound.tree_congr hr, ← image_of_bound (extends_congr hr.symm v t hv)]
    exact h.images ho v

/-- The later tree of a term is the earlier one with the later images put in. -/
theorem tree_eq (h : Advance has st s st' s') (hs : s.Sound st) (ht : st.Stored t) :
    s'.tree st' t = (s.tree st t).subst (s'.image st') := by
  rw [h.kept.tree_eq (hs.grows h.grows) h.sound, hs.tree_grows h.grows ht]

/-- A ground term stays as it is. -/
theorem tree_of_ground (h : Advance has st s st' s') (hs : s.Sound st) (ht : st.Stored t)
    (ground : (s.tree st t).Ground) : s'.tree st' t = s.tree st t := by
  rw [h.tree_eq hs ht, ground.subst]

/-- Terms of one tree keep one tree. -/
theorem tree_congr (h : Advance has st s st' s') (hs : s.Sound st) (ht : st.Stored t)
    (hu : st.Stored u) (eq : s.tree st t = s.tree st u) : s'.tree st' t = s'.tree st' u := by
  rw [h.tree_eq hs ht, h.tree_eq hs hu, eq]

theorem tree_deref (h : Advance has st s st' s') (hs : s.Sound st) (ht : st.Stored t) :
    s'.tree st' (s.deref st t) = s'.tree st' t :=
  h.tree_congr hs (hs.stored_deref ht) ht (hs.tree_deref t)

/-- Terms that are alike stay alike. -/
theorem alike {F : Facts} (h : Advance has st s st' s') (hs : s.Sound st) (ht : st.Stored t)
    (hu : st.Stored u) (ha : Tree.Alike F (s.tree st t) (s.tree st u)) :
    Tree.Alike F (s'.tree st' t) (s'.tree st' u) := by
  rw [h.tree_eq hs ht, h.tree_eq hs hu]
  exact ha.subst _

/-- Binding a variable that does not occur in the bound term. -/
theorem bind {v : UInt32} (hs : s.Sound st) (ht : st.Stored t) (hv : s.get? v = none)
    (free : ¬ (s.tree st t).HasVar v) (labels : (s.tree st t).Over has) :
    Advance has st s st (s.bind v t) := by
  have kept : ∀ u, (s.tree st u).Over has → ((s.bind v t).tree st u).Over has := by
    intro u h
    rw [(extends_bind hv).tree_eq hs (hs.bind ht hv free)]
    refine Tree.over_subst h fun w hw => ?_
    rw [hs.image_bind ht hv free (hs.get?_of_hasVar hw)]
    split
    · exact labels
    · exact .var w
  refine ⟨.refl st, hs.bind ht hv free, extends_bind hv, fun u _ => kept u, fun h w => ?_⟩
  refine over_image fun u hw => ?_
  rw [get?_bind] at hw
  split at hw
  · cases hw
    exact kept t labels
  · refine kept u ?_
    rw [← image_of_bound hw]
    exact h w

end Advance

end Subst

end Regraft
