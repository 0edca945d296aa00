import Regraft.Match.Modulo
import Regraft.Proofs.Match.Chain
import Regraft.Proofs.Renaming.Unify

/-
  Chains of twins have twins for items, and spans over the same stretches (`flatten_chains`), so that the
  same operands are handed to the same slots, and the groups that are made of them are twins
  (`groups_made`).
-/

namespace Regraft

/-- A higher bound makes no difference to a chain. -/
theorem Subst.Sound.appendWithin_eq {op : String} {s : Subst} {st : Store} (hs : s.Sound st)
    {t : TermId} {n m : Nat} (hn : s.height st t < n) (hm : s.height st t < m) (c : Chain) :
    Chain.appendWithin op s st n c t = Chain.appendWithin op s st m c t := by
  induction n generalizing t m c with
  | zero => omega
  | succ n ih =>
    cases m with
    | zero => omega
    | succ m =>
      by_cases h : ∃ args attrs, st.term? (s.deref st t) = some (.app op args attrs)
      · obtain ⟨args, attrs, app⟩ := h
        have folded : args.foldl (Chain.appendWithin op s st n) c =
            args.foldl (Chain.appendWithin op s st m) c := by
          refine List.foldl_ext _ _ c fun c u mem => ?_
          have := hs.height_lt app mem
          exact ih (by omega) (by omega) c
        rw [Chain.appendWithin_app app, Chain.appendWithin_app app, folded]
      · simp only [not_exists] at h
        rw [Chain.appendWithin_other h, Chain.appendWithin_other h]

namespace Renaming

variable {ρ : Renaming} {st st' st₁ st₁' : Store} {s s' : Subst} {t t' a a' b b' : TermId}
  {c c' : Chain} {op : String}

/-- The same stretch of operands, and twins for the applications that cover it. -/
def Spans (ρ : Renaming) (st st' : Store) (x x' : Span) : Prop :=
  x.start = x'.start ∧ x.stop = x'.stop ∧ ρ.Twins st st' x.term x'.term

structure Chains (ρ : Renaming) (st st' : Store) (c c' : Chain) : Prop where
  items : List.Forall₂ (ρ.Twins st st') c.items c'.items
  spans : List.Forall₂ (ρ.Spans st st') c.spans c'.spans

theorem Chains.grows (h : ρ.Chains st st' c c') (g : st.Grows st₁) (g' : st'.Grows st₁') :
    ρ.Chains st₁ st₁' c c' where
  items := h.items.imp fun _ _ twins => twins.grows g g'
  spans := h.spans.imp fun _ _ span => ⟨span.1, span.2.1, span.2.2.grows g g'⟩

/-- A single item more. -/
theorem Chains.item (h : ρ.Chains st st' c c') (twins : ρ.Twins st st' t t') :
    ρ.Chains st st' { c with items := c.items ++ [t] } { c' with items := c'.items ++ [t'] } :=
  ⟨List.rel_append h.items (.cons twins .nil), h.spans⟩

theorem appendWithin_chains (hs : ρ.Substs st st' s s') (h : ρ.Chains st st' c c')
    (twins : ρ.Twins st st' t t') (depth : Nat) :
    ρ.Chains st st' (Chain.appendWithin op s st depth c t)
      (Chain.appendWithin op s' st' depth c' t') := by
  induction depth generalizing t t' c c' with
  | zero => exact h
  | succ depth ih =>
    have found := hs.toCarries.deref twins
    rw [Chain.appendWithin, Chain.appendWithin]
    dsimp only
    rcases found.app? with ⟨left, right⟩ | ⟨f, args, args', attrs, left, right, operands⟩
    · rw [left, right]
      exact h.item found
    · rw [left, right]
      dsimp only
      split
      · have folded : ρ.Chains st st' (args.foldl (Chain.appendWithin op s st depth) c)
            (args'.foldl (Chain.appendWithin op s' st' depth) c') := by
          refine List.rel_foldl (R := ρ.Twins st st') ?_ h operands
          intro c c' h t t' twins
          exact ih h twins
        refine ⟨folded.items, List.rel_append folded.spans (.cons ⟨?_, ?_, found⟩ .nil)⟩
        · exact h.items.length_eq
        · exact folded.items.length_eq
      · exact h.item found

/-- Chains of twins have twins for items and spans. -/
theorem flatten_chains (op : String) (hs : ρ.Substs st st' s s') (twins : ρ.Twins st st' t t') :
    ρ.Chains st st' (Chain.flatten op s st t) (Chain.flatten op s' st' t') := by
  have left : s.height st t < max (Subst.depthBound st) (Subst.depthBound st') :=
    Nat.lt_of_lt_of_le Subst.height_lt_depthBound (Nat.le_max_left ..)
  have right : s'.height st' t' < max (Subst.depthBound st) (Subst.depthBound st') :=
    Nat.lt_of_lt_of_le Subst.height_lt_depthBound (Nat.le_max_right ..)
  rw [Chain.flatten, Chain.flatten, hs.left.appendWithin_eq Subst.height_lt_depthBound left,
    hs.right.appendWithin_eq Subst.height_lt_depthBound right]
  exact appendWithin_chains hs ⟨.nil, .nil⟩ twins _

/-! ## Groups -/

theorem nest_made (op : String) {ts ts' : List TermId} (h : ρ.Agrees st st')
    (twins : ρ.Twins st st' t t') (rest : List.Forall₂ (ρ.Twins st st') ts ts') :
    ρ.Made st st' ρ.Twins (Chain.nest op t ts st) (Chain.nest op t' ts' st') := by
  induction ts generalizing ts' t t' st st' with
  | nil =>
    cases rest
    exact ⟨h, .refl st, .refl st', twins⟩
  | cons u us ih => cases rest with
    | cons first others =>
      obtain ⟨agrees, g, g', made⟩ := app_made h (.cons twins (.cons first .nil)) op .unspecified
      obtain ⟨agrees', later, later', nested⟩ :=
        ih agrees made (others.imp fun _ _ twins => twins.grows g g')
      exact ⟨agrees', g.trans later, g'.trans later', nested⟩

theorem find?_rel {α β : Type} {R : α → β → Prop} {f : α → Bool} {g : β → Bool}
    (each : ∀ a b, R a b → g b = f a) {xs : List α} {ys : List β} (h : List.Forall₂ R xs ys) :
    Option.Rel R (xs.find? f) (ys.find? g) := by
  induction h with
  | nil => exact .none
  | @cons a b _ _ first _ ih =>
    rw [List.find?_cons, List.find?_cons, each a b first]
    cases f a with
    | true => exact .some first
    | false => exact ih

/-- The items at some positions. -/
theorem picked_rel {R : TermId → TermId → Prop} {xs xs' : List TermId} (h : List.Forall₂ R xs xs')
    (positions : List Nat) :
    List.Forall₂ R (positions.filterMap (xs[·]?)) (positions.filterMap (xs'[·]?)) := by
  refine List.rel_filterMap (R := Eq) ?_ (List.forall₂_refl positions)
  rintro i _ rfl
  exact getElem?_rel h i

/-- The stretch that some positions are, and the application that covers it. -/
theorem covering_rel (h : List.Forall₂ (ρ.Spans st st') c.spans c'.spans)
    (stretch : Option (Nat × Nat)) : Option.Rel (ρ.Spans st st')
      (stretch.bind fun (start, stop) =>
        c.spans.find? fun span => span.start = start ∧ span.stop = stop)
      (stretch.bind fun (start, stop) =>
        c'.spans.find? fun span => span.start = start ∧ span.stop = stop) := by
  cases stretch with
  | none => exact .none
  | some stretch =>
    refine find?_rel (fun x x' span => ?_) h
    rw [span.1, span.2.1]

theorem group_made (op : String) (h : ρ.Agrees st st') (chains : ρ.Chains st st' c c')
    (positions : List Nat) :
    ρ.Made st st' (fun q q' => Option.Rel (ρ.Twins q q')) (c.group op positions st)
      (c'.group op positions st') := by
  have items := picked_rel chains.items positions
  rw [Chain.group, Chain.group]
  generalize positions.filterMap (c.items[·]?) = ts at items ⊢
  generalize positions.filterMap (c'.items[·]?) = ts' at items ⊢
  cases items with
  | nil => exact ⟨h, .refl st, .refl st', .none⟩
  | cons first others => cases others with
    | nil => exact ⟨h, .refl st, .refl st', .some first⟩
    | cons second others =>
      have covers := covering_rel chains.spans (Chain.consecutive positions)
      dsimp only
      generalize Option.bind (Chain.consecutive positions) _ = x at covers ⊢
      generalize Option.bind (Chain.consecutive positions) _ = x' at covers ⊢
      cases covers with
      | some span => exact ⟨h, .refl st, .refl st', .some span.2.2⟩
      | none =>
        obtain ⟨agrees, g, g', nested⟩ := nest_made op h first (.cons second others)
        exact ⟨agrees, g, g', .some nested⟩

/-- The groups that operands are handed out in. -/
theorem groups_made (h : ρ.Agrees st st') (chains : ρ.Chains st st' c c')
    (assignment slots : List Nat) :
    ρ.Made st st' (fun q q' => Option.Rel (List.Forall₂ (ρ.Twins q q')))
      (Search.groups op c assignment slots st) (Search.groups op c' assignment slots st') := by
  induction slots generalizing st st' with
  | nil => exact ⟨h, .refl st, .refl st', .some .nil⟩
  | cons slot rest ih =>
    obtain ⟨agrees, g, g', here⟩ := group_made op h chains (Search.members assignment slot)
    rw [Search.groups, Search.groups]
    generalize c.group op (Search.members assignment slot) st = r at agrees g here ⊢
    generalize c'.group op (Search.members assignment slot) st' = r' at agrees g' here ⊢
    obtain ⟨x, q⟩ := r
    obtain ⟨x', q'⟩ := r'
    dsimp only at here
    cases here with
    | none => exact ⟨agrees, g, g', .none⟩
    | some twins =>
      obtain ⟨agrees', later, later', others⟩ := ih agrees (chains.grows g g')
      dsimp only
      generalize Search.groups op c assignment rest q = r at agrees' later others ⊢
      generalize Search.groups op c' assignment rest q' = r' at agrees' later' others ⊢
      obtain ⟨x, q⟩ := r
      obtain ⟨x', q'⟩ := r'
      dsimp only at others
      cases others with
      | none => exact ⟨agrees', g.trans later, g'.trans later', .none⟩
      | some others =>
        exact ⟨agrees', g.trans later, g'.trans later', .some (.cons (twins.grows later later') others)⟩

/-- Every slot has a group. -/
theorem length_of_groups {assignment slots : List Nat} {ts : List TermId}
    (h : (Search.groups op c assignment slots st).1 = some ts) : ts.length = slots.length := by
  induction slots generalizing st ts with
  | nil =>
    cases h
    rfl
  | cons slot rest ih =>
    rw [Search.groups] at h
    generalize c.group op (Search.members assignment slot) st = r at h
    obtain ⟨x, q⟩ := r
    cases x with
    | none => cases h
    | some t =>
      dsimp only at h
      have later := @ih q
      generalize Search.groups op c assignment rest q = r at h later
      obtain ⟨x, q⟩ := r
      cases x with
      | none => cases h
      | some ts =>
        cases h
        rw [List.length_cons, List.length_cons, later rfl]

end Renaming

end Regraft
