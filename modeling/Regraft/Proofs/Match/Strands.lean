import Regraft.Proofs.Match.Groups
import Regraft.Proofs.Match.Ways

/-
  Flattened chains seen as trees. A flattened term has the items and the stretches of its tree, one for
  one and in one order (`Chain.flatten_shows`), so that the term which is taken for a group of its items
  has just the tree that is chosen among trees (`Chain.group_shows`).
-/

namespace Regraft

open Regraft.Tree (Strand)

namespace Chain

variable {op : String} {s : Subst} {st st' : Store} {t : TermId}

/-- A chain of terms has the items and the stretches of a chain of trees. -/
structure Shows (s : Subst) (st : Store) (c : Chain) (d : Strand) : Prop where
  items : c.items.map (s.tree st) = d.items
  stored : ∀ u ∈ c.items, st.Stored u
  spans : c.spans.map (fun span => (span.start, span.stop, s.tree st span.term)) = d.spans
  storedSpans : ∀ span ∈ c.spans, st.Stored span.term

variable {c : Chain} {d : Strand}

theorem Shows.length (h : Shows s st c d) : c.items.length = d.items.length := by
  rw [← h.items, List.length_map]

/-- A single item more. -/
theorem Shows.item (h : Shows s st c d) (ht : st.Stored t) :
    Shows s st { c with items := c.items ++ [t] } { d with items := d.items ++ [s.tree st t] } where
  items := by rw [List.map_append, h.items, List.map_singleton]
  stored := by
    intro u hu
    rcases List.mem_append.mp hu with hu | hu
    · exact h.stored u hu
    · rwa [List.mem_singleton.mp hu]
  spans := h.spans
  storedSpans := h.storedSpans

/-- A stretch more. -/
theorem Shows.span (h : Shows s st c d) (ht : st.Stored t) (start stop : Nat) :
    Shows s st { c with spans := c.spans ++ [⟨start, stop, t⟩] }
      { d with spans := d.spans ++ [(start, stop, s.tree st t)] } where
  items := h.items
  stored := h.stored
  spans := by rw [List.map_append, h.spans, List.map_singleton]
  storedSpans := by
    intro span mem
    rcases List.mem_append.mp mem with mem | mem
    · exact h.storedSpans span mem
    · rwa [List.mem_singleton.mp mem]

theorem Shows.foldl {append : Chain → TermId → Chain} {args : List TermId}
    (each : ∀ u ∈ args, ∀ {c d}, Shows s st c d →
      Shows s st (append c u) (Strand.append op d (s.tree st u)))
    (h : Shows s st c d) :
    Shows s st (args.foldl append c) (Strand.appendAll op d (args.map (s.tree st))) := by
  induction args generalizing c d with
  | nil =>
    rw [List.map_nil, Strand.appendAll]
    exact h
  | cons u rest ih =>
    rw [List.forall_mem_cons] at each
    rw [List.map_cons, Strand.appendAll]
    exact ih each.2 (each.1 h)

theorem appendWithin_shows (hs : s.Sound st) {n : Nat} (ht : st.Stored t)
    (hn : (s.tree st t).depth < n) (h : Shows s st c d) :
    Shows s st (appendWithin op s st n c t) (Strand.append op d (s.tree st t)) := by
  induction n generalizing t c d with
  | zero => omega
  | succ n ih =>
    have hu := hs.stored_deref ht
    by_cases isApp : (s.tree st t).IsApp op
    · obtain ⟨args, attrs, app⟩ := (isApp_tree_iff hs ht).mp isApp
      have tree := hs.tree_of_app app
      have operands : ∀ u ∈ args, ∀ {c d}, Shows s st c d →
          Shows s st (appendWithin op s st n c u) (Strand.append op d (s.tree st u)) := by
        intro u mem c d h
        refine ih (hs.valid.stored app mem) ?_ h
        have lt : (s.tree st u).depth < (Tree.app op (args.map (s.tree st)) attrs).depth :=
          Tree.depth_lt (List.mem_map_of_mem mem)
        rw [← tree] at lt
        omega
      have later := h.foldl operands
      have span := later.span hu c.items.length (args.foldl (appendWithin op s st n) c).items.length
      rw [hs.tree_deref, tree, later.length] at span
      rw [appendWithin_app app, tree, Strand.append, if_pos rfl, ← h.length, ← tree]
      rw [← tree] at span
      simp only
      rw [later.length]
      exact span
    · have other := mt (isApp_tree_iff hs ht).mpr isApp
      simp only [not_exists] at other
      rw [appendWithin_other other, Strand.append_of_not_isApp d isApp, ← hs.tree_deref t]
      exact h.item hu

theorem flatten_shows (hs : s.Sound st) (ht : st.Stored t) :
    Shows s st (flatten op s st t) (Strand.of op (s.tree st t)) :=
  appendWithin_shows hs ht (hs.depth_tree_lt t) ⟨rfl, nofun, rfl, nofun⟩

theorem Shows.grows (h : Shows s st c d) (hs : s.Sound st) (g : st.Grows st') :
    Shows s st' c d where
  items := by
    rw [← h.items]
    exact List.map_congr_left fun u hu => hs.tree_grows g (h.stored u hu)
  stored u hu := g.stored (h.stored u hu)
  spans := by
    rw [← h.spans]
    exact List.map_congr_left fun span mem => by rw [hs.tree_grows g (h.storedSpans span mem)]
  storedSpans span mem := g.stored (h.storedSpans span mem)

/-! ## Groups -/

/-- What is made for a group: a stored term, which has a given tree. -/
structure Stands (s : Subst) (st : Store) (tree : Tree) (r : TermId × Store) : Prop where
  grows : st.Grows r.2
  stored : r.2.Stored r.1
  tree_eq : s.tree r.2 r.1 = tree

theorem nest_stands (hs : s.Sound st) (ht : st.Stored t) {us : List TermId}
    (stored : ∀ u ∈ us, st.Stored u) : Stands s st
      ((us.map (s.tree st)).foldl (fun t u => .app op [t, u] .unspecified) (s.tree st t))
      (nest op t us st) := by
  induction us generalizing t st with
  | nil => exact ⟨.refl st, ht, rfl⟩
  | cons u rest ih =>
    rw [List.forall_mem_cons] at stored
    have both : ∀ w ∈ [t, u], st.Stored w := by
      simp only [List.mem_cons, List.not_mem_nil, or_false, forall_eq_or_imp, forall_eq]
      exact ⟨ht, stored.1⟩
    have g : st.Grows (st.app op [t, u] .unspecified).2 := Store.app_grows both
    have tree : s.tree (st.app op [t, u] .unspecified).2 (st.app op [t, u] .unspecified).1 =
        .app op [s.tree st t, s.tree st u] .unspecified := by
      rw [(hs.grows g).tree_app (Store.term?_app ..), List.map_cons, List.map_singleton,
        hs.tree_grows g ht, hs.tree_grows g stored.1]
    have same : rest.map (s.tree (st.app op [t, u] .unspecified).2) = rest.map (s.tree st) :=
      List.map_congr_left fun w hw => hs.tree_grows g (stored.2 w hw)
    have made := ih (hs.grows g) (Store.stored_app op [t, u] .unspecified st)
      fun w hw => g.stored (stored.2 w hw)
    rw [tree, same] at made
    exact ⟨g.trans made.grows, made.stored, made.tree_eq⟩

/-- The term for a group of items has the tree that is chosen among trees. -/
theorem group_shows (hs : s.Sound st) (h : Shows s st c d) {positions : List Nat}
    (made : c.group op positions st = (some t, st')) :
    st.Grows st' ∧ st'.Stored t ∧ d.group op positions = some (s.tree st' t) := by
  have read : (positions.filterMap (c.items[·]?)).map (s.tree st) =
      positions.filterMap (d.items[·]?) := by rw [filterMap_map, h.items]
  have stored : ∀ u ∈ positions.filterMap (c.items[·]?), st.Stored u := by
    intro u hu
    obtain ⟨i, -, hi⟩ := List.mem_filterMap.mp hu
    exact h.stored u (List.mem_of_getElem? hi)
  have found : ∀ start stop,
      d.spans.find? (fun span => span.1 = start ∧ span.2.1 = stop) =
        (c.spans.find? fun span => span.start = start ∧ span.stop = stop).map
          fun span => (span.start, span.stop, s.tree st span.term) := by
    intro start stop
    rw [← h.spans, List.find?_map]
    rfl
  unfold group at made
  unfold Strand.group
  rw [← read]
  generalize positions.filterMap (c.items[·]?) = us at made stored
  match us with
  | [] => cases made
  | [u] =>
    cases made
    exact ⟨.refl st, stored t (.head _), rfl⟩
  | u :: w :: rest =>
    simp only [List.map_cons, found]
    simp only at made
    cases hc : consecutive positions with
    | none =>
      rw [hc] at made
      cases made
      have made : Stands s st _ (nest op u (w :: rest) st) :=
        nest_stands hs (stored u (.head _)) fun x hx => stored x (.tail _ hx)
      exact ⟨made.grows, made.stored, congrArg some made.tree_eq.symm⟩
    | some range =>
      obtain ⟨start, stop⟩ := range
      rw [hc] at made
      simp only [Option.bind_some] at made ⊢
      cases hf : c.spans.find? fun span => span.start = start ∧ span.stop = stop with
      | none =>
        rw [hf] at made
        cases made
        have made : Stands s st _ (nest op u (w :: rest) st) :=
          nest_stands hs (stored u (.head _)) fun x hx => stored x (.tail _ hx)
        exact ⟨made.grows, made.stored, congrArg some made.tree_eq.symm⟩
      | some span =>
        rw [hf] at made
        cases made
        exact ⟨.refl st, h.storedSpans span (List.mem_of_find?_eq_some hf), rfl⟩

end Chain

/-- The terms that are made for slots have the trees of the groups. -/
theorem Search.groups_show {op : String} {s : Subst} {st st' : Store} {long : Chain} {d : Strand}
    (hs : s.Sound st) (h : long.Shows s st d) {assignment slots : List Nat} {ts : List TermId}
    (made : groups op long assignment slots st = (some ts, st')) :
    st.Grows st' ∧ List.Forall₂ (fun slot t => st'.Stored t ∧
      d.group op (members assignment slot) = some (s.tree st' t)) slots ts := by
  induction slots generalizing st ts with
  | nil =>
    cases made
    exact ⟨.refl _, .nil⟩
  | cons slot rest ih =>
    rw [groups] at made
    split at made
    · cases made
    · rename_i t st₁ first
      split at made
      · cases made
      · rename_i us st₂ later
        cases made
        obtain ⟨g, stored, tree⟩ := Chain.group_shows hs h first
        obtain ⟨g', others⟩ := ih (hs.grows g) (h.grows hs g) later
        refine ⟨g.trans g', .cons ⟨g'.stored stored, ?_⟩ others⟩
        rw [(hs.grows g).tree_grows g' stored]
        exact tree

end Regraft
