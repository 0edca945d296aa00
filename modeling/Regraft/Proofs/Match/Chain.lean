import Regraft.Match.Chain
import Regraft.Proofs.Subst.Advance

/-
  Flattened chains. The items of a flattened term have the trees that its tree has as a chain, and a
  span is an application whose own chain is the stretch of items that it covers (`Chain.Of`). A group
  of items is a term whose chain is just these items (`group_spec`), whether it is one item, a span
  or made anew.
-/

namespace Regraft

/-! ## Positions -/

theorem le_last_of_ascending {positions : List Nat} {first last : Nat}
    (h : positions.Pairwise (· < ·)) (hf : positions.head? = some first)
    (hl : positions.getLast? = some last) : first + positions.length ≤ last + 1 := by
  induction positions generalizing first with
  | nil => cases hf
  | cons p rest ih =>
    cases hf
    cases rest with
    | nil =>
      cases hl
      exact Nat.le_refl _
    | cons q rest =>
      rw [List.getLast?_cons_cons] at hl
      obtain ⟨before, h⟩ := List.pairwise_cons.mp h
      have := ih h rfl hl
      have := before q (List.mem_cons_self ..)
      rw [List.length_cons]
      omega

/-- Ascending positions that leave no gap are a range. -/
theorem eq_range'_of_ascending {positions : List Nat} {first last : Nat}
    (h : positions.Pairwise (· < ·)) (hf : positions.head? = some first)
    (hl : positions.getLast? = some last) (gapless : last + 1 = first + positions.length) :
    positions = List.range' first positions.length := by
  induction positions generalizing first with
  | nil => rfl
  | cons p rest ih =>
    cases hf
    cases rest with
    | nil => rfl
    | cons q rest =>
      rw [List.getLast?_cons_cons] at hl
      obtain ⟨before, h⟩ := List.pairwise_cons.mp h
      have := le_last_of_ascending h rfl hl
      have := before q (List.mem_cons_self ..)
      rw [List.length_cons] at gapless
      obtain rfl : q = p + 1 := by omega
      rw [List.length_cons, List.range'_succ, ← ih h rfl hl (by omega)]

theorem filterMap_range' {α : Type*} (xs : List α) (start n : Nat) :
    (List.range' start n).filterMap (xs[·]?) = (xs.drop start).take n := by
  induction n generalizing start with
  | zero => rfl
  | succ n ih =>
    rw [List.range'_succ]
    by_cases h : start < xs.length
    · rw [List.filterMap_cons_some (List.getElem?_eq_getElem h), ih, List.drop_eq_getElem_cons h,
        List.take_succ_cons]
    · have none : xs[start]? = none := List.getElem?_eq_none (by omega)
      rw [List.filterMap_cons_none none, ih, List.drop_of_length_le (by omega),
        List.drop_of_length_le (by omega), List.take_nil, List.take_nil]

theorem filterMap_map {α β : Type*} (f : α → β) (xs : List α) (positions : List Nat) :
    (positions.filterMap (xs[·]?)).map f = positions.filterMap ((xs.map f)[·]?) := by
  rw [List.map_filterMap]
  congr 1
  funext i
  rw [List.getElem?_map]

namespace Chain

variable {op : String} {s : Subst} {st st' : Store} {has : Tree.Label → Prop} {t u : TermId}

/-! ## Appending a term -/

theorem appendWithin_app {n : Nat} {c : Chain} {args : List TermId} {attrs : Attrs}
    (app : st.term? (s.deref st t) = some (.app op args attrs)) :
    appendWithin op s st (n + 1) c t =
      let c' := args.foldl (appendWithin op s st n) c
      { c' with spans := c'.spans ++ [⟨c.items.length, c'.items.length, s.deref st t⟩] } := by
  rw [appendWithin]
  simp only [Store.app?_eq_some_iff.mpr app, if_true]

theorem ne_of_app? {f : String} {args : List TermId} {attrs : Attrs}
    (other : ∀ args attrs, st.term? u ≠ some (.app op args attrs))
    (app : st.app? u = some (f, args, attrs)) : f ≠ op := by
  rintro rfl
  exact other args attrs (Store.app?_eq_some_iff.mp app)

theorem appendWithin_other {n : Nat} {c : Chain}
    (other : ∀ args attrs, st.term? (s.deref st t) ≠ some (.app op args attrs)) :
    appendWithin op s st (n + 1) c t = { c with items := c.items ++ [s.deref st t] } := by
  rw [appendWithin]
  dsimp only
  split
  · rename_i app
    exact if_neg (ne_of_app? other app)
  · rfl

theorem isApp_tree_iff (hs : s.Sound st) (ht : st.Stored t) : (s.tree st t).IsApp op ↔
    ∃ args attrs, st.term? (s.deref st t) = some (.app op args attrs) := by
  obtain ⟨x, hx⟩ := Store.term?_of_stored (hs.stored_deref ht)
  cases x with
  | var v => simp [hs.tree_of_var hx, hx, Tree.IsApp]
  | leaf l => simp [hs.tree_of_leaf hx, hx, Tree.IsApp]
  | app f args attrs => simp [hs.tree_of_app hx, hx, Tree.IsApp]

/-- A span of the items: an application whose chain they are. -/
structure Covers (op : String) (s : Subst) (st : Store) (has : Tree.Label → Prop)
    (items : List TermId) (span : Span) : Prop where
  stored : st.Stored span.term
  labels : (s.tree st span.term).Over has
  isApp : (s.tree st span.term).IsApp op
  bounds : span.start ≤ span.stop ∧ span.stop ≤ items.length
  items_eq : ((items.drop span.start).take (span.stop - span.start)).map (s.tree st) =
    (s.tree st span.term).items op

/-- What is known of a chain while terms are appended: `trees` are the trees of its items. -/
structure Reads (op : String) (s : Subst) (st : Store) (has : Tree.Label → Prop)
    (trees : List Tree) (c : Chain) : Prop where
  items_eq : c.items.map (s.tree st) = trees
  stored : ∀ u ∈ c.items, st.Stored u
  covers : ∀ span ∈ c.spans, Covers op s st has c.items span

theorem Covers.append {items more : List TermId} {span : Span}
    (h : Covers op s st has items span) : Covers op s st has (items ++ more) span where
  stored := h.stored
  labels := h.labels
  isApp := h.isApp
  bounds := by
    have := h.bounds
    rw [List.length_append]
    omega
  items_eq := by
    have := h.bounds
    rw [← h.items_eq, List.drop_append_of_le_length (by omega),
      List.take_append_of_le_length (by rw [List.length_drop]; omega)]

theorem reads_empty : Reads op s st has [] empty := ⟨rfl, nofun, nofun⟩

/-- A single item more. -/
theorem Reads.item {trees : List Tree} {c : Chain} (h : Reads op s st has trees c)
    (hu : st.Stored u) : Reads op s st has (trees ++ [s.tree st u]) { c with items := c.items ++ [u] } where
  items_eq := by rw [List.map_append, h.items_eq, List.map_singleton]
  stored := by
    intro w hw
    rcases List.mem_append.mp hw with hw | hw
    · exact h.stored w hw
    · rwa [List.mem_singleton.mp hw]
  covers span hs := (h.covers span hs).append

/-- A span over all items that an application has appended. -/
theorem Reads.span {trees : List Tree} {c c' : Chain} (h : Reads op s st has trees c)
    (hu : st.Stored u) (labels : (s.tree st u).Over has) (app : (s.tree st u).IsApp op)
    (h' : Reads op s st has (trees ++ (s.tree st u).items op) c') :
    Reads op s st has (trees ++ (s.tree st u).items op)
      { c' with spans := c'.spans ++ [⟨c.items.length, c'.items.length, u⟩] } where
  items_eq := h'.items_eq
  stored := h'.stored
  covers span hspan := by
    rcases List.mem_append.mp hspan with hspan | hspan
    · exact h'.covers span hspan
    · rw [List.mem_singleton.mp hspan]
      have before : c.items.length = trees.length := by
        rw [← h.items_eq, List.length_map]
      have after := congrArg List.length h'.items_eq
      rw [List.length_map, List.length_append] at after
      refine ⟨hu, labels, app, ⟨?_, Nat.le_refl _⟩, ?_⟩
      · show c.items.length ≤ c'.items.length
        omega
      · show ((c'.items.drop c.items.length).take (c'.items.length - c.items.length)).map _ = _
        rw [List.map_take, List.map_drop, h'.items_eq, before, List.drop_left, List.take_of_length_le]
        omega

/-- Appending terms one after the other. -/
theorem Reads.foldl {append : Chain → TermId → Chain} {args : List TermId}
    (each : ∀ u ∈ args, ∀ {trees c}, Reads op s st has trees c →
      Reads op s st has (trees ++ (s.tree st u).items op) (append c u))
    {trees : List Tree} {c : Chain} (h : Reads op s st has trees c) :
    Reads op s st has (trees ++ (args.map (s.tree st)).flatMap (Tree.items op))
      (args.foldl append c) := by
  induction args generalizing trees c with
  | nil =>
    rw [List.map_nil, List.flatMap_nil, List.append_nil]
    exact h
  | cons u rest ih =>
    rw [List.forall_mem_cons] at each
    have later := ih each.2 (each.1 h)
    rwa [List.append_assoc, ← List.flatMap_cons, ← List.map_cons] at later

/-- Appending a term appends the chain of its tree. -/
theorem appendWithin_reads (hs : s.Sound st) {n : Nat} {trees : List Tree} {c : Chain}
    (ht : st.Stored t) (labels : (s.tree st t).Over has) (hn : (s.tree st t).depth < n)
    (h : Reads op s st has trees c) :
    Reads op s st has (trees ++ (s.tree st t).items op) (appendWithin op s st n c t) := by
  induction n generalizing t trees c with
  | zero => omega
  | succ n ih =>
    have hu := hs.stored_deref ht
    by_cases isApp : (s.tree st t).IsApp op
    · obtain ⟨args, attrs, app⟩ := (isApp_tree_iff hs ht).mp isApp
      have tree := hs.tree_of_app app
      have operands : ∀ u ∈ args, ∀ {trees c}, Reads op s st has trees c →
          Reads op s st has (trees ++ (s.tree st u).items op) (appendWithin op s st n c u) := by
        intro u mem trees c h
        have mem' := List.mem_map_of_mem (f := s.tree st) mem
        refine ih (hs.valid.stored app mem) ?_ ?_ h
        · rw [tree, Tree.over_app] at labels
          exact labels.2 _ mem'
        · have lt : (s.tree st u).depth < (Tree.app op (args.map (s.tree st)) attrs).depth :=
            Tree.depth_lt mem'
          rw [← tree] at lt
          omega
      have later := h.foldl operands
      rw [← Tree.items_app_self op (args.map (s.tree st)) attrs, ← tree] at later
      rw [appendWithin_app app]
      rw [← hs.tree_deref t] at later labels isApp ⊢
      exact h.span hu labels isApp later
    · have other := mt (isApp_tree_iff hs ht).mpr isApp
      simp only [not_exists] at other
      rw [appendWithin_other other, Tree.items_of_not_isApp isApp, ← hs.tree_deref t]
      exact h.item hu

/-- The chain of a flattened term is that of its tree. -/
theorem flatten_reads (hs : s.Sound st) (ht : st.Stored t) (labels : (s.tree st t).Over has) :
    Reads op s st has ((s.tree st t).items op) (flatten op s st t) :=
  appendWithin_reads hs ht labels (hs.depth_tree_lt t) reads_empty

theorem Reads.grows (hs : s.Sound st) (g : st.Grows st') {trees : List Tree} {c : Chain}
    (h : Reads op s st has trees c) : Reads op s st' has trees c where
  items_eq := by
    rw [← h.items_eq]
    exact List.map_congr_left fun u hu => hs.tree_grows g (h.stored u hu)
  stored u hu := g.stored (h.stored u hu)
  covers span hspan := by
    have cover := h.covers span hspan
    have tree := hs.tree_grows g cover.stored
    refine ⟨g.stored cover.stored, ?_, ?_, cover.bounds, ?_⟩
    · rw [tree]
      exact cover.labels
    · rw [tree]
      exact cover.isApp
    · rw [tree, ← cover.items_eq]
      refine List.map_congr_left fun u hu => hs.tree_grows g (h.stored u ?_)
      exact List.mem_of_mem_drop (List.mem_of_mem_take hu)

/-! ## Groups -/

/-- A term that stands for some operands: its chain is theirs. -/
structure Made (op : String) (s : Subst) (st : Store) (has : Tree.Label → Prop)
    (trees : List Tree) (r : TermId × Store) : Prop where
  grows : st.Grows r.2
  stored : r.2.Stored r.1
  labels : (s.tree r.2 r.1).Over has
  items_eq : (s.tree r.2 r.1).items op = trees

theorem nest_made (hs : s.Sound st) (two : has (.node op 2 .unspecified)) (ht : st.Stored t)
    (labels : (s.tree st t).Over has) {us : List TermId} (stored : ∀ u ∈ us, st.Stored u)
    (overs : ∀ u ∈ us, (s.tree st u).Over has) :
    Made op s st has ((s.tree st t).items op ++ (us.map (s.tree st)).flatMap (Tree.items op))
      (nest op t us st) := by
  induction us generalizing t st with
  | nil =>
    rw [List.map_nil, List.flatMap_nil, List.append_nil]
    exact ⟨.refl st, ht, labels, rfl⟩
  | cons u rest ih =>
    rw [List.forall_mem_cons] at stored overs
    have both : ∀ w ∈ [t, u], st.Stored w := by
      simp only [List.mem_cons, List.not_mem_nil, or_false, forall_eq_or_imp, forall_eq]
      exact ⟨ht, stored.1⟩
    have g : st.Grows (st.app op [t, u] .unspecified).2 := Store.app_grows both
    have hs' := hs.grows g
    have tree : s.tree (st.app op [t, u] .unspecified).2 (st.app op [t, u] .unspecified).1 =
        .app op [s.tree st t, s.tree st u] .unspecified := by
      rw [hs'.tree_app (Store.term?_app ..), List.map_cons, List.map_singleton, hs.tree_grows g ht,
        hs.tree_grows g stored.1]
    have same : rest.map (s.tree (st.app op [t, u] .unspecified).2) = rest.map (s.tree st) :=
      List.map_congr_left fun w hw => hs.tree_grows g (stored.2 w hw)
    have made := ih hs' (Store.stored_app op [t, u] .unspecified st) (by
        rw [tree, Tree.over_app]
        refine ⟨two, ?_⟩
        simp only [List.mem_cons, List.not_mem_nil, or_false, forall_eq_or_imp, forall_eq]
        exact ⟨labels, overs.1⟩)
      (fun w hw => g.stored (stored.2 w hw))
      (fun w hw => by rw [hs.tree_grows g (stored.2 w hw)]; exact overs.2 w hw)
    rw [tree, same, Tree.items_app_self, List.flatMap_cons, List.flatMap_singleton,
      List.append_assoc, ← List.flatMap_cons, ← List.map_cons] at made
    exact ⟨g.trans made.grows, made.stored, made.labels, made.items_eq⟩

theorem consecutive_eq_some {positions : List Nat} {first stop : Nat}
    (h : consecutive positions = some (first, stop)) : positions.head? = some first ∧
      ∃ last, positions.getLast? = some last ∧ stop = last + 1 ∧
        last + 1 = first + positions.length := by
  unfold consecutive at h
  obtain ⟨a, ha, h⟩ := Option.bind_eq_some_iff.mp h
  obtain ⟨b, hb, h⟩ := Option.bind_eq_some_iff.mp h
  split at h
  · cases h
    exact ⟨ha, b, hb, rfl, ‹_›⟩
  · cases h

/-- A group of operands at some positions is a term whose chain they are. -/
theorem group_made (hs : s.Sound st) (two : has (.node op 2 .unspecified)) {trees : List Tree}
    {c : Chain} (h : Reads op s st has trees c) (overs : ∀ x ∈ trees, x.Over has)
    (single : ∀ x ∈ trees, ¬ x.IsApp op) {positions : List Nat}
    (ascending : positions.Pairwise (· < ·)) (ne : positions.filterMap (c.items[·]?) ≠ []) :
    ∃ t st', c.group op positions st = (some t, st') ∧
      Made op s st has (positions.filterMap (trees[·]?)) (t, st') := by
  have read : (positions.filterMap (c.items[·]?)).map (s.tree st) =
      positions.filterMap (trees[·]?) := by rw [filterMap_map, h.items_eq]
  have mem : ∀ u ∈ positions.filterMap (c.items[·]?), u ∈ c.items := by
    intro u hu
    obtain ⟨i, -, hi⟩ := List.mem_filterMap.mp hu
    exact List.mem_of_getElem? hi
  have tree_mem : ∀ u ∈ c.items, s.tree st u ∈ trees := by
    intro u hu
    rw [← h.items_eq]
    exact List.mem_map_of_mem hu
  have items_self : ∀ u ∈ c.items, (s.tree st u).items op = [s.tree st u] := fun u hu =>
    Tree.items_of_not_isApp (single _ (tree_mem u hu))
  unfold group
  rw [← read]
  generalize hus : positions.filterMap (c.items[·]?) = us at ne mem
  match us with
  | [] => exact absurd rfl ne
  | [u] =>
    have hu := mem u (List.mem_cons_self ..)
    exact ⟨u, st, rfl, .refl st, h.stored u hu, overs _ (tree_mem u hu), items_self u hu⟩
  | u :: w :: rest =>
    simp only
    split
    · rename_i span found
      obtain ⟨⟨first, stop⟩, cons, found⟩ := Option.bind_eq_some_iff.mp found
      obtain ⟨head, last, getLast, rfl, gapless⟩ := consecutive_eq_some cons
      have cover := h.covers span (List.mem_of_find?_eq_some found)
      have bounds := List.find?_some found
      simp only [decide_eq_true_eq] at bounds
      refine ⟨span.term, st, rfl, .refl st, cover.stored, cover.labels, ?_⟩
      have range := eq_range'_of_ascending ascending head getLast gapless
      rw [← cover.items_eq, ← hus, range, filterMap_range', bounds.1, bounds.2, gapless]
      simp
    · have all : ∀ x ∈ u :: w :: rest, st.Stored x := fun x hx => h.stored x (mem x hx)
      have labels : ∀ x ∈ u :: w :: rest, (s.tree st x).Over has := fun x hx =>
        overs _ (tree_mem x (mem x hx))
      have made := nest_made hs two (all u (List.mem_cons_self ..)) (labels u (List.mem_cons_self ..))
        (fun x hx => all x (.tail _ hx)) (fun x hx => labels x (.tail _ hx))
      refine ⟨_, _, rfl, made.grows, made.stored, made.labels, ?_⟩
      rw [made.items_eq, items_self u (mem u (List.mem_cons_self ..)),
        Tree.flatMap_items_of_not_isApp]
      · rfl
      · intro x hx
        obtain ⟨y, hy, rfl⟩ := List.mem_map.mp hx
        exact single _ (tree_mem y (mem y (.tail _ hy)))

end Chain

end Regraft
