import Regraft.Proofs.Match.Chain

/-
  Flattening, said on the terms themselves. The items of a flattened term are the operands of its chain
  (`Operands`), and its spans are the applications that occur in the chain, each with the stretch of items
  that are its own operands (`Occurs`, `flatten_appends`). A loop over a stack of terms that are to be
  entered and applications that are to be left makes the same chain (`Flattening.flatten_runs`). A group
  of items is one of them, an application that covers just them, or else made anew, nested to the left;
  in each case its own flattening is these items again (`flatten_covers`).
-/

namespace Regraft

open Relation

namespace Chain

variable {op : String} {s : Subst} {st st' : Store} {t u : TermId} {ts us : List TermId}

/-! ## Operands and applications of a chain -/

variable (op s st) in
/-- The operands of the chains of some terms, from left to right: an application of the operator
    contributes the operands of its own operands, and any other term is itself an operand. -/
inductive Operands : List TermId → List TermId → Prop
  | nil : Operands [] []
  | other {t : TermId} {rest us : List TermId}
      (other : ∀ args attrs, st.term? (s.deref st t) ≠ some (.app op args attrs))
      (later : Operands rest us) : Operands (t :: rest) (s.deref st t :: us)
  | app {t : TermId} {rest args us vs : List TermId} {attrs : Attrs}
      (app : st.term? (s.deref st t) = some (.app op args attrs)) (inner : Operands args us)
      (later : Operands rest vs) : Operands (t :: rest) (us ++ vs)

variable (op s st) in
/-- An application of the operator in the chains of some terms, behind a number of operands. -/
inductive Occurs : List TermId → Nat → TermId → Prop
  | head {t : TermId} {rest args : List TermId} {attrs : Attrs}
      (app : st.term? (s.deref st t) = some (.app op args attrs)) :
      Occurs (t :: rest) 0 (s.deref st t)
  | inner {t u : TermId} {rest args : List TermId} {attrs : Attrs} {k : Nat}
      (app : st.term? (s.deref st t) = some (.app op args attrs)) (occurs : Occurs args k u) :
      Occurs (t :: rest) k u
  | later {t u : TermId} {rest us : List TermId} {k : Nat} (first : Operands op s st [t] us)
      (occurs : Occurs rest k u) : Occurs (t :: rest) (us.length + k) u

namespace Operands

theorem append {ts' us' : List TermId} (h : Operands op s st ts us) (h' : Operands op s st ts' us') :
    Operands op s st (ts ++ ts') (us ++ us') := by
  induction h with
  | nil => exact h'
  | other other _ ih => exact .other other ih
  | app app inner _ _ ih =>
    rw [List.append_assoc]
    exact .app app inner ih

theorem single_other (other : ∀ args attrs, st.term? (s.deref st t) ≠ some (.app op args attrs)) :
    Operands op s st [t] [s.deref st t] := .other other .nil

theorem single_app {args : List TermId} {attrs : Attrs}
    (app : st.term? (s.deref st t) = some (.app op args attrs)) (inner : Operands op s st args us) :
    Operands op s st [t] us := by
  rw [← List.append_nil us]
  exact .app app inner .nil

/-- A chain has its operands in one way only. -/
theorem unique {vs : List TermId} (hu : Operands op s st ts us) (hv : Operands op s st ts vs) :
    us = vs := by
  induction hu generalizing vs with
  | nil => cases hv; rfl
  | other other _ ih =>
    cases hv with
    | other _ later => rw [ih later]
    | app app => exact absurd app (other _ _)
  | app app _ _ ihi ihl =>
    cases hv with
    | other other => exact absurd app (other _ _)
    | app app' inner later =>
      cases app.symm.trans app'
      rw [ihi inner, ihl later]

/-- An operand stands for itself, and is no application of the operator. -/
theorem single_of_mem (h : Operands op s st ts us) (hs : s.Sound st) (mem : u ∈ us) :
    Operands op s st [u] [u] := by
  induction h with
  | nil => cases mem
  | @other t rest us other _ ih =>
    rcases List.mem_cons.mp mem with rfl | mem
    · have self := hs.deref_deref t
      have single := single_other (s := s) (t := s.deref st t) (by rwa [self])
      rwa [self] at single
    · exact ih mem
  | app _ _ _ ihi ihl => exact (List.mem_append.mp mem).elim ihi ihl

theorem stored (h : Operands op s st ts us) (hs : s.Sound st) (stored : ∀ t ∈ ts, st.Stored t) :
    ∀ u ∈ us, st.Stored u := by
  induction h with
  | nil => exact nofun
  | other _ _ ih =>
    rw [List.forall_mem_cons] at stored ⊢
    exact ⟨hs.stored_deref stored.1, ih stored.2⟩
  | app app _ _ ihi ihl =>
    rw [List.forall_mem_cons] at stored
    rw [List.forall_mem_append]
    exact ⟨ihi fun u mem => hs.valid.stored app mem, ihl stored.2⟩

/-- A store that grows changes no chain. -/
theorem grows (h : Operands op s st ts us) (hs : s.Sound st) (g : st.Grows st')
    (stored : ∀ t ∈ ts, st.Stored t) : Operands op s st' ts us := by
  have same {t : TermId} (ht : st.Stored t) : s.deref st' t = s.deref st t ∧
      st'.term? (s.deref st t) = st.term? (s.deref st t) :=
    ⟨hs.deref_grows g ht, g.term?_eq (hs.stored_deref ht)⟩
  induction h with
  | nil => exact .nil
  | other other _ ih =>
    rw [List.forall_mem_cons] at stored
    obtain ⟨deref, term⟩ := same stored.1
    rw [← deref]
    exact .other (by rwa [deref, term]) (ih stored.2)
  | app app _ _ ihi ihl =>
    rw [List.forall_mem_cons] at stored
    obtain ⟨deref, term⟩ := same stored.1
    refine .app (by rw [deref, term, app]) (ihi fun u mem => hs.valid.stored app mem) (ihl stored.2)

end Operands

theorem not_occurs_nil {k : Nat} : ¬ Occurs op s st [] k u := nofun

theorem occurs_cons {rest : List TermId} {k : Nat} (first : Operands op s st [t] us) :
    Occurs op s st (t :: rest) k u ↔
      Occurs op s st [t] k u ∨ ∃ k', k = us.length + k' ∧ Occurs op s st rest k' u := by
  constructor
  · intro h
    cases h with
    | head app => exact .inl (.head app)
    | inner app occurs => exact .inl (.inner app occurs)
    | later first' occurs => exact .inr ⟨_, by rw [first.unique first'], occurs⟩
  · rintro (h | ⟨k', rfl, occurs⟩)
    · cases h with
      | head app => exact .head app
      | inner app occurs => exact .inner app occurs
      | later _ occurs => exact absurd occurs not_occurs_nil
    · exact .later first occurs

theorem occurs_app {args : List TermId} {attrs : Attrs} {k : Nat}
    (app : st.term? (s.deref st t) = some (.app op args attrs)) :
    Occurs op s st [t] k u ↔ (k = 0 ∧ u = s.deref st t) ∨ Occurs op s st args k u := by
  constructor
  · intro h
    cases h with
    | head => exact .inl ⟨rfl, rfl⟩
    | inner app' occurs =>
      cases app.symm.trans app'
      exact .inr occurs
    | later _ occurs => exact absurd occurs not_occurs_nil
  · rintro (⟨rfl, rfl⟩ | occurs)
    · exact .head app
    · exact .inner app occurs

theorem not_occurs_other {k : Nat}
    (other : ∀ args attrs, st.term? (s.deref st t) ≠ some (.app op args attrs)) :
    ¬ Occurs op s st [t] k u := by
  intro h
  cases h with
  | head app => exact other _ _ app
  | inner app _ => exact other _ _ app
  | later _ occurs => exact not_occurs_nil occurs

namespace Occurs

variable {k : Nat}

theorem term?_eq (h : Occurs op s st ts k u) : ∃ args attrs, st.term? u = some (.app op args attrs) := by
  induction h with
  | head app => exact ⟨_, _, app⟩
  | inner _ _ ih => exact ih
  | later _ _ ih => exact ih

/-- The operands of an application in a chain stand in it, in a row, where the application occurs. -/
theorem exists_stretch (h : Occurs op s st ts k u) (hs : s.Sound st) (operands : Operands op s st ts us) :
    ∃ before stretch behind, us = before ++ stretch ++ behind ∧ before.length = k ∧
      Operands op s st [u] stretch := by
  induction h generalizing us with
  | @head t rest args attrs app =>
    cases operands with
    | other other => exact absurd app (other _ _)
    | app app' inner later =>
      have self : st.term? (s.deref st (s.deref st t)) = _ := (hs.deref_deref t).symm ▸ app'
      exact ⟨[], _, _, rfl, rfl, .single_app self inner⟩
  | inner app _ ih =>
    cases operands with
    | other other => exact absurd app (other _ _)
    | @app _ _ _ _ vs _ app' inner later =>
      cases app.symm.trans app'
      obtain ⟨before, stretch, behind, rfl, length, own⟩ := ih inner
      exact ⟨before, stretch, behind ++ vs, by simp, length, own⟩
  | later first _ ih =>
    cases operands with
    | other other rest =>
      obtain ⟨before, stretch, behind, rfl, rfl, own⟩ := ih rest
      rw [first.unique (.single_other other)]
      exact ⟨_ :: before, stretch, behind, rfl, by simp [Nat.add_comm], own⟩
    | app app inner rest =>
      obtain ⟨before, stretch, behind, rfl, rfl, own⟩ := ih rest
      rw [first.unique (.single_app app inner)]
      exact ⟨_ ++ before, stretch, behind, by simp, List.length_append, own⟩

end Occurs

/-! ## Flattening -/

variable (op s st) in
/-- One chain is another with the chains of some terms appended: their operands as items, and a span for
    every application that occurs in them. -/
structure Appends (c : Chain) (ts : List TermId) (c' : Chain) : Prop where
  items : ∃ us, Operands op s st ts us ∧ c'.items = c.items ++ us
  spans : ∀ start stop u, ⟨start, stop, u⟩ ∈ c'.spans ↔ ⟨start, stop, u⟩ ∈ c.spans ∨
    ∃ k us, Occurs op s st ts k u ∧ Operands op s st [u] us ∧ start = c.items.length + k ∧
      stop = start + us.length

theorem appends_foldl {append : Chain → TermId → Chain}
    (each : ∀ t ∈ ts, ∀ c, Appends op s st c [t] (append c t)) (c : Chain) :
    Appends op s st c ts (ts.foldl append c) := by
  induction ts generalizing c with
  | nil => exact ⟨⟨[], .nil, (List.append_nil _).symm⟩, fun start stop u => by simp [not_occurs_nil]⟩
  | cons t rest ih =>
    rw [List.forall_mem_cons] at each
    obtain ⟨⟨us, first, items⟩, spans⟩ := each.1 c
    obtain ⟨⟨vs, later, items'⟩, spans'⟩ := ih each.2 (append c t)
    refine ⟨⟨us ++ vs, first.append later, ?_⟩, fun start stop u => ?_⟩
    · rw [List.foldl_cons, items', items, List.append_assoc]
    · rw [List.foldl_cons, spans', spans, items, List.length_append]
      constructor
      · rintro ((old | ⟨k, ws, occurs, own, eq, stop⟩) | ⟨k, ws, occurs, own, eq, stop⟩)
        · exact .inl old
        · exact .inr ⟨k, ws, (occurs_cons first).mpr (.inl occurs), own, eq, stop⟩
        · exact .inr ⟨us.length + k, ws, .later first occurs, own, by omega, stop⟩
      · rintro (old | ⟨k, ws, occurs, own, eq, stop⟩)
        · exact .inl (.inl old)
        · rcases (occurs_cons first).mp occurs with here | ⟨k', rfl, later⟩
          · exact .inl (.inr ⟨k, ws, here, own, eq, stop⟩)
          · exact .inr ⟨k', ws, later, own, by omega, stop⟩

theorem appendWithin_appends (hs : s.Sound st) {n : Nat} (hn : s.height st t < n) (c : Chain) :
    Appends op s st c [t] (appendWithin op s st n c t) := by
  induction n generalizing t c with
  | zero => omega
  | succ n ih =>
    by_cases h : ∃ args attrs, st.term? (s.deref st t) = some (.app op args attrs)
    · obtain ⟨args, attrs, app⟩ := h
      have each : ∀ u ∈ args, ∀ c, Appends op s st c [u] (appendWithin op s st n c u) := by
        intro u mem c
        have := hs.height_lt app mem
        exact ih (by omega) c
      obtain ⟨⟨us, inner, items⟩, spans⟩ := appends_foldl each c
      have own : Operands op s st [s.deref st t] us := .single_app (by rw [hs.deref_deref, app]) inner
      rw [appendWithin_app app]
      refine ⟨⟨us, .single_app app inner, items⟩, fun start stop u => ?_⟩
      simp only [List.mem_append, List.mem_singleton, spans, items, List.length_append,
        Span.mk.injEq, or_assoc]
      refine or_congr_right ?_
      constructor
      · rintro (⟨k, ws, occurs, own', eq, stop⟩ | ⟨rfl, rfl, rfl⟩)
        · exact ⟨k, ws, .inner app occurs, own', eq, stop⟩
        · exact ⟨0, us, .head app, own, rfl, rfl⟩
      · rintro ⟨k, ws, occurs, own', rfl, rfl⟩
        rcases (occurs_app app).mp occurs with ⟨rfl, rfl⟩ | occurs
        · exact .inr ⟨rfl, by rw [own.unique own']; rfl, rfl⟩
        · exact .inl ⟨k, ws, occurs, own', rfl, rfl⟩
    · simp only [not_exists] at h
      rw [appendWithin_other h]
      refine ⟨⟨_, .single_other h, rfl⟩, fun start stop u => ?_⟩
      simp [not_occurs_other h]

theorem flatten_appends (hs : s.Sound st) (t : TermId) :
    Appends op s st empty [t] (flatten op s st t) := appendWithin_appends hs Subst.height_lt_depthBound empty

/-- The items of a flattened term are the operands of its chain. -/
theorem operands_flatten (hs : s.Sound st) (t : TermId) :
    Operands op s st [t] (flatten op s st t).items := by
  obtain ⟨us, operands, items⟩ := (flatten_appends hs t).items
  rwa [items]

theorem operands_iff (hs : s.Sound st) : Operands op s st [t] us ↔ us = (flatten op s st t).items :=
  ⟨fun h => h.unique (operands_flatten hs t), fun h => h ▸ operands_flatten hs t⟩

/-- The spans of a flattened term are the applications of its chain. -/
theorem mem_spans_flatten (hs : s.Sound st) {span : Span} : span ∈ (flatten op s st t).spans ↔
    Occurs op s st [t] span.start span.term ∧
      span.stop = span.start + (flatten op s st span.term).items.length := by
  obtain ⟨start, stop, u⟩ := span
  rw [(flatten_appends hs t).spans]
  simp only [empty, List.not_mem_nil, List.length_nil, Nat.zero_add, false_or, operands_iff hs]
  constructor
  · rintro ⟨k, us, occurs, rfl, rfl, rfl⟩
    exact ⟨occurs, rfl⟩
  · rintro ⟨occurs, rfl⟩
    exact ⟨start, _, occurs, rfl, rfl, rfl⟩

/-- The items of an application that occurs in a chain are a stretch of those of the chain. -/
theorem Occurs.items_eq (hs : s.Sound st) {k : Nat} (h : Occurs op s st [t] k u) :
    (flatten op s st u).items =
      ((flatten op s st t).items.drop k).take (flatten op s st u).items.length := by
  obtain ⟨before, stretch, behind, eq, rfl, own⟩ := h.exists_stretch hs (operands_flatten hs t)
  rw [operands_iff hs] at own
  rw [eq, ← own, List.append_assoc, List.drop_left, List.take_left]

/-! ## The loop -/

/-- What the loop does with a term: enter it, or leave it, an application whose operands are done and
    which was entered behind a number of items. -/
inductive Visit
  | enter (t : TermId)
  | leave (t : TermId) (start : Nat)

/-- The visits that are to be made, the next one first, and the chain so far. -/
structure Flattening where
  work : List Visit
  chain : Chain

namespace Flattening

/-- One turn. The operands of an application are entered before the application is left. -/
def turn (op : String) (s : Subst) (st : Store) : Flattening → Option Flattening
  | ⟨[], _⟩ => none
  | ⟨.enter t :: work, c⟩ =>
    let u := s.deref st t
    let item : Flattening := ⟨work, { c with items := c.items ++ [u] }⟩
    match st.app? u with
    | some (f, args, _) =>
      if f = op then some ⟨args.map .enter ++ .leave u c.items.length :: work, c⟩ else some item
    | none => some item
  | ⟨.leave t start :: work, c⟩ =>
    some ⟨work, { c with spans := c.spans ++ [⟨start, c.items.length, t⟩] }⟩

/-- From one state to another by turns. -/
def Runs (op : String) (s : Subst) (st : Store) : Flattening → Flattening → Prop :=
  ReflTransGen fun a b => a.turn op s st = some b

theorem turn_app {c : Chain} {work : List Visit} {args : List TermId} {attrs : Attrs}
    (app : st.term? (s.deref st t) = some (.app op args attrs)) :
    turn op s st ⟨.enter t :: work, c⟩ =
      some ⟨args.map .enter ++ .leave (s.deref st t) c.items.length :: work, c⟩ := by
  simp only [turn, Store.app?_eq_some_iff.mpr app, if_true]

theorem turn_other {c : Chain} {work : List Visit}
    (other : ∀ args attrs, st.term? (s.deref st t) ≠ some (.app op args attrs)) :
    turn op s st ⟨.enter t :: work, c⟩ = some ⟨work, { c with items := c.items ++ [s.deref st t] }⟩ := by
  unfold turn
  dsimp only
  split
  · rename_i app
    exact if_neg (ne_of_app? other app)
  · rfl

/-- Terms are entered one after the other. -/
theorem foldl_runs {append : Chain → TermId → Chain} (work : List Visit)
    (each : ∀ t ∈ ts, ∀ work c, Runs op s st ⟨.enter t :: work, c⟩ ⟨work, append c t⟩) (c : Chain) :
    Runs op s st ⟨ts.map .enter ++ work, c⟩ ⟨work, ts.foldl append c⟩ := by
  induction ts generalizing c with
  | nil => exact .refl
  | cons t rest ih =>
    rw [List.forall_mem_cons] at each
    exact (each.1 _ c).trans (ih each.2 (append c t))

theorem appendWithin_runs (hs : s.Sound st) {n : Nat} (hn : s.height st t < n) (work : List Visit)
    (c : Chain) : Runs op s st ⟨.enter t :: work, c⟩ ⟨work, appendWithin op s st n c t⟩ := by
  induction n generalizing t work c with
  | zero => omega
  | succ n ih =>
    by_cases h : ∃ args attrs, st.term? (s.deref st t) = some (.app op args attrs)
    · obtain ⟨args, attrs, app⟩ := h
      have each : ∀ u ∈ args, ∀ work c,
          Runs op s st ⟨.enter u :: work, c⟩ ⟨work, appendWithin op s st n c u⟩ := by
        intro u mem work c
        have := hs.height_lt app mem
        exact ih (by omega) work c
      have operands := foldl_runs (Visit.leave (s.deref st t) c.items.length :: work) each c
      rw [appendWithin_app app]
      exact .head (turn_app app) (operands.tail rfl)
    · simp only [not_exists] at h
      rw [appendWithin_other h]
      exact .single (turn_other h)

/-- The loop ends with the flattened term. -/
theorem flatten_runs (hs : s.Sound st) (t : TermId) :
    Runs op s st ⟨[.enter t], empty⟩ ⟨[], flatten op s st t⟩ :=
  appendWithin_runs hs Subst.height_lt_depthBound [] empty

end Flattening

/-! ## Groups -/

variable (op st) in
/-- Operands put together by applications to two, from the left. -/
inductive Nested : List TermId → TermId → Prop
  | single (t : TermId) : Nested [t] t
  | app {t u v : TermId} {ts : List TermId} (nested : Nested ts t)
      (app : st.term? v = some (.app op [t, u] .unspecified)) : Nested (ts ++ [u]) v

theorem Nested.grows (g : st.Grows st') (h : Nested op st ts t) : Nested op st' ts t := by
  induction h with
  | single t => exact .single t
  | app _ app ih => exact .app ih (g.keeps _ _ app)

theorem nest_nested (h : Nested op st ts t) (ht : st.Stored t) (stored : ∀ u ∈ us, st.Stored u) :
    st.Grows (nest op t us st).2 ∧ Nested op (nest op t us st).2 (ts ++ us) (nest op t us st).1 := by
  induction us generalizing st t ts with
  | nil =>
    rw [List.append_nil]
    exact ⟨.refl st, h⟩
  | cons u rest ih =>
    rw [List.forall_mem_cons] at stored
    have both : ∀ w ∈ [t, u], st.Stored w := by simp [ht, stored.1]
    have g : st.Grows (st.app op [t, u] .unspecified).2 := Store.app_grows both
    obtain ⟨g', nested⟩ := ih (.app (h.grows g) (Store.term?_app ..)) (Store.stored_app ..)
      fun w mem => g.stored (stored.2 w mem)
    rw [List.append_assoc, List.singleton_append] at nested
    exact ⟨g.trans g', nested⟩

/-- Operands that are nested are the operands of the chain that is made. -/
theorem Nested.operands (h : Nested op st ts t) (hs : s.Sound st)
    (self : ∀ u ∈ ts, Operands op s st [u] [u]) : Operands op s st [t] ts := by
  induction h with
  | single t => exact self t (.head _)
  | @app t u v ts _ app ih =>
    rw [List.forall_mem_append] at self
    have deref : s.deref st v = v := hs.deref_of_ne_var fun w hw => nomatch app.symm.trans hw
    have both : Operands op s st [t, u] (ts ++ [u]) := (ih self.1).append (self.2 u (.head _))
    exact .single_app (by rw [deref, app]) both

variable (op s st) in
/-- How a term comes to stand for the items of a chain at some positions: it is the only one of them, or
    an application of the chain that covers just them, or made anew if there is no such application. -/
inductive StandsFor (t : TermId) (positions : List Nat) : TermId → Store → Prop
  | item {i : Nat} {r : TermId} (one : positions = [i])
      (there : (flatten op s st t).items[i]? = some r) : StandsFor t positions r st
  | span {start : Nat} {r : TermId} (several : 1 < positions.length)
      (occurs : Occurs op s st [t] start r)
      (covers : positions = List.range' start (flatten op s st r).items.length) :
      StandsFor t positions r st
  | made {r : TermId} {st' : Store} (several : 1 < positions.length)
      (none : ∀ start u, Occurs op s st [t] start u →
        positions ≠ List.range' start (flatten op s st u).items.length)
      (nested : Nested op st' (positions.filterMap ((flatten op s st t).items[·]?)) r) :
      StandsFor t positions r st'

theorem map_some_filterMap {α : Type} {xs : List α} {positions : List Nat}
    (within : ∀ i ∈ positions, i < xs.length) :
    (positions.filterMap (xs[·]?)).map some = positions.map (xs[·]?) := by
  induction positions with
  | nil => rfl
  | cons i rest ih =>
    rw [List.forall_mem_cons] at within
    have there := List.getElem?_eq_getElem within.1
    rw [List.filterMap_cons_some there, List.map_cons, List.map_cons, ih within.2, there]

/-- The items at the positions are the operands of the chain of the term that stands for them. -/
theorem StandsFor.operands {positions : List Nat} {r : TermId} (h : StandsFor op s st t positions r st')
    (hs : s.Sound st) (ht : st.Stored t) (g : st.Grows st') :
    Operands op s st' [r] (positions.filterMap ((flatten op s st t).items[·]?)) := by
  have operands : Operands op s st [t] (flatten op s st t).items := operands_flatten hs t
  cases h with
  | item one there =>
    rw [one, List.filterMap_cons_some there, List.filterMap_nil]
    exact operands.single_of_mem hs (List.mem_of_getElem? there)
  | span several occurs covers =>
    rw [covers, filterMap_range', ← occurs.items_eq hs]
    exact operands_flatten hs r
  | made several none nested =>
    refine nested.operands (hs.grows g) fun u mem => ?_
    obtain ⟨i, -, there⟩ := List.mem_filterMap.mp mem
    have item := List.mem_of_getElem? there
    have stored := operands.stored hs (by simpa using ht) u item
    exact (operands.single_of_mem hs item).grows hs g (by simpa using stored)

theorem consecutive_range' {start n : Nat} (several : 1 < n) :
    consecutive (List.range' start n) = some (start, start + n) := by
  have first : (List.range' start n).head? = some start := by
    rw [List.head?_range', if_neg (by omega)]
  have last : (List.range' start n).getLast? = some (start + n - 1) := by
    rw [List.getLast?_range', if_neg (by omega)]
  have gapless : start + n - 1 + 1 = start + n := by omega
  simp [consecutive, first, last, gapless]

/-- A group of items is a term that stands for them. -/
theorem group_standsFor (hs : s.Sound st) (ht : st.Stored t) {positions : List Nat} (ne : positions ≠ [])
    (ascending : positions.Pairwise (· < ·))
    (within : ∀ i ∈ positions, i < (flatten op s st t).items.length) :
    ∃ r st', (flatten op s st t).group op positions st = (some r, st') ∧ st.Grows st' ∧
      StandsFor op s st t positions r st' := by
  have picked := map_some_filterMap within
  have stored : ∀ u ∈ positions.filterMap ((flatten op s st t).items[·]?), st.Stored u := by
    intro u mem
    obtain ⟨i, -, there⟩ := List.mem_filterMap.mp mem
    exact (operands_flatten hs t).stored hs (by simpa using ht) u (List.mem_of_getElem? there)
  have length := congrArg List.length picked
  rw [List.length_map, List.length_map] at length
  unfold group
  generalize found : positions.filterMap ((flatten op s st t).items[·]?) = us at stored length
  match us with
  | [] => exact absurd (List.length_eq_zero_iff.mp length.symm) ne
  | [r] =>
    obtain ⟨i, rfl⟩ := List.length_eq_one_iff.mp length.symm
    rw [found] at picked
    exact ⟨r, st, rfl, .refl st, .item rfl (List.cons.inj picked).1.symm⟩
  | r :: u :: rest =>
    have several : 1 < positions.length := by
      rw [← length, List.length_cons, List.length_cons]
      omega
    simp only
    split
    · rename_i span covering
      obtain ⟨⟨first, stop⟩, cons, covering⟩ := Option.bind_eq_some_iff.mp covering
      obtain ⟨head, last, getLast, rfl, gapless⟩ := consecutive_eq_some cons
      have bounds := List.find?_some covering
      simp only [decide_eq_true_eq] at bounds
      obtain ⟨occurs, stop⟩ := (mem_spans_flatten hs).mp (List.mem_of_find?_eq_some covering)
      have range := eq_range'_of_ascending ascending head getLast gapless
      refine ⟨span.term, st, rfl, .refl st, .span several (bounds.1 ▸ occurs) ?_⟩
      rwa [show (flatten op s st span.term).items.length = positions.length by omega]
    · rename_i none
      rw [List.forall_mem_cons] at stored
      obtain ⟨g, nested⟩ := nest_nested (.single r) stored.1 stored.2
      refine ⟨_, _, rfl, g, .made several (fun start u occurs covers => ?_) (found ▸ nested)⟩
      rw [covers] at several none
      rw [List.length_range'] at several
      rw [consecutive_range' several, Option.bind_some, List.find?_eq_none] at none
      refine none ⟨start, start + (flatten op s st u).items.length, u⟩ ?_ (by simp)
      exact (mem_spans_flatten hs).mpr ⟨occurs, rfl⟩

/-- The loop flattens a term. The items are the operands of its chain from left to right. The spans are
    the applications that occur in the chain, each where its own flattening stands among the items. And
    for ascending positions of items there is a group, a term that flattens to just the items there: the
    item itself, an application of the chain that covers them, or else a new chain nested to the left. -/
theorem flatten_covers (hs : s.Sound st) (ht : st.Stored t) :
    let c := flatten op s st t
    Flattening.Runs op s st ⟨[.enter t], empty⟩ ⟨[], c⟩ ∧
    (∀ us, Operands op s st [t] us ↔ us = c.items) ∧
    (∀ span, span ∈ c.spans ↔ Occurs op s st [t] span.start span.term ∧
      span.stop = span.start + (flatten op s st span.term).items.length) ∧
    (∀ span ∈ c.spans, (∃ args attrs, st.term? span.term = some (.app op args attrs)) ∧
      (flatten op s st span.term).items = (c.items.drop span.start).take (span.stop - span.start)) ∧
    ∀ positions : List Nat, positions ≠ [] → positions.Pairwise (· < ·) →
      (∀ i ∈ positions, i < c.items.length) →
      ∃ r st', c.group op positions st = (some r, st') ∧ st.Grows st' ∧
        (flatten op s st' r).items.map some = positions.map (c.items[·]?) ∧
        StandsFor op s st t positions r st' := by
  refine ⟨Flattening.flatten_runs hs t, fun us => operands_iff hs, fun span => mem_spans_flatten hs,
    fun span mem => ?_, fun positions ne ascending within => ?_⟩
  · obtain ⟨occurs, stop⟩ := (mem_spans_flatten hs).mp mem
    refine ⟨occurs.term?_eq, ?_⟩
    rw [stop, Nat.add_sub_cancel_left]
    exact occurs.items_eq hs
  · obtain ⟨r, st', eq, g, stands⟩ := group_standsFor hs ht ne ascending within
    refine ⟨r, st', eq, g, ?_, stands⟩
    rw [← (operands_iff (hs.grows g)).mp (stands.operands hs ht g), map_some_filterMap within]

/-- A variable, three inputs, `add(a, b)`, `add(c)` and `add(add(a, b), v0)`. -/
def boundSum : Store :=
  [.var 0, .leaf (.input "a"), .leaf (.input "b"), .leaf (.input "c"),
    .app "add" [⟨1⟩, ⟨2⟩] .unspecified, .app "add" [⟨3⟩] .unspecified,
    .app "add" [⟨4⟩, ⟨0⟩] .unspecified].foldl (fun st x => (Store.intern x st).2) .empty

/-- The variable is bound to the application to one operand: the first and the last item make a new term,
    the first two do not. -/
theorem flatten_covers_boundSum :
    let s := Subst.empty.bind 0 ⟨5⟩
    let c := flatten "add" s boundSum ⟨6⟩
    boundSum.Stored ⟨6⟩ ∧ s.Sound boundSum ∧
    c = ⟨[⟨1⟩, ⟨2⟩, ⟨3⟩], [⟨0, 2, ⟨4⟩⟩, ⟨2, 3, ⟨5⟩⟩, ⟨0, 3, ⟨6⟩⟩]⟩ ∧
    Operands "add" s boundSum [⟨6⟩] [⟨1⟩, ⟨2⟩, ⟨3⟩] ∧
    Occurs "add" s boundSum [⟨6⟩] 2 ⟨5⟩ ∧
    (c.group "add" [0, 1] boundSum).1 = some ⟨4⟩ ∧
    ∃ st', c.group "add" [0, 2] boundSum = (some ⟨7⟩, st') ∧ boundSum.Grows st' ∧
      (flatten "add" s st' ⟨7⟩).items.map some = [some ⟨1⟩, some ⟨3⟩] := by
  intro s c
  have sound : s.Sound boundSum := by
    have empty := Subst.Sound.empty (show boundSum.Valid by decide +kernel)
    refine empty.bind (by decide +kernel) (Subst.get?_empty 0) ?_
    rw [← empty.occurs_iff]
    decide +kernel
  have stored : boundSum.Stored ⟨6⟩ := by decide +kernel
  have chain : c = ⟨[⟨1⟩, ⟨2⟩, ⟨3⟩], [⟨0, 2, ⟨4⟩⟩, ⟨2, 3, ⟨5⟩⟩, ⟨0, 3, ⟨6⟩⟩]⟩ := by decide +kernel
  obtain ⟨-, operands, spans, -, group⟩ := @flatten_covers "add" s boundSum ⟨6⟩ sound stored
  obtain ⟨r, st', eq, g, flat, -⟩ := group [0, 2] (by decide) (by decide) (by
    change ∀ i ∈ [0, 2], i < c.items.length
    rw [chain]
    decide)
  have new : (c.group "add" [0, 2] boundSum).1 = some ⟨7⟩ := by decide +kernel
  obtain rfl : r = ⟨7⟩ := Option.some.inj ((congrArg Prod.fst eq).symm.trans new)
  change _ = [0, 2].map (c.items[·]?) at flat
  rw [chain] at flat
  refine ⟨stored, sound, chain, (operands _).mpr (congrArg Chain.items chain).symm,
    ((spans ⟨2, 3, ⟨5⟩⟩).mp ?_).1, by decide +kernel, st', eq, g, flat⟩
  change _ ∈ c.spans
  rw [chain]
  decide

end Chain

end Regraft
