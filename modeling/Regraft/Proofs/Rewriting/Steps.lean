import Regraft.Proofs.Rewriting.Walk

/-
  What a rule does to a tree in one step, told by its walks alone. The walks of a rule take steps as some
  map from trees to sets of trees says if they come to an end with just these results and no error,
  whatever else happens to the session between their turns (`Rule.Walks`). A trail is a chain of such
  steps, and a normal form is a tree that no step changes.
-/

namespace Regraft

/-- Sessions in which something is known of a rule. It may hold only as long as there is room in the
    session, which is never gained. -/
structure Scope where
  ok : Session → Prop
  room : Session → Prop
  valid : ∀ {ses}, ok ses → ses.store.Valid
  count : ∀ {ses} f, ok ses → ok (Session.count f ses).2
  earlier : ∀ {ses ses'}, ses.Grows ses' → room ses' → room ses

/-- All sessions behind a valid one. -/
def Scope.behind (base : Session) (hv : base.store.Valid) : Scope where
  ok := base.Grows
  room _ := True
  valid g := g.store.valid hv
  count f g := g.trans (Session.count_grows f _)
  earlier _ _ := trivial

/-- Trees that lead from one to another by steps, the last one first. -/
inductive Trail (next : Tree → Set Tree) (x : Tree) : List Tree → Prop
  | start : Trail next x [x]
  | step {y z : Tree} {behind : List Tree} (trail : Trail next x (y :: behind)) (mem : z ∈ next y) :
      Trail next x (z :: y :: behind)

/-- Steps lead from one tree to another. -/
def Reaches (next : Tree → Set Tree) (x y : Tree) : Prop := ∃ behind, Trail next x (y :: behind)

/-- No step leads to another tree. -/
def Normal (next : Tree → Set Tree) (y : Tree) : Prop := ∀ z ∈ next y, z = y

variable {K : Scope} {A found : Set Tree} {next : Tree → Set Tree} {x y z : Tree} {rule : Rule}
  {ses ses' : Session} {t : TermId} {w : Walk}

theorem Reaches.refl : Reaches next x x := ⟨[], .start⟩

/-- Steps that do not lead out of a set lead to its trees only. -/
theorem Reaches.mem {S : Set Tree} (h : Reaches next x y) (start : x ∈ S)
    (closed : ∀ y ∈ S, next y ⊆ S) : y ∈ S := by
  obtain ⟨behind, trail⟩ := h
  generalize eq : y :: behind = trees at trail
  induction trail generalizing y behind with
  | start =>
    cases eq
    exact start
  | step trail mem ih =>
    cases eq
    exact closed _ (ih _ rfl) mem

/-! ## Walks -/

/-- A walk has found some trees of a set and will find the others, and then end, whatever happens to the
    session between its turns. -/
inductive Walk.Completes (K : Scope) (A : Set Tree) : Session → Set Tree → Walk → Prop
  | intro {ses : Session} {found : Set Tree} {w : Walk}
      (goes : ∀ ses' out ses'', ses.Grows ses' → K.ok ses' → K.room ses'' →
        w.turn ses' = (out, ses'') → ses'.Grows ses'' ∧ K.ok ses'')
      (working : ∀ ses' next ses'', ses.Grows ses' → K.ok ses' → K.room ses'' →
        w.turn ses' = (.working next, ses'') → Completes K A ses'' found next)
      (member : ∀ ses' t next ses'', ses.Grows ses' → K.ok ses' → K.room ses'' →
        w.turn ses' = (.yielded (.ok t) next, ses'') → Holds (· ∈ A) ses'' t)
      (behind : ∀ ses' t next ses'', ses.Grows ses' → K.ok ses' → K.room ses'' →
        w.turn ses' = (.yielded (.ok t) next, ses'') →
          Completes K A ses'' (insert (ses''.store.tree t) found) next)
      (noError : ∀ ses' e next ses'', ses.Grows ses' → K.ok ses' → K.room ses'' →
        w.turn ses' ≠ (.yielded (.error e) next, ses''))
      (all : ∀ ses' ses'', ses.Grows ses' → K.ok ses' → K.room ses'' →
        w.turn ses' = (.finished, ses'') → A ⊆ found) : Completes K A ses found w

theorem Walk.Completes.later (h : w.Completes K A ses found) (g : ses.Grows ses') :
    w.Completes K A ses' found := by
  obtain ⟨goes, working, member, behind, noError, all⟩ := h
  exact .intro (fun ses₁ out ses₂ g₁ => goes ses₁ out ses₂ (g.trans g₁))
    (fun ses₁ next ses₂ g₁ => working ses₁ next ses₂ (g.trans g₁))
    (fun ses₁ t next ses₂ g₁ => member ses₁ t next ses₂ (g.trans g₁))
    (fun ses₁ t next ses₂ g₁ => behind ses₁ t next ses₂ (g.trans g₁))
    (fun ses₁ e next ses₂ g₁ => noError ses₁ e next ses₂ (g.trans g₁))
    (fun ses₁ ses₂ g₁ => all ses₁ ses₂ (g.trans g₁))

/-- What a turn comes to in a walk that completes. -/
def Walk.Completes.Turned (K : Scope) (A found : Set Tree) :
    Turn Walk (Except RewriteError TermId) × Session → Prop
  | (.working next, ses) => next.Completes K A ses found
  | (.yielded (.ok t) next, ses) =>
    Holds (· ∈ A) ses t ∧ next.Completes K A ses (insert (ses.store.tree t) found)
  | (.yielded (.error _) _, _) => False
  | (.finished, _) => A ⊆ found

theorem Walk.Completes.of_turn (h : ∀ ses', ses.Grows ses' → K.ok ses' → K.room (w.turn ses').2 →
    ses'.Grows (w.turn ses').2 ∧ K.ok (w.turn ses').2 ∧ Completes.Turned K A found (w.turn ses')) :
    w.Completes K A ses found := by
  have turned : ∀ ses' out ses'', ses.Grows ses' → K.ok ses' → K.room ses'' →
      w.turn ses' = (out, ses'') →
        ses'.Grows ses'' ∧ K.ok ses'' ∧ Completes.Turned K A found (out, ses'') := by
    intro ses' out ses'' g ok room eq
    have := h ses' g ok
    rw [eq] at this
    exact this room
  refine .intro (fun ses' out ses'' g ok room eq => ?_) (fun ses' next ses'' g ok room eq => ?_)
    (fun ses' t next ses'' g ok room eq => ?_) (fun ses' t next ses'' g ok room eq => ?_)
    (fun ses' e next ses'' g ok room eq => ?_) (fun ses' ses'' g ok room eq => ?_)
  · obtain ⟨g', ok', -⟩ := turned _ _ _ g ok room eq
    exact ⟨g', ok'⟩
  · exact (turned _ _ _ g ok room eq).2.2
  · exact (turned _ _ _ g ok room eq).2.2.1
  · exact (turned _ _ _ g ok room eq).2.2.2
  · exact (turned _ _ _ g ok room eq).2.2
  · exact (turned _ _ _ g ok room eq).2.2

theorem Walk.start_grows (rule : Rule) (t : TermId) (ses : Session) :
    ses.Grows (Walk.start rule t ses).2 := Session.fresh_grows ses

/-- Walks from the trees that steps from `x` lead to find just what is one step away, in every session. -/
def Rule.Walks (rule : Rule) (K : Scope) (next : Tree → Set Tree) (x : Tree) : Prop :=
  ∀ y, Reaches next x y → ∀ ses t, K.ok ses → Holds (· = y) ses t →
    K.room (Walk.start rule t ses).2 → K.ok (Walk.start rule t ses).2 ∧
      (Walk.start rule t ses).1.Completes K (next y) (Walk.start rule t ses).2 ∅

end Regraft
