import Regraft.Proofs.Renaming.Terms

/-
  Two sessions side by side (`Sides`), and actions on them that go alike: started on sessions that
  agree, they end in later sessions that agree, with related results, provided the right one has room
  at the end (`Renaming.Acts`). Actions that go alike one after the other go alike together
  (`Acts.bind`), where what comes second has to let the right session grow whatever has happened, so
  that there was room already before it.
-/

namespace Regraft

/-- Two sessions side by side. -/
structure Sides where
  left : Session
  right : Session

/-- From two sessions to later ones. -/
structure Sides.Grow (p q : Sides) : Prop where
  left : p.left.Grows q.left
  right : p.right.Grows q.right

namespace Sides.Grow

variable {p q r : Sides}

theorem refl (p : Sides) : p.Grow p := ⟨.refl _, .refl _⟩

theorem trans (h : p.Grow q) (h' : q.Grow r) : p.Grow r :=
  ⟨h.left.trans h'.left, h.right.trans h'.right⟩

end Sides.Grow

namespace Renaming

variable {α β γ δ : Type} {ρ : Renaming} {p q r : Sides}

/-- Sessions with the same facts whose stores agree. -/
structure Agree (ρ : Renaming) (p : Sides) : Prop where
  facts : p.right.facts = p.left.facts
  stores : ρ.Agrees p.left.store p.right.store

/-- A term of the left session and its twin. -/
abbrev Same (ρ : Renaming) (p : Sides) : TermId → TermId → Prop :=
  ρ.Twins p.left.store p.right.store

/-- Terms of the left session and their twins, one by one. -/
abbrev Sames (ρ : Renaming) (p : Sides) : List TermId → List TermId → Prop := List.Forall₂ (ρ.Same p)

theorem Same.grow {t t' : TermId} (h : ρ.Same p t t') (g : p.Grow q) : ρ.Same q t t' :=
  Twins.grows h g.left.store g.right.store

theorem Sames.grow {ts ts' : List TermId} (h : ρ.Sames p ts ts') (g : p.Grow q) : ρ.Sames q ts ts' :=
  h.imp fun _ _ same => Same.grow same g

/-- What two actions come to: later sessions that agree, and related results. -/
structure Ran (ρ : Renaming) (p : Sides) (R : Sides → α → β → Prop) (x : α × Session)
    (y : β × Session) : Prop where
  agree : ρ.Agree ⟨x.2, y.2⟩
  grow : p.Grow ⟨x.2, y.2⟩
  result : R ⟨x.2, y.2⟩ x.1 y.1

/-- What later sessions come to, earlier ones have come to. -/
theorem Ran.after {R : Sides → α → β → Prop} {x : α × Session} {y : β × Session}
    (h : ρ.Ran q R x y) (g : p.Grow q) : ρ.Ran p R x y := ⟨h.agree, g.trans h.grow, h.result⟩

/-- Two actions go alike, as long as the right session has room. -/
def Acts (ρ : Renaming) (p : Sides) (R : Sides → α → β → Prop) (act : SessionM α)
    (act' : SessionM β) : Prop :=
  ρ.Agree p → (act' p.right).2.store.Roomy → ρ.Ran p R (act p.left) (act' p.right)

/-- Two actions go alike, whatever room there is. They make no variables. -/
def Steady (ρ : Renaming) (p : Sides) (R : Sides → α → β → Prop) (act : SessionM α)
    (act' : SessionM β) : Prop := ρ.Agree p → ρ.Ran p R (act p.left) (act' p.right)

variable {R R' : Sides → α → β → Prop} {S : Sides → γ → δ → Prop} {act : SessionM α}
  {act' : SessionM β} {next : α → SessionM γ} {next' : β → SessionM δ}

theorem Steady.acts (h : ρ.Steady p R act act') : ρ.Acts p R act act' := fun agree _ => h agree

theorem Steady.pure {a : α} {b : β} (h : R p a b) : ρ.Steady p R (pure a) (pure b) :=
  fun agree => ⟨agree, .refl p, h⟩

theorem Acts.imp (h : ρ.Acts p R act act') (imp : ∀ q a b, p.Grow q → R q a b → R' q a b) :
    ρ.Acts p R' act act' := by
  intro agree room
  obtain ⟨agree', grow, result⟩ := h agree room
  exact ⟨agree', grow, imp _ _ _ grow result⟩

/-- Something is made of the results of actions that go alike. -/
theorem Steady.map (h : ρ.Steady p R act act') {f : α → γ} {g : β → δ}
    (made : ∀ q a b, p.Grow q → R q a b → S q (f a) (g b)) :
    ρ.Steady p S (fun ses => (f (act ses).1, (act ses).2))
      fun ses => (g (act' ses).1, (act' ses).2) := by
  intro agree
  obtain ⟨agree', grow, result⟩ := h agree
  exact ⟨agree', grow, made _ _ _ grow result⟩

/-- Actions go alike one after the other. -/
theorem Acts.bind (first : ρ.Acts p R act act')
    (grows : (act' p.right).2.Grows ((act' >>= next') p.right).2)
    (later : ∀ q a b, p.Grow q → R q a b → ρ.Acts q S (next a) (next' b)) :
    ρ.Acts p S (act >>= next) (act' >>= next') := by
  intro agree room
  obtain ⟨agree', grow, result⟩ := first agree (room.of_grows grows.store)
  obtain ⟨agree'', grow', result'⟩ := later _ _ _ grow result agree' room
  exact ⟨agree'', grow.trans grow', result'⟩

/-- Behind an action that makes no variables there is as much room as before. -/
theorem Steady.bind (first : ρ.Steady p R act act')
    (later : ∀ q a b, p.Grow q → R q a b → ρ.Acts q S (next a) (next' b)) :
    ρ.Acts p S (act >>= next) (act' >>= next') := by
  intro agree room
  obtain ⟨agree', grow, result⟩ := first agree
  obtain ⟨agree'', grow', result'⟩ := later _ _ _ grow result agree' room
  exact ⟨agree'', grow.trans grow', result'⟩

theorem Steady.then (first : ρ.Steady p R act act')
    (later : ∀ q a b, p.Grow q → R q a b → ρ.Steady q S (next a) (next' b)) :
    ρ.Steady p S (act >>= next) (act' >>= next') := by
  intro agree
  obtain ⟨agree', grow, result⟩ := first agree
  obtain ⟨agree'', grow', result'⟩ := later _ _ _ grow result agree'
  exact ⟨agree'', grow.trans grow', result'⟩

/-! ## Elementary actions -/

/-- An action on the stores alone. -/
theorem onStore_steady {f : Store → α × Store} {g : Store → β × Store}
    {R : Store → Store → α → β → Prop}
    (h : ρ.Agrees p.left.store p.right.store →
      ρ.Made p.left.store p.right.store R (f p.left.store) (g p.right.store)) :
    ρ.Steady p (fun q => R q.left.store q.right.store) (Session.onStore f) (Session.onStore g) := by
  intro agree
  obtain ⟨agrees, left, right, result⟩ := h agree.stores
  exact ⟨⟨agree.facts, agrees⟩, ⟨⟨rfl, left⟩, ⟨rfl, right⟩⟩, result⟩

theorem count_steady (f : Counters → Counters) :
    ρ.Steady p (fun _ _ _ => True) (Session.count f) (Session.count f) := fun agree =>
  ⟨⟨agree.facts, agree.stores⟩, ⟨Session.count_grows f _, Session.count_grows f _⟩, trivial⟩

theorem note_steady (name : String) :
    ρ.Steady p (fun _ _ _ => True) (Session.note name) (Session.note name) := fun agree =>
  ⟨⟨agree.facts, agree.stores⟩, ⟨⟨rfl, .refl _⟩, ⟨rfl, .refl _⟩⟩, trivial⟩

theorem fresh_acts : ρ.Acts p ρ.Same Session.fresh Session.fresh := by
  intro agree room
  obtain ⟨agrees, left, right, result⟩ := fresh_made agree.stores room
  exact ⟨⟨agree.facts, agrees⟩, ⟨⟨rfl, left⟩, ⟨rfl, right⟩⟩, result⟩

theorem leaf_steady (l : Leaf) :
    ρ.Steady p ρ.Same (Session.onStore (Store.intern (.leaf l)))
      (Session.onStore (Store.intern (.leaf l))) :=
  onStore_steady (R := ρ.Twins) fun agrees => leaf_made agrees l

theorem input_steady (name : String) :
    ρ.Steady p ρ.Same (Session.input name) (Session.input name) :=
  (note_steady name).then fun _ _ _ _ _ => leaf_steady (.input name)

/-- A variable that both sides have in common. -/
theorem var_steady {v : UInt32} (common : v.toNat < ρ.base) :
    ρ.Steady p ρ.Same (Session.onStore (Store.var v)) (Session.onStore (Store.var v)) :=
  onStore_steady (R := ρ.Twins) fun agrees => var_made agrees common

/-- A name that both sides have in common. -/
theorem named_steady {name : String} (common : (ρ.names name).isSome = true) :
    ρ.Steady p ρ.Same (Session.named name) (Session.named name) :=
  (note_steady name).then fun _ _ _ _ _ =>
    onStore_steady (R := ρ.Twins) fun agrees => namedVar_made agrees common

variable {ts ts' : List TermId}

theorem app_steady (operands : ρ.Sames p ts ts') (op : String) (attrs : Attrs) :
    ρ.Steady p ρ.Same (Session.onStore (Store.app op ts attrs))
      (Session.onStore (Store.app op ts' attrs)) :=
  onStore_steady (R := ρ.Twins) fun agrees => app_made agrees operands op attrs

theorem op_steady (operands : ρ.Sames p ts ts') (raw : String) :
    ρ.Steady p ρ.Same (Session.op raw ts) (Session.op raw ts') :=
  (note_steady _).then fun _ _ _ g _ => app_steady (operands.grow g) _ _

theorem tagged_steady (operands : ρ.Sames p ts ts') (tag : String) (attrs : Attrs) :
    ρ.Steady p ρ.Same (Session.tagged tag ts attrs) (Session.tagged tag ts' attrs) :=
  (note_steady tag).then fun _ _ _ g _ => app_steady (operands.grow g) tag attrs

end Renaming

end Regraft
