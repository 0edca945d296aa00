import Regraft.Match.Modulo
import Regraft.Proofs.Session.Grows

/-
  Where new variables come from. The counter of a tidy store is behind all its variables, so that a new
  variable is none of them (`Store.Tidy.not_knows_fresh`). The counter is a machine word: behind the last
  variable it starts over, and naming that variable leaves it where it is. A store is roomy as long
  as the last variable is not in use. A session becomes later by steps that stay tidy as long as there
  is room (`Session.Later`), and most steps make no variables at all (`Session.Keeps`).
-/

namespace Regraft

namespace Store

variable {st st' st'' : Store} {v : UInt32} {x : Term}

/-- The variable is stored. -/
def Knows (st : Store) (v : UInt32) : Prop := ∃ t, st.term? t = some (.var v)

theorem knows_iff : st.Knows v ↔ ∃ i < st.size, st.var? ⟨i⟩ = some v := by
  simp only [Store.var?_eq_some_iff]
  exact ⟨fun ⟨⟨i⟩, h⟩ => ⟨i, stored_of_term? h, h⟩, fun ⟨i, _, h⟩ => ⟨⟨i⟩, h⟩⟩

/-- A stored variable is found by one look-up. -/
theorem knows_iff_isSome : st.Knows v ↔ (st.terms.numberOf? (.var v)).isSome := by
  simp only [Option.isSome_iff_exists, Numbering.numberOf?_eq_some_iff]
  exact ⟨fun ⟨t, h⟩ => ⟨t.index, h⟩, fun ⟨i, h⟩ => ⟨⟨i⟩, h⟩⟩

instance (st : Store) (v : UInt32) : Decidable (st.Knows v) := decidable_of_iff' _ knows_iff_isSome

theorem Grows.knows (g : st.Grows st') (h : st.Knows v) : st'.Knows v := by
  obtain ⟨t, ht⟩ := h
  exact ⟨t, g.keeps _ _ ht⟩

/-- All variables come before the next new one. -/
def Tidy (st : Store) : Prop := ∀ v, st.Knows v → v < st.nextVar

instance (st : Store) : Decidable st.Tidy :=
  decidable_of_iff (∀ i < st.size, (st.var? ⟨i⟩).all (· < st.nextVar) = true) <| by
    simp only [Tidy, knows_iff, Option.all_eq_true, decide_eq_true_eq]
    exact ⟨fun h v ⟨i, hi, hv⟩ => h i hi v hv, fun h i hi v hv => h v ⟨i, hi, hv⟩⟩

/-- The last variable is not in use. -/
def Roomy (st : Store) : Prop := ¬ st.Knows 0xFFFFFFFF

instance (st : Store) : Decidable st.Roomy := inferInstanceAs (Decidable (¬ _))

theorem Roomy.of_grows (g : st.Grows st') (h : st'.Roomy) : st.Roomy := fun known => h (g.knows known)

/-- Tidy, if there is more to come that makes variables. -/
def TidyUnless (still : Prop) (st : Store) : Prop := ¬ still → st.Tidy

/-- Roomy, if there is more to come that makes variables. -/
def RoomyUnless (still : Prop) (st : Store) : Prop := ¬ still → st.Roomy

theorem Tidy.unless {still : Prop} (h : st.Tidy) : st.TidyUnless still := fun _ => h

theorem Roomy.unless {still : Prop} (h : st.Roomy) : st.RoomyUnless still := fun _ => h

theorem TidyUnless.tidy (h : st.TidyUnless False) : st.Tidy := h id

theorem RoomyUnless.roomy (h : st.RoomyUnless False) : st.Roomy := h id

theorem tidyUnless_true (st : Store) : st.TidyUnless True := absurd trivial

theorem roomyUnless_true (st : Store) : st.RoomyUnless True := absurd trivial

theorem TidyUnless.imp {still still' : Prop} (h : st.TidyUnless still') (weak : still' → still) :
    st.TidyUnless still := fun moves => h (moves ∘ weak)

theorem RoomyUnless.imp {still still' : Prop} (h : st.RoomyUnless still') (weak : still' → still) :
    st.RoomyUnless still := fun moves => h (moves ∘ weak)

theorem RoomyUnless.of_grows {still : Prop} (g : st.Grows st') (h : st'.RoomyUnless still) :
    st.RoomyUnless still := fun moves => .of_grows g (h moves)

/-- The next new variable is not stored. -/
theorem Tidy.not_knows_fresh (h : st.Tidy) : ¬ st.Knows st.nextVar :=
  fun known => UInt32.lt_irrefl _ (h _ known)

/-- What is stored after interning a term was stored before, or is the term. -/
theorem term?_of_intern {t : TermId} {y : Term} (h : (intern x st).2.term? t = some y) :
    st.term? t = some y ∨ y = x := by
  rcases Numbering.get?_insert (x := x) h with h | ⟨-, h⟩
  · exact .inl h
  · exact .inr h

/-- Making a new variable keeps a store tidy as long as there is room. -/
theorem Tidy.fresh (h : st.Tidy) (room : (Store.fresh st).2.Roomy) : (Store.fresh st).2.Tidy := by
  have ne : st.nextVar ≠ 0xFFFFFFFF := fun eq => room ⟨_, eq ▸ term?_fresh st⟩
  have lt : st.nextVar < st.nextVar + 1 := by
    rw [UInt32.lt_iff_toNat_lt, UInt32.toNat_add]
    have := st.nextVar.toNat_lt
    have : st.nextVar.toNat ≠ 4294967295 := fun eq => ne (UInt32.toNat_inj.mp eq)
    simp only [UInt32.toNat_one]
    omega
  rintro v ⟨t, ht⟩
  have stored : st.term? t = some (.var v) ∨ Term.var v = .var st.nextVar := term?_of_intern ht
  rcases stored with old | new
  · exact UInt32.lt_trans (h v ⟨t, old⟩) lt
  · cases new
    exact lt

/-! ## No new variables -/

/-- The same variables are stored, and the same one comes next. -/
structure SameVars (st st' : Store) : Prop where
  next : st'.nextVar = st.nextVar
  knows : ∀ v, st'.Knows v ↔ st.Knows v

theorem SameVars.refl (st : Store) : st.SameVars st := ⟨rfl, fun _ => .rfl⟩

theorem SameVars.trans (h : st.SameVars st') (h' : st'.SameVars st'') : st.SameVars st'' :=
  ⟨h'.next.trans h.next, fun v => (h'.knows v).trans (h.knows v)⟩

theorem intern_sameVars (h : ∀ v, x ≠ .var v) : st.SameVars (intern x st).2 where
  next := rfl
  knows v := by
    refine ⟨fun ⟨t, ht⟩ => ?_, fun ⟨t, ht⟩ => ⟨t, (Numbering.insert_spec x st.terms).2 t.index _ ht⟩⟩
    rcases term?_of_intern ht with old | new
    · exact ⟨t, old⟩
    · exact absurd new.symm (h v)

theorem app_sameVars (op : String) (args : List TermId) (attrs : Attrs) :
    st.SameVars (app op args attrs st).2 := intern_sameVars nofun

end Store

theorem Subst.mapOperands_sameVars {read : TermId → Store → TermId × Store}
    (h : ∀ t st, Store.SameVars st (read t st).2) (ts : List TermId) (st : Store) :
    st.SameVars (Subst.mapOperands read ts st).2 := by
  induction ts generalizing st with
  | nil => exact .refl st
  | cons t rest ih => exact (h t st).trans (ih _)

theorem Subst.reify_sameVars (s : Subst) (t : TermId) (st : Store) :
    st.SameVars (s.reify t st).2 := by
  have within : ∀ n t st, Store.SameVars st (s.reifyWithin n t st).2 := by
    intro n
    induction n with
    | zero => exact fun t st => .refl st
    | succ n ih =>
      intro t st
      rw [reifyWithin]
      split
      · exact .refl st
      · rename_i op args attrs _
        have operands := mapOperands_sameVars ih args st
        generalize mapOperands (s.reifyWithin n) args st = r at operands ⊢
        change Store.SameVars st (if _ then _ else _ : TermId × Store).2
        split
        · exact operands
        · exact operands.trans (Store.app_sameVars ..)
  exact within _ t st

theorem Chain.group_sameVars (c : Chain) (op : String) (positions : List Nat) (st : Store) :
    st.SameVars (c.group op positions st).2 := by
  have nested : ∀ us t st, Store.SameVars st (nest op t us st).2 := by
    intro us
    induction us with
    | nil => exact fun t st => .refl st
    | cons u rest ih => exact fun t st => (Store.app_sameVars ..).trans (ih _ _)
  unfold group
  split
  · exact .refl st
  · exact .refl st
  · simp only
    split
    · exact .refl st
    · exact nested _ _ st

theorem Search.groups_sameVars (op : String) (long : Chain) (assignment slots : List Nat)
    (st : Store) : st.SameVars (groups op long assignment slots st).2 := by
  induction slots generalizing st with
  | nil => exact .refl st
  | cons slot rest ih =>
    have first := long.group_sameVars op (members assignment slot) st
    rw [groups]
    split
    · rename_i h
      rwa [h] at first
    · rename_i t st₁ h
      rw [h] at first
      have later := ih st₁
      split
      · rename_i h
        rw [h] at later
        exact first.trans later
      · rename_i h
        rw [h] at later
        exact first.trans later

/-! ## Sessions -/

namespace Session

variable {a b c ses : Session}

/-- From a session to a later one that has no variables more. -/
structure Keeps (a b : Session) : Prop where
  grows : a.Grows b
  sameVars : a.store.SameVars b.store

/-- From a session to a later one, which is tidy as long as there is room. -/
structure Later (a b : Session) : Prop where
  grows : a.Grows b
  tidy : a.store.Tidy → b.store.Roomy → b.store.Tidy

theorem Keeps.refl (a : Session) : a.Keeps a := ⟨.refl a, .refl a.store⟩

theorem Keeps.trans (h : a.Keeps b) (h' : b.Keeps c) : a.Keeps c :=
  ⟨h.grows.trans h'.grows, h.sameVars.trans h'.sameVars⟩

theorem Keeps.tidy (h : a.Keeps b) (tidy : a.store.Tidy) : b.store.Tidy := by
  intro v known
  rw [h.sameVars.next]
  exact tidy v ((h.sameVars.knows v).mp known)

theorem Keeps.later (h : a.Keeps b) : a.Later b := ⟨h.grows, fun tidy _ => h.tidy tidy⟩

theorem Later.refl (a : Session) : a.Later a := (Keeps.refl a).later

theorem Later.trans (h : a.Later b) (h' : b.Later c) : a.Later c where
  grows := h.grows.trans h'.grows
  tidy tidy room := h'.tidy (h.tidy tidy (.of_grows h'.grows.store room)) room

theorem Later.tidyUnless {still : Prop} (h : a.Later b) (tidy : a.store.TidyUnless still)
    (room : b.store.RoomyUnless still) : b.store.TidyUnless still :=
  fun moves => h.tidy (tidy moves) (room moves)

/-- A kind of change that a session may go through, which allows for steps that make no variables. -/
class Course (L : Session → Session → Prop) : Prop where
  refl : ∀ a, L a a
  trans : ∀ {a b c}, L a b → L b c → L a c
  of_keeps : ∀ {a b : Session}, a.Keeps b → L a b
  grows : ∀ {a b : Session}, L a b → a.Grows b

instance : Course Keeps := ⟨.refl, .trans, id, Keeps.grows⟩

instance : Course Later := ⟨.refl, .trans, Keeps.later, Later.grows⟩

theorem count_keeps (f : Counters → Counters) (ses : Session) : ses.Keeps (count f ses).2 :=
  ⟨count_grows f ses, .refl _⟩

theorem onStore_keeps {α : Type} {f : Store → α × Store} (g : ses.store.Grows (f ses.store).2)
    (same : ses.store.SameVars (f ses.store).2) : ses.Keeps (onStore f ses).2 :=
  ⟨onStore_grows g, same⟩

theorem app_keeps {op : String} {args : List TermId} {attrs : Attrs}
    (h : ∀ u ∈ args, ses.store.Stored u) :
    ses.Keeps (onStore (Store.app op args attrs) ses).2 :=
  onStore_keeps (Store.app_grows h) (Store.app_sameVars ..)

theorem fresh_later (ses : Session) : ses.Later (fresh ses).2 :=
  ⟨fresh_grows ses, Store.Tidy.fresh⟩

end Session

end Regraft
