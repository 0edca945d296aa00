import Regraft.Proofs.Term.Store
import Regraft.Search.Process

/-
  What actions on a session keep: the facts stay, and the store grows.
-/

namespace Regraft

namespace SessionM

/-- What comes first acts on the session first. -/
theorem bind_apply {α β : Type} (x : SessionM α) (f : α → SessionM β) (ses : Session) :
    (x >>= f) ses = f (x ses).1 (x ses).2 := rfl

end SessionM

namespace Session

/-- From a session to a later one. -/
structure Grows (a b : Session) : Prop where
  facts : b.facts = a.facts
  store : a.store.Grows b.store

namespace Grows

theorem refl (a : Session) : a.Grows a := ⟨rfl, .refl a.store⟩

theorem trans {a b c : Session} (hab : a.Grows b) (hbc : b.Grows c) : a.Grows c :=
  ⟨hbc.facts.trans hab.facts, hab.store.trans hbc.store⟩

end Grows

theorem onStore_apply {α : Type} (f : Store → α × Store) (ses : Session) :
    onStore f ses = ((f ses.store).1, { ses with store := (f ses.store).2 }) := rfl

theorem onStore_grows {α : Type} {f : Store → α × Store} {ses : Session}
    (h : ses.store.Grows (f ses.store).2) : ses.Grows (onStore f ses).2 := ⟨rfl, h⟩

theorem count_grows (f : Counters → Counters) (ses : Session) : ses.Grows (count f ses).2 :=
  ⟨rfl, .refl _⟩

theorem fresh_grows (ses : Session) : ses.Grows (fresh ses).2 := onStore_grows (Store.fresh_grows _)

/-- A session that knows some facts and holds some terms, stored one after the other. -/
def holding (F : Facts) (terms : List Term) : Session :=
  { bare with
    store := terms.foldl (fun st x => (Store.intern x st).2) .empty
    facts := F }

end Session

end Regraft
