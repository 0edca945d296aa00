import Regraft.Proofs.Term.Store
import Mathlib.Algebra.GroupWithZero.Nat

/-
  Sequences of calls that make terms. Every call numbers one term, which it may choose by the next
  variable or by a name (`Call.run_terms`), and keeps what is stored (`Call.run_grows`). A store that
  such calls lead to is reached with a log of the terms that were asked for and of their ids
  (`Reached`): the log accounts for all that is stored, and every id keeps its term.

  A variable that is made new is none of those that were returned before, unless the last index has been
  among them (`Reached.new_ne`): behind it the counter starts over, and naming it leaves the counter
  where it is. With given indices below some bound, the last index is out of reach for as many calls as
  there are indices from that bound on (`Reached.lt_bound`). A name always gets the same variable
  (`Reached.id_eq_of_namedVar`).
-/

namespace Regraft.Store

variable {st st' : Store}

/-! ## Calls -/

/-- A call that makes a term. -/
inductive Call
  | var (index : UInt32)
  | fresh
  | namedVar (name : String)
  | constant (value : Tensor) (elem : ElemType)
  | scalar (x : Float)
  | input (name : String)
  | app (op : String) (args : List TermId) (attrs : Attrs)
deriving DecidableEq

namespace Call

/-- The id that a call returns, and the store after it. -/
def run : Call → Store → TermId × Store
  | var i => Store.var i
  | fresh => Store.fresh
  | namedVar name => Store.namedVar name
  | constant value elem => Store.constant (.ofTensor value elem)
  | scalar x => Store.scalar x
  | input name => Store.input name
  | app op args attrs => Store.app op args attrs

/-- The term that a call asks for. A new variable has the next index, and so has one of a new name. -/
def term (st : Store) : Call → Term
  | var i => .var i
  | fresh => .var st.nextVar
  | namedVar name => .var ((st.named.lookup name).getD st.nextVar)
  | constant value elem => .leaf (.const (.ofTensor value elem))
  | scalar x => .leaf (.const (.scalar x))
  | input name => .leaf (.input name)
  | app op args attrs => .app op args attrs

/-- The ids that a call is given. -/
def operands : Call → List TermId
  | app _ args _ => args
  | _ => []

/-- A call numbers the term that it asks for. -/
theorem run_terms (c : Call) (st : Store) :
    (c.run st).1.index = (st.terms.insert (c.term st)).1 ∧
      (c.run st).2.terms = (st.terms.insert (c.term st)).2 := by
  cases c with
  | namedVar name =>
    simp only [run, Store.namedVar, term]
    cases st.named.lookup name <;> exact ⟨rfl, rfl⟩
  | _ => exact ⟨rfl, rfl⟩

theorem term?_run (c : Call) (st : Store) : (c.run st).2.term? (c.run st).1 = some (c.term st) := by
  obtain ⟨id, terms⟩ := c.run_terms st
  rw [term?, id, terms]
  exact (Numbering.insert_spec _ _).1

/-- What is stored after a call was stored before, or is what the call has asked for. -/
theorem term?_of_run {c : Call} {t : TermId} {x : Term} (h : (c.run st).2.term? t = some x) :
    st.term? t = some x ∨ x = c.term st := by
  rw [term?, (c.run_terms st).2] at h
  exact (Numbering.get?_insert h).imp_right (·.2)

/-- A call keeps what is stored, and makes an application behind its operands. -/
theorem run_grows {c : Call} (h : ∀ u ∈ c.operands, st.Stored u) : st.Grows (c.run st).2 where
  keeps t x ht := by
    rw [term?, (c.run_terms st).2]
    exact (Numbering.insert_spec _ _).2 _ _ ht
  valid hv t op args attrs ht u hu := by
    rw [term?, (c.run_terms st).2] at ht
    rcases Numbering.get?_insert ht with old | ⟨last, asked⟩
    · exact hv t op args attrs old u hu
    · have operands : c.operands = args := by
        cases c with
        | app op args attrs =>
          cases asked
          rfl
        | _ => cases asked
      rw [last]
      exact h u (operands ▸ hu)

end Call

/-! ## Logs -/

/-- What a call has made. -/
structure Made where
  call : Call
  term : Term
  id : TermId
deriving DecidableEq

/-- The stores that calls lead to from the empty store, each call with ids that were returned before,
    and the log of the calls, oldest first. -/
inductive Reached : List Made → Store → Prop
  | empty : Reached [] .empty
  | call {log : List Made} {st : Store} (reached : Reached log st) (c : Call)
      (known : ∀ u ∈ c.operands, ∃ m ∈ log, m.id = u) :
      Reached (log ++ [⟨c, c.term st, (c.run st).1⟩]) (c.run st).2

variable {log earlier later : List Made} {m : Made} {c : Call} {x : Term} {name : String} {v : UInt32}

namespace Reached

/-- Ids that were returned are ids of stored terms. -/
theorem stored_of_known {ids : List TermId} (resolves : ∀ m ∈ log, st.term? m.id = some m.term)
    (known : ∀ u ∈ ids, ∃ m ∈ log, m.id = u) : ∀ u ∈ ids, st.Stored u := by
  intro u hu
  obtain ⟨m, mem, rfl⟩ := known u hu
  exact stored_of_term? (resolves m mem)

/-- Every id keeps its term. -/
theorem resolves (h : Reached log st) : ∀ m ∈ log, st.term? m.id = some m.term := by
  induction h with
  | empty => exact List.forall_mem_nil _
  | @call log st reached c known ih =>
    intro m mem
    rcases List.mem_append.mp mem with mem | mem
    · exact (Call.run_grows (stored_of_known ih known)).keeps _ _ (ih m mem)
    · rw [List.mem_singleton.mp mem]
      exact c.term?_run st

theorem valid (h : Reached log st) : st.Valid := by
  induction h with
  | empty => exact valid_empty
  | call reached c known ih =>
    exact (Call.run_grows (stored_of_known reached.resolves known)).valid ih

/-- All that is stored has been asked for. -/
theorem exists_made (h : Reached log st) {t : TermId} (ht : st.term? t = some x) :
    ∃ m ∈ log, m.term = x := by
  induction h with
  | empty => simp [term?, Store.empty, Numbering.get?, Numbering.empty] at ht
  | @call log st reached c known ih =>
    rcases Call.term?_of_run ht with old | rfl
    · obtain ⟨m, mem, eq⟩ := ih old
      exact ⟨m, List.mem_append_left _ mem, eq⟩
    · exact ⟨_, List.mem_append_right _ (.head _), rfl⟩

/-- An entry is what its call has made in the store that the calls before it lead to. -/
theorem exists_before (h : Reached log st) (split : log = earlier ++ m :: later) :
    ∃ st₀ c, Reached earlier st₀ ∧ m = ⟨c, c.term st₀, (c.run st₀).1⟩ := by
  induction h generalizing later with
  | empty => simp at split
  | @call log st reached c known ih =>
    rcases List.eq_nil_or_concat later with rfl | ⟨later, last, rfl⟩
    · obtain ⟨rfl, eq⟩ := List.append_inj' split rfl
      exact ⟨st, c, reached, (List.cons.inj eq).1.symm⟩
    · rw [List.concat_eq_append, ← List.cons_append, ← List.append_assoc] at split
      exact ih (List.append_inj' split rfl).1

/-- Two calls return one id when they ask for the same term. -/
theorem id_eq_iff (h : Reached log st) {n : Made} (hm : m ∈ log) (hn : n ∈ log) :
    m.id = n.id ↔ m.term = n.term := by
  constructor
  · intro eq
    have same := h.resolves n hn
    rw [← eq, h.resolves m hm] at same
    exact Option.some.inj same
  · intro eq
    exact term?_inj (h.resolves m hm) (eq ▸ h.resolves n hn)

end Reached

/-! ## What a call does to the counter and to the names -/

/-- A call for a variable. -/
def Call.isVariable : Call → Bool
  | var _ => true
  | fresh => true
  | namedVar _ => true
  | _ => false

/-- From a store to the one after a call that has asked for a term: the next variable, and the names of
    variables. -/
inductive Counts (st : Store) : Call → Term → Store → Prop
  | var {st' : Store} (i : UInt32) (next : st'.nextVar = max st.nextVar (nextIndex i))
      (named : st'.named = st.named) : Counts st (.var i) (.var i) st'
  | fresh {st' : Store} (next : st'.nextVar = st.nextVar + 1) (named : st'.named = st.named) :
      Counts st .fresh (.var st.nextVar) st'
  | known {st' : Store} {name : String} {v : UInt32} (lookup : st.named.lookup name = some v)
      (next : st'.nextVar = st.nextVar) (named : st'.named = st.named) :
      Counts st (.namedVar name) (.var v) st'
  | new {st' : Store} {name : String} (lookup : st.named.lookup name = none)
      (next : st'.nextVar = st.nextVar + 1) (named : st'.named = (name, st.nextVar) :: st.named) :
      Counts st (.namedVar name) (.var st.nextVar) st'
  | other {st' : Store} {c : Call} {x : Term} (call : c.isVariable = false) (term : ∀ v, x ≠ .var v)
      (next : st'.nextVar = st.nextVar) (named : st'.named = st.named) : Counts st c x st'

theorem Call.counts (c : Call) (st : Store) : Counts st c (c.term st) (c.run st).2 := by
  cases c with
  | var i => exact .var i rfl rfl
  | fresh => exact .fresh rfl rfl
  | namedVar name =>
    simp only [run, Store.namedVar, term]
    cases lookup : st.named.lookup name with
    | some v => exact .known lookup rfl rfl
    | none => exact .new lookup rfl rfl
  | _ => exact .other rfl nofun rfl rfl

theorem toNat_max (a b : UInt32) : (max a b).toNat = max a.toNat b.toNat := by
  change (if a ≤ b then b else a).toNat = _
  rw [Nat.max_def]
  split <;> rename_i h <;> simp only [UInt32.le_iff_toNat_le] at h <;> simp only [h, if_true, if_false]

namespace Counts

/-- A name keeps its variable. -/
theorem lookup_keeps (h : Counts st c x st') (lookup : st.named.lookup name = some v) :
    st'.named.lookup name = some v := by
  cases h with
  | @new _ other absent next named =>
    have ne : name ≠ other := by
      rintro rfl
      rw [absent] at lookup
      cases lookup
    rw [named, List.lookup_cons, beq_false_of_ne ne]
    exact lookup
  | _ => simp_all only

/-- A call for a name asks for the variable that the name then has. -/
theorem exists_lookup (h : Counts st (.namedVar name) x st') :
    ∃ v, st'.named.lookup name = some v ∧ x = .var v := by
  cases h with
  | known lookup next named => exact ⟨_, named ▸ lookup, rfl⟩
  | new lookup next named => exact ⟨_, named ▸ List.lookup_cons_self, rfl⟩
  | other call => cases call

/-- Only a call for a name gives it a variable. -/
theorem lookup_or_call (h : Counts st c x st') (lookup : st'.named.lookup name = some v) :
    st.named.lookup name = some v ∨ c = .namedVar name := by
  cases h with
  | @new _ other absent next named =>
    by_cases eq : name = other
    · exact .inr (eq ▸ rfl)
    · rw [named, List.lookup_cons, beq_false_of_ne eq] at lookup
      exact .inl lookup
  | _ => simp_all only [true_or]

/-- Unless a call asks for the last index, no index is lost, and the variable that it asks for is behind
    the next one or the variable of a name. -/
theorem lt_nextVar (h : Counts st c x st') (ne : x ≠ .var 0xFFFFFFFF) :
    st.nextVar.toNat ≤ st'.nextVar.toNat ∧ ∀ v, x = .var v →
      v.toNat < st'.nextVar.toNat ∨ ∃ name, st.named.lookup name = some v := by
  have succ : ∀ v, Term.var v ≠ .var 0xFFFFFFFF → v.toNat < (v + 1).toNat := fun v ne =>
    UInt32.lt_iff_toNat_lt.mp (UInt32.lt_add_one fun eq => ne (congrArg Term.var eq))
  cases h with
  | var i next named =>
    have index : nextIndex i = i + 1 := if_neg fun eq => ne (congrArg Term.var eq)
    rw [next, index, toNat_max]
    refine ⟨Nat.le_max_left .., fun v eq => .inl ?_⟩
    cases eq
    exact Nat.lt_of_lt_of_le (succ i ne) (Nat.le_max_right ..)
  | fresh next named =>
    rw [next]
    refine ⟨Nat.le_of_lt (succ _ ne), fun v eq => .inl ?_⟩
    cases eq
    exact succ _ ne
  | known lookup next named =>
    rw [next]
    refine ⟨Nat.le_refl _, fun v eq => .inr ?_⟩
    cases eq
    exact ⟨_, lookup⟩
  | new lookup next named =>
    rw [next]
    refine ⟨Nat.le_of_lt (succ _ ne), fun v eq => .inl ?_⟩
    cases eq
    exact succ _ ne
  | other call term next named =>
    rw [next]
    exact ⟨Nat.le_refl _, fun v eq => absurd eq (term v)⟩

/-- The next variable moves by one at most, or behind the index that is given. -/
theorem nextVar_le (h : Counts st c x st') {bound : Nat} (given : ∀ i, c = .var i → i.toNat < bound)
    {k : Nat} (le : st.nextVar.toNat ≤ bound + k) : st'.nextVar.toNat ≤ bound + (k + 1) ∧
      ∀ v, x = .var v → v.toNat < bound + (k + 1) ∨ ∃ name, st.named.lookup name = some v := by
  have succ : ∀ v : UInt32, (v + 1).toNat ≤ v.toNat + 1 := fun v => by
    rw [UInt32.toNat_add]
    exact Nat.mod_le _ _
  cases h with
  | var i next named =>
    have lt := given i rfl
    have index : (nextIndex i).toNat ≤ i.toNat + 1 := by
      unfold nextIndex
      split
      · exact Nat.le_succ _
      · exact succ i
    rw [next, toNat_max]
    refine ⟨by omega, fun v eq => .inl ?_⟩
    cases eq
    omega
  | fresh next named =>
    have := succ st.nextVar
    rw [next]
    refine ⟨by omega, fun v eq => .inl ?_⟩
    cases eq
    omega
  | known lookup next named =>
    rw [next]
    refine ⟨by omega, fun v eq => .inr ?_⟩
    cases eq
    exact ⟨_, lookup⟩
  | new lookup next named =>
    have := succ st.nextVar
    rw [next]
    refine ⟨by omega, fun v eq => .inl ?_⟩
    cases eq
    omega
  | other call term next named =>
    rw [next]
    exact ⟨by omega, fun v eq => absurd eq (term v)⟩

end Counts

/-! ## Names -/

namespace Reached

/-- What was made for a name is the variable that the name has. -/
theorem exists_lookup (h : Reached log st) (hm : m ∈ log) (call : m.call = .namedVar name) :
    ∃ v, st.named.lookup name = some v ∧ m.term = .var v := by
  induction h with
  | empty => cases hm
  | @call log st reached c known ih =>
    have counts := c.counts st
    rcases List.mem_append.mp hm with old | new
    · obtain ⟨v, lookup, term⟩ := ih old
      exact ⟨v, counts.lookup_keeps lookup, term⟩
    · obtain rfl := List.mem_singleton.mp new
      obtain rfl : c = .namedVar name := call
      exact counts.exists_lookup

/-- A name has a variable when there was a call for it. -/
theorem exists_namedVar (h : Reached log st) (lookup : st.named.lookup name = some v) :
    ∃ m ∈ log, m.call = .namedVar name := by
  induction h with
  | empty => cases lookup
  | @call log st reached c known ih =>
    rcases (c.counts st).lookup_or_call lookup with old | rfl
    · obtain ⟨m, mem, call⟩ := ih old
      exact ⟨m, List.mem_append_left _ mem, call⟩
    · exact ⟨_, List.mem_append_right _ (.head _), rfl⟩

theorem id_eq_of_namedVar (h : Reached log st) {n : Made} (hm : m ∈ log) (hn : n ∈ log)
    (first : m.call = .namedVar name) (second : n.call = .namedVar name) : m.id = n.id := by
  obtain ⟨v, lookup, term⟩ := h.exists_lookup hm first
  obtain ⟨w, lookup', term'⟩ := h.exists_lookup hn second
  rw [lookup] at lookup'
  cases lookup'
  exact (h.id_eq_iff hm hn).mpr (term.trans term'.symm)

/-- The variable of a name has been returned. -/
theorem exists_of_lookup (h : Reached log st) (lookup : st.named.lookup name = some v) :
    ∃ m ∈ log, m.term = .var v := by
  obtain ⟨m, mem, call⟩ := h.exists_namedVar lookup
  obtain ⟨w, lookup', term⟩ := h.exists_lookup mem call
  rw [lookup] at lookup'
  cases lookup'
  exact ⟨m, mem, term⟩

end Reached

/-! ## New variables -/

/-- An entry of a log that is to be a new variable: the next one, or the one of a new name. -/
def Made.New (earlier : List Made) (m : Made) : Prop :=
  m.call = .fresh ∨ ∃ name, m.call = .namedVar name ∧ ∀ e ∈ earlier, e.call ≠ .namedVar name

namespace Reached

/-- As long as the last index has not been returned, the next variable is behind all that have. -/
theorem lt_nextVar (h : Reached log st) (last : ∀ m ∈ log, m.term ≠ .var 0xFFFFFFFF) (hm : m ∈ log)
    (term : m.term = .var v) : v.toNat < st.nextVar.toNat := by
  induction h generalizing m v with
  | empty => cases hm
  | @call log st reached c known ih =>
    have old : ∀ {m v}, m ∈ log → m.term = .var v → v.toNat < st.nextVar.toNat :=
      ih fun e he => last e (List.mem_append_left _ he)
    obtain ⟨le, asked⟩ := (c.counts st).lt_nextVar (last _ (List.mem_append_right _ (.head _)))
    rcases List.mem_append.mp hm with hm | new
    · exact Nat.lt_of_lt_of_le (old hm term) le
    · obtain rfl := List.mem_singleton.mp new
      rcases asked v term with lt | ⟨name, lookup⟩
      · exact lt
      · obtain ⟨e, he, term⟩ := reached.exists_of_lookup lookup
        exact Nat.lt_of_lt_of_le (old he term) le

/-- A new variable is none of those that were returned before, unless the last index is among them. -/
theorem new_ne (h : Reached log st) (split : log = earlier ++ m :: later) (new : m.New earlier)
    (last : ∀ e ∈ earlier, e.term ≠ .var 0xFFFFFFFF) : ∀ e ∈ earlier, e.id ≠ m.id := by
  obtain ⟨st₀, c, before, rfl⟩ := h.exists_before split
  have term : c.term st₀ = .var st₀.nextVar := by
    rcases new with rfl | ⟨name, rfl, absent⟩
    · rfl
    · cases lookup : st₀.named.lookup name with
      | none => rw [Call.term, lookup, Option.getD_none]
      | some v =>
        obtain ⟨e, he, call⟩ := before.exists_namedVar lookup
        exact absurd call (absent e he)
  intro e he eq
  have mem : e ∈ log := split ▸ List.mem_append_left _ he
  have mem' : ⟨c, c.term st₀, (c.run st₀).1⟩ ∈ log := split ▸ List.mem_append_right _ (.head _)
  have same : e.term = .var st₀.nextVar := ((h.id_eq_iff mem mem').mp eq).trans term
  exact Nat.lt_irrefl _ (before.lt_nextVar last he same)

/-- With given indices below some bound, all variables are among as many from there on as there were
    calls. -/
theorem lt_bound (h : Reached log st) {bound : Nat}
    (given : ∀ m ∈ log, ∀ i, m.call = .var i → i.toNat < bound) :
    st.nextVar.toNat ≤ bound + log.length ∧
      ∀ m ∈ log, ∀ v, m.term = .var v → v.toNat < bound + log.length := by
  induction h with
  | empty => exact ⟨Nat.zero_le _, List.forall_mem_nil _⟩
  | @call log st reached c known ih =>
    obtain ⟨le, old⟩ := ih fun m hm => given m (List.mem_append_left _ hm)
    obtain ⟨le', asked⟩ := (c.counts st).nextVar_le (given _ (List.mem_append_right _ (.head _))) le
    rw [List.length_append, List.length_singleton]
    refine ⟨le', fun m hm v term => ?_⟩
    rcases List.mem_append.mp hm with hm | new
    · exact Nat.lt_succ_of_lt (old m hm v term)
    · obtain rfl := List.mem_singleton.mp new
      rcases asked v term with lt | ⟨name, lookup⟩
      · exact lt
      · obtain ⟨e, he, term⟩ := reached.exists_of_lookup lookup
        exact Nat.lt_succ_of_lt (old e he v term)

/-- Several new variables are made by as many calls. -/
theorem freshVars (h : Reached log st) (count : Nat) : ∃ made, Reached (log ++ made) (st.freshVars count).2 ∧
    made.map Made.id = (st.freshVars count).1 ∧ ∀ m ∈ made, m.call = .fresh := by
  induction count generalizing log st with
  | zero => exact ⟨[], by rwa [List.append_nil], rfl, List.forall_mem_nil _⟩
  | succ count ih =>
    obtain ⟨made, reached, ids, calls⟩ := ih (h.call .fresh nofun)
    refine ⟨⟨.fresh, Call.fresh.term st, (Call.fresh.run st).1⟩ :: made, ?_, ?_, ?_⟩
    · rw [List.append_assoc] at reached
      exact reached
    · rw [List.map_cons, ids]
      rfl
    · exact List.forall_mem_cons.mpr ⟨rfl, calls⟩

/-- A call for a variable returns one, the one of the given index if there is any. -/
theorem exists_var (h : Reached log st) (hm : m ∈ log) (call : m.call.isVariable = true) :
    ∃ v, st.var? m.id = some v ∧ ∀ i, m.call = .var i → v = i := by
  obtain ⟨earlier, later, split⟩ := List.append_of_mem hm
  obtain ⟨st₀, c, -, rfl⟩ := h.exists_before split
  have stored := h.resolves _ hm
  simp only [var?_eq_some_iff]
  cases c with
  | var i =>
    refine ⟨i, stored, fun j eq => ?_⟩
    cases eq
    rfl
  | fresh => exact ⟨_, stored, nofun⟩
  | namedVar name => exact ⟨_, stored, nofun⟩
  | _ => cases call

/-- Calls for variables, any number of new ones at a time. All return variables, and a name always the
    same one. A new variable is none of those before it, as long as the last index is not among them. It
    is not when the indices that are given, together with the number of calls, do not come up to it. -/
theorem variables_distinct (h : Reached log st) :
    (∀ count, ∃ made, Reached (log ++ made) (st.freshVars count).2 ∧
      made.map Made.id = (st.freshVars count).1 ∧ ∀ m ∈ made, m.call = .fresh) ∧
    (∀ m ∈ log, m.call.isVariable = true → ∃ v, st.var? m.id = some v ∧ ∀ i, m.call = .var i → v = i) ∧
    (∀ name, ∀ m ∈ log, ∀ n ∈ log, m.call = .namedVar name → n.call = .namedVar name → m.id = n.id) ∧
    (∀ earlier m later, log = earlier ++ m :: later → m.New earlier →
      (∀ e ∈ earlier, e.term ≠ .var 0xFFFFFFFF) → ∀ e ∈ earlier, e.id ≠ m.id) ∧
    ∀ bound, (∀ m ∈ log, ∀ i, m.call = .var i → i.toNat < bound) → bound + log.length < 2 ^ 32 →
      ∀ m ∈ log, m.term ≠ .var 0xFFFFFFFF := by
  refine ⟨h.freshVars, fun m hm => h.exists_var hm, fun name m hm n hn => h.id_eq_of_namedVar hm hn,
    fun earlier m later => h.new_ne, fun bound given room m hm term => ?_⟩
  have lt : (0xFFFFFFFF : UInt32).toNat < bound + log.length := (h.lt_bound given).2 m hm _ term
  have last : (0xFFFFFFFF : UInt32).toNat = 2 ^ 32 - 1 := rfl
  omega

end Reached

/-- A variable of a given index, a new one, two calls for one name, and another new one. -/
def fewCalls : List Call := [.var 7, .fresh, .namedVar "X", .namedVar "X", .fresh]

theorem exists_variables_distinct_fewCalls : ∃ log st, Reached log st ∧ log.map Made.call = fewCalls ∧
    log.map Made.term = [.var 7, .var 8, .var 9, .var 9, .var 10] ∧
    log.map Made.id = [⟨0⟩, ⟨1⟩, ⟨2⟩, ⟨2⟩, ⟨3⟩] ∧ (st.freshVars 2).1 = [⟨4⟩, ⟨5⟩] ∧
    (∀ m ∈ log, ∀ n ∈ log, m.call = .namedVar "X" → n.call = .namedVar "X" → m.id = n.id) ∧
    ∀ earlier m later, log = earlier ++ m :: later → m.New earlier → ∀ e ∈ earlier, e.id ≠ m.id := by
  have reached := ((((Reached.empty.call (.var 7) nofun).call .fresh nofun).call (.namedVar "X")
    nofun).call (.namedVar "X") nofun).call .fresh nofun
  obtain ⟨-, -, named, new, room⟩ := reached.variables_distinct
  refine ⟨_, _, reached, rfl, by decide +kernel, by decide +kernel, by decide +kernel, named "X",
    fun earlier m later split isNew e he => ?_⟩
  refine new earlier m later split isNew (fun e he => ?_) e he
  refine room 8 (fun m hm i call => ?_) (by decide +kernel) e (split ▸ List.mem_append_left _ he)
  have mem : Call.var i ∈ fewCalls := call ▸ List.mem_map_of_mem hm
  have index : i = 7 := by simpa [fewCalls] using mem
  rw [index]
  decide

/-- Behind the last variable the next new one is the last variable again. -/
theorem exists_not_new_lastVariable : ∃ log st, Reached log st ∧
    log = [⟨.var 0xFFFFFFFF, .var 0xFFFFFFFF, ⟨0⟩⟩, ⟨.fresh, .var 0xFFFFFFFF, ⟨0⟩⟩] := by
  have reached := (Reached.empty.call (.var 0xFFFFFFFF) nofun).call .fresh nofun
  exact ⟨_, _, reached, by decide +kernel⟩

end Regraft.Store
