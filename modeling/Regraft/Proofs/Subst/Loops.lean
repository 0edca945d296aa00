import Regraft.Proofs.Subst.Reify

/-
  Reading terms by loops over stacks. One loop reifies: it takes a place from a stack of work and puts
  the operands of an application on it, above a mark that the application is to be made again from as
  many results as it has operands. The other loop looks for a variable. Both end with what the
  recursion along the operands gives (`Sound.reify_runs`, `Sound.firstUnbound_runs`), and that is the
  term with bindings put in, of which the variable is the leftmost (`Sound.reify_reified`).
-/

namespace Regraft

open Relation

namespace Subst

variable {s : Subst} {st : Store} {t : TermId}

/-! ## Reifying -/

/-- Places that are to be reified, or made again if they are marked, the results so far, the last one
    first, and the store. -/
structure Reifying where
  work : List (TermId × Bool)
  results : List TermId
  store : Store

namespace Reifying

/-- One turn. There is none without work, nor with fewer results than operands. -/
def turn (s : Subst) : Reifying → Option Reifying
  | ⟨[], _, _⟩ => none
  | ⟨(t, false) :: work, results, st⟩ =>
    let u := s.deref st t
    match st.app? u with
    | some (_, a :: args, _) => some ⟨(a :: args).map (·, false) ++ (u, true) :: work, results, st⟩
    | _ => some ⟨work, u :: results, st⟩
  | ⟨(t, true) :: work, results, st⟩ =>
    match st.app? t with
    | none => some ⟨work, results, st⟩
    | some (op, args, attrs) =>
      if results.length < args.length then none else
        let args' := (results.take args.length).reverse
        let results := results.drop args.length
        if args' = args then some ⟨work, t :: results, st⟩ else
          let (u, st) := st.app op args' attrs
          some ⟨work, u :: results, st⟩

/-- From one state to another by turns. -/
def Runs (s : Subst) : Reifying → Reifying → Prop := ReflTransGen fun a b => a.turn s = some b

end Reifying

/-- Above all other work, a place is replaced by its result. -/
def Visits (s : Subst) (read : TermId → Store → TermId × Store) (st : Store) (t : TermId) : Prop :=
  ∀ work results, Reifying.Runs s ⟨(t, false) :: work, results, st⟩
    ⟨work, (read t st).1 :: results, (read t st).2⟩

theorem length_mapOperands (read : TermId → Store → TermId × Store) (ts : List TermId) (st : Store) :
    (mapOperands read ts st).1.length = ts.length := by
  induction ts generalizing st with
  | nil => rfl
  | cons t rest ih => exact congrArg (· + 1) (ih _)

/-- Operands are visited one after the other, from the left. -/
theorem mapOperands_visits {read : TermId → Store → TermId × Store} {ts : List TermId}
    (each : ∀ t ∈ ts, ∀ st', st.Grows st' → Visits s read st' t ∧ st'.Grows (read t st').2)
    (work : List (TermId × Bool)) (results : List TermId) :
    Reifying.Runs s ⟨ts.map (·, false) ++ work, results, st⟩
      ⟨work, (mapOperands read ts st).1.reverse ++ results, (mapOperands read ts st).2⟩ := by
  induction ts generalizing st results with
  | nil => exact .refl
  | cons t rest ih =>
    obtain ⟨visits, grows⟩ := each t (.head _) st (.refl st)
    have later := ih (fun u hu st' g => each u (.tail _ hu) st' (grows.trans g)) ((read t st).1 :: results)
    rw [mapOperands, List.reverse_cons, List.append_assoc]
    exact (visits _ results).trans later

/-- A marked application is made again from the results of its operands. -/
theorem Reifying.turn_marked {op : String} {args us : List TermId} {attrs : Attrs}
    (h : st.term? t = some (.app op args attrs)) (length : us.length = args.length)
    (work : List (TermId × Bool)) (results : List TermId) :
    Reifying.turn s ⟨(t, true) :: work, us.reverse ++ results, st⟩ =
      let r := if us = args then (t, st) else st.app op us attrs
      some ⟨work, r.1 :: results, r.2⟩ := by
  have enough : ¬ (us.reverse ++ results).length < args.length := by
    rw [List.length_append, List.length_reverse]
    omega
  have taken : (us.reverse ++ results).take args.length = us.reverse :=
    List.take_left' (List.length_reverse.trans length)
  have left : (us.reverse ++ results).drop args.length = results :=
    List.drop_left' (List.length_reverse.trans length)
  rw [turn, Store.app?_eq_some_iff.mpr h]
  simp only [if_neg enough, taken, left, List.reverse_reverse]
  split <;> rfl

/-- A place is visited by the turns that its operands need, and one for itself. -/
theorem Sound.reifyWithin_visits (hs : s.Sound st) (ht : st.Stored t) {n : Nat}
    (hn : (s.tree st t).depth < n) : Visits s (s.reifyWithin n) st t := by
  induction n generalizing st t with
  | zero => omega
  | succ n ih =>
    intro work results
    rw [reifyWithin]
    split
    · rename_i h
      exact .single (by rw [Reifying.turn, h])
    · rename_i op args attrs h
      cases args with
      | nil => exact .single (by rw [Reifying.turn, h]; rfl)
      | cons a rest =>
        have turn : Reifying.turn s ⟨(t, false) :: work, results, st⟩ =
            some ⟨(a :: rest).map (·, false) ++ (s.deref st t, true) :: work, results, st⟩ := by
          rw [Reifying.turn, h]
        rw [Store.app?_eq_some_iff] at h
        have each : ∀ u ∈ a :: rest, ∀ st', st.Grows st' →
            Visits s (s.reifyWithin n) st' u ∧ Reads st' (s.tree st u) (s.reifyWithin n u st') := by
          intro u mem st' g
          obtain ⟨hs', stored, same, lt⟩ := hs.operand_grows h mem g
          rw [← same] at lt ⊢
          exact ⟨ih hs' stored (by omega), hs'.reifyWithin_reads stored (by omega)⟩
        have operands := mapOperands_visits (fun u hu st' g => (each u hu st' g).imp_right Reads.grows)
          ((s.deref st t, true) :: work) results
        have grows := (mapOperands_reads hs.valid fun u hu st' g => (each u hu st' g).2).1
        have marked := Reifying.turn_marked (s := s) (grows.keeps _ _ h)
          (length_mapOperands (s.reifyWithin n) (a :: rest) st) work results
        exact .head turn (operands.tail marked)

/-- The loop ends with the reified term as its only result. -/
theorem Sound.reify_runs (hs : s.Sound st) (ht : st.Stored t) :
    Reifying.Runs s ⟨[(t, false)], [], st⟩ ⟨[], [(s.reify t st).1], (s.reify t st).2⟩ :=
  hs.reifyWithin_visits ht (hs.depth_tree_lt t) [] []

/-! ## Looking for a variable -/

/-- The places that are to be searched, the next one first, or what has been found. -/
inductive Searching
  | stack (places : List TermId)
  | done (found : Option UInt32)

namespace Searching

/-- One turn. The operands of an application come before the other places. -/
def turn (s : Subst) (st : Store) : Searching → Option Searching
  | stack [] => some (done none)
  | stack (t :: rest) => match st.term? (s.deref st t) with
    | some (.var v) => some (done (some v))
    | some (.app _ args _) => some (stack (args ++ rest))
    | _ => some (stack rest)
  | done _ => none

/-- From one state to another by turns. -/
def Runs (s : Subst) (st : Store) : Searching → Searching → Prop :=
  ReflTransGen fun a b => a.turn s st = some b

/-- The search is done when a variable was found, and goes on with other places otherwise. -/
def after (rest : List TermId) : Option UInt32 → Searching
  | some v => done (some v)
  | none => stack rest

end Searching

/-- Places are searched one after the other until a variable is found. -/
theorem findSome?_runs {find : TermId → Option UInt32} {ts : List TermId}
    (each : ∀ t ∈ ts, ∀ rest, Searching.Runs s st (.stack (t :: rest)) (.after rest (find t)))
    (rest : List TermId) :
    Searching.Runs s st (.stack (ts ++ rest)) (.after rest (ts.findSome? find)) := by
  induction ts with
  | nil => exact .refl
  | cons t ts ih =>
    have first := each t (.head _) (ts ++ rest)
    rw [List.findSome?_cons]
    cases found : find t with
    | some v =>
      rw [found] at first
      exact first
    | none =>
      rw [found] at first
      exact first.trans (ih fun u hu => each u (.tail _ hu))

theorem Sound.firstUnboundWithin_runs (hs : s.Sound st) {n : Nat} (hn : (s.tree st t).depth < n)
    (rest : List TermId) : Searching.Runs s st (.stack (t :: rest))
      (.after rest (s.firstUnboundWithin st n t)) := by
  induction n generalizing t rest with
  | zero => omega
  | succ n ih =>
    have turn : ∀ {a}, Searching.turn s st (.stack (t :: rest)) = some a →
        Searching.Runs s st (.stack (t :: rest)) a := fun one => .single one
    rw [firstUnboundWithin]
    split
    · rename_i h
      exact turn (by rw [Searching.turn, h]; rfl)
    · rename_i op args attrs h
      refine (turn (by rw [Searching.turn, h])).trans (findSome?_runs (fun u mem rest => ih ?_ rest) rest)
      obtain ⟨-, -, -, lt⟩ := hs.operand_grows h mem (.refl st)
      omega
    · rename_i noVar noApp
      refine turn ?_
      rw [Searching.turn]
      split
      · exact absurd ‹_› (noVar _)
      · exact absurd ‹_› (noApp _ _ _)
      · rfl

/-- The loop ends with the first unbound variable. -/
theorem Sound.firstUnbound_runs (hs : s.Sound st) (t : TermId) :
    Searching.Runs s st (.stack [t]) (.done (s.firstUnbound st t)) := by
  have run := hs.firstUnboundWithin_runs (hs.depth_tree_lt t) []
  change Searching.Runs s st _ (.after [] (s.firstUnbound st t)) at run
  cases found : s.firstUnbound st t with
  | some v =>
    rw [found] at run
    exact run
  | none =>
    rw [found] at run
    exact run.tail rfl

/-! ## Bindings put in -/

/-- What a term is with its bindings put in: a bound variable is what its binding is, an unbound one
    stays, and an application keeps operator, attributes and number of operands. -/
inductive Reified (s : Subst) (st : Store) : TermId → Tree → Prop
  | bound {t u : TermId} {v : UInt32} {x : Tree} (var : st.term? t = some (.var v))
      (binding : s.get? v = some u) (reified : Reified s st u x) : Reified s st t x
  | unbound {t : TermId} {v : UInt32} (var : st.term? t = some (.var v)) (free : s.get? v = none) :
      Reified s st t (.var v)
  | leaf {t : TermId} {l : Leaf} (leaf : st.term? t = some (.leaf l)) : Reified s st t (.leaf l)
  | app {t : TermId} {op : String} {args : List TermId} {xs : List Tree} {attrs : Attrs}
      (app : st.term? t = some (.app op args attrs)) (length : args.length = xs.length)
      (operands : ∀ {u x}, (u, x) ∈ args.zip xs → Reified s st u x) : Reified s st t (.app op xs attrs)

/-- With bindings put in, a term is its tree under the substitution. -/
theorem Sound.reified_tree (hs : s.Sound st) (ht : st.Stored t) : Reified s st t (s.tree st t) := by
  induction t using hs.leads_induct with
  | step t ih =>
    obtain ⟨x, hx⟩ := Store.term?_of_stored ht
    cases x with
    | var v =>
      rw [hs.tree_var hx]
      cases hb : s.get? v with
      | none =>
        rw [image_of_unbound hb]
        exact .unbound hx hb
      | some u =>
        rw [image_of_bound hb]
        exact .bound hx hb (ih u (.binding hx hb) (hs.stored v u hb))
    | leaf l =>
      rw [hs.tree_leaf hx]
      exact .leaf hx
    | app op args attrs =>
      rw [hs.tree_app hx]
      have operands : List.Forall₂ (Reified s st) args (args.map (s.tree st)) :=
        List.forall₂_map_right_iff.mpr <| List.forall₂_same.mpr fun u mem =>
          ih u (.operand hx mem) (hs.valid.stored hx mem)
      obtain ⟨length, operands⟩ := List.forall₂_iff_zip.mp operands
      exact .app hx length operands

theorem Reified.eq_tree {x : Tree} (h : Reified s st t x) (hs : s.Sound st) : x = s.tree st t := by
  induction h with
  | bound var binding reified ih => rw [hs.tree_var var, image_of_bound binding, ih]
  | unbound var free => rw [hs.tree_var var, image_of_unbound free]
  | leaf leaf => rw [hs.tree_leaf leaf]
  | app app length operands ih =>
    have operands := List.forall₂_iff_zip.mpr ⟨length, fun {u x} mem => (ih mem).symm⟩
    rw [← List.forall₂_map_left_iff, List.forall₂_eq_eq_eq] at operands
    rw [hs.tree_app app, operands]

/-! ## Terms without bound variables -/

/-- Operands that stay what they are. -/
theorem mapOperands_eq_self {read : TermId → Store → TermId × Store} {ts : List TermId}
    (each : ∀ t ∈ ts, read t st = (t, st)) : mapOperands read ts st = (ts, st) := by
  induction ts with
  | nil => rfl
  | cons t rest ih =>
    rw [mapOperands, each t (.head _)]
    dsimp only
    rw [ih fun u hu => each u (.tail _ hu)]

theorem Sound.reifyWithin_of_free (hs : s.Sound st)
    (free : ∀ v, (st.tree t).HasVar v → s.get? v = none) (n : Nat) :
    s.reifyWithin n t st = (t, st) := by
  induction n generalizing t with
  | zero => rfl
  | succ n ih =>
    have stays : s.deref st t = t := by
      refine hs.deref_of_hop_none (hop_eq_none_iff.mpr fun v hv => free v ?_)
      rw [hs.valid.tree_var hv]
      exact .var
    rw [reifyWithin, stays]
    dsimp only
    split
    · rfl
    · rename_i op args attrs h
      rw [Store.app?_eq_some_iff] at h
      have operands : mapOperands (s.reifyWithin n) args st = (args, st) := by
        refine mapOperands_eq_self fun u mem => ih fun v hv => free v ?_
        rw [hs.valid.tree_app h]
        exact .app (List.mem_map_of_mem mem) hv
      rw [operands]
      exact if_pos rfl

/-- A term in which no bound variable occurs is its own result. -/
theorem Sound.reify_of_free (hs : s.Sound st) (free : ∀ v, (st.tree t).HasVar v → s.get? v = none) :
    s.reify t st = (t, st) := hs.reifyWithin_of_free free _

/-- The loop reifies a term: its result is the term with bindings put in. No bound variable is left in
    it, it is its own result, and so is a term in which none occurs. The other loop finds the leftmost
    variable of the result, and none just when the result is ground. -/
theorem Sound.reify_reified (hs : s.Sound st) (ht : st.Stored t) :
    let r := s.reify t st
    Reifying.Runs s ⟨[(t, false)], [], st⟩ ⟨[], [r.1], r.2⟩ ∧
    (∀ x, Reified s st t x ↔ x = r.2.tree r.1) ∧
    (∀ v, (r.2.tree r.1).HasVar v → s.get? v = none) ∧
    s.reify r.1 r.2 = r ∧
    ((∀ v, (st.tree t).HasVar v → s.get? v = none) → r = (t, st)) ∧
    Searching.Runs s st (.stack [t]) (.done (s.firstUnbound st t)) ∧
    s.firstUnbound st t = (r.2.tree r.1).vars.head? ∧
    (s.firstUnbound st t = none ↔ (r.2.tree r.1).Ground) := by
  intro r
  obtain ⟨grows, stored, tree⟩ : Reads st (s.tree st t) r := hs.reify_reads ht
  have free : ∀ v, (r.2.tree r.1).HasVar v → s.get? v = none := by
    rw [tree]
    exact fun v => hs.get?_of_hasVar
  refine ⟨hs.reify_runs ht, fun x => ?_, free, (hs.grows grows).reify_of_free free, hs.reify_of_free,
    hs.firstUnbound_runs t, ?_, ?_⟩
  · rw [tree]
    constructor
    · exact fun h => h.eq_tree hs
    · rintro rfl
      exact hs.reified_tree ht
  · rw [tree]
    exact hs.firstUnbound_eq_head? t
  · rw [tree, hs.firstUnbound_eq_head?, List.head?_eq_none_iff]
    exact Tree.vars_eq_nil

/-- Four variables, `neg` of one of them, and `add(v0, add(v1, v0))`. -/
def nestedSum : Store :=
  [.var 0, .var 1, .var 2, .var 3, .app "neg" [⟨2⟩] .unspecified, .app "add" [⟨1⟩, ⟨0⟩] .unspecified,
    .app "add" [⟨0⟩, ⟨5⟩] .unspecified].foldl (fun st x => (Store.intern x st).2) .empty

/-- One variable is bound to another one, and that one to `neg(v2)`. -/
def chained : Subst := (Subst.empty.bind 0 ⟨3⟩).bind 3 ⟨4⟩

theorem reify_reified_nestedSum : nestedSum.Stored ⟨6⟩ ∧
    chained.Sound nestedSum ∧
    (chained.reify ⟨6⟩ nestedSum).1 = ⟨8⟩ ∧
    chained.firstUnbound nestedSum ⟨6⟩ = some 2 ∧
    Reified chained nestedSum ⟨6⟩ ((chained.reify ⟨6⟩ nestedSum).2.tree ⟨8⟩) ∧
    ((chained.reify ⟨6⟩ nestedSum).2.tree ⟨8⟩).vars.head? = some 2 ∧
    chained.reify ⟨8⟩ (chained.reify ⟨6⟩ nestedSum).2 = (⟨8⟩, (chained.reify ⟨6⟩ nestedSum).2) := by
  have empty := Sound.empty (show nestedSum.Valid by decide +kernel)
  have first : (Subst.empty.bind 0 ⟨3⟩).Sound nestedSum := by
    refine empty.bind (by decide +kernel) (get?_empty 0) ?_
    rw [← empty.occurs_iff]
    decide +kernel
  have sound : chained.Sound nestedSum := by
    refine first.bind (by decide +kernel) (by decide +kernel) ?_
    rw [← first.occurs_iff]
    decide +kernel
  have stored : nestedSum.Stored ⟨6⟩ := by decide +kernel
  have result : (chained.reify ⟨6⟩ nestedSum).1 = ⟨8⟩ := by decide +kernel
  have found : chained.firstUnbound nestedSum ⟨6⟩ = some 2 := by decide +kernel
  obtain ⟨-, reified, -, again, -, -, head, -⟩ := sound.reify_reified stored
  rw [result] at reified again head
  exact ⟨stored, sound, result, found, (reified _).mpr rfl, head.symm.trans found,
    again.trans (Prod.ext result rfl)⟩

end Subst

end Regraft
