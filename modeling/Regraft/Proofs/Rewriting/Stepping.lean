import Regraft.Proofs.Rewriting.Positions
import Regraft.Proofs.Rewriting.Steps

/-
  The steps of rules made of patterns. From a ground tree one step leads to the trees in which one place
  has been rewritten by one of the patterns (`Tree.Pattern.steps`), and the walks of the rule take just
  these steps, in all sessions in which there is room for more variables (`Rule.OfPatterns.walks`).
-/

namespace Regraft

open Regraft.Tree (Pattern Effect)

/-- The tidy sessions later than a valid one. -/
def Scope.tidy (base : Session) (hv : base.store.Valid) : Scope where
  ok ses := base.Later ses ∧ ses.store.Tidy
  room ses := ses.store.Roomy
  valid h := h.1.grows.store.valid hv
  count f h := ⟨h.1.trans (Session.count_keeps f _).later, (Session.count_keeps f _).tidy h.2⟩
  earlier g := .of_grows g.store

instance (base : Session) (hv : base.store.Valid) : DecidablePred (Scope.tidy base hv).room :=
  fun ses => inferInstanceAs (Decidable ses.store.Roomy)

variable {base ses ses' : Session} {hv : base.store.Valid} {output : TermId} {search : Search}
  {A : Set Effect} {all found : Set Tree} {w : Walk}

namespace Walk

/-- A walk whose search answers some effects, all of them with consistent sites, finds their results
    and ends. -/
theorem completes_of_gives (h : Search.Gives False (fun ses s e => s.Tells output ses e) ses search A)
    (g : ses.Grows ses') (later : base.Later ses') (plain : ∀ e ∈ A, Tree.Consistent e.sites)
    (eq : all = found ∪ Effect.result '' A) (seen : ∀ t ∈ w.seen, Holds (· ∈ found) ses' t)
    (hw : w.search = search) (out : w.output = output) :
    w.Completes (.tidy base hv) all ses' found := by
  induction h generalizing w found ses' with
  | @intro ses search A B goes emit behind goOn done ihBehind ihGoOn =>
    refine .of_turn fun ses₀ g₀ ok room => ?_
    have count := Session.count_keeps Counters.countStep ses₀
    have l₀ : ses.Later (Session.count Counters.countStep ses₀).2 :=
      ⟨(g.trans g₀).trans count.grows, fun _ _ => count.tidy ok.2⟩
    have tidy₀ : Store.TidyUnless False _ := (count.tidy ok.2).unless
    have goes := goes _ l₀ tidy₀
    have turn := turn_eq w ses₀
    rw [Search.turn_eq, hw] at turn
    have reach {ses₁ : Session} (later' : ses₀.Later ses₁) (room : ses₁.store.Roomy) :
        ses₀.Grows ses₁ ∧ (Scope.tidy base hv).ok ses₁ :=
      ⟨later'.grows, ok.1.trans later', later'.tidy ok.2 room⟩
    match hs : search.step (Session.count Counters.countStep ses₀).2 with
    | (.exhausted, ses₁) =>
      rw [hs] at turn goes
      rw [turn] at room ⊢
      obtain ⟨g₁, ok₁⟩ := reach (count.later.trans goes.later) room
      refine ⟨g₁, ok₁, ?_⟩
      rw [eq, done _ ses₁ l₀ tidy₀ (Store.Roomy.unless room) hs, Set.image_empty, Set.union_empty]
      exact le_rfl
    | (.continue rest, ses₁) =>
      rw [hs] at turn goes
      rw [turn] at room ⊢
      obtain ⟨g₁, ok₁⟩ := reach (count.later.trans goes.later) room
      exact ⟨g₁, ok₁, ihGoOn _ ses₁ rest l₀ tidy₀ (Store.Roomy.unless room) hs (.refl ses₁) ok₁.1 plain eq
        (fun t mem => (seen t mem).grows (g₀.trans g₁)) rfl out⟩
    | (.emit s rest, ses₁) =>
      rw [hs] at turn goes
      dsimp only at turn
      rw [turn] at room ⊢
      have same := accept_sameVars w s rest ses₁
      have room₁ : ses₁.store.Roomy := fun known => room ((same.knows _).mpr known)
      obtain ⟨e, rfl, tells⟩ := emit _ ses₁ s rest l₀ tidy₀ room₁.unless hs
      rw [← out] at tells
      obtain ⟨keeps, accepted⟩ := accept_spec tells rest
      obtain ⟨g₂, ok₂⟩ := reach ((count.later.trans goes.later).trans keeps.later) room
      refine ⟨g₂, ok₂, ?_⟩
      have valid₂ := (Scope.tidy base hv).valid ok₂
      have seen₂ : ∀ t ∈ w.seen, Holds (· ∈ found) (w.accept s rest ses₁).2 t := fun t mem =>
        (seen t mem).grows (g₀.trans g₂)
      have behind := @ihBehind _ ses₁ s rest l₀ tidy₀ room₁.unless hs
      generalize w.accept s rest ses₁ = accepted' at *
      obtain ⟨out', ses₂⟩ := accepted'
      have plain' := fun e he => plain e (Set.mem_insert_of_mem _ he)
      rw [Set.image_insert_eq] at eq
      cases out' with
      | finished => exact accepted.elim
      | working next =>
        -- the result has been found before
        obtain ⟨rfl, t, mem, -, -, tree⟩ := accepted
        have before : e.result ∈ found := tree ▸ (seen₂ t mem).tree
        rw [Set.union_insert, Set.insert_eq_of_mem (.inl before)] at eq
        exact behind keeps.grows ok₂.1 plain' eq seen₂ rfl out
      | yielded r next =>
        cases r with
        | error r =>
          obtain ⟨rfl, t, u, v, -, conflict⟩ := accepted
          exact conflict.not_consistent valid₂ (plain e (.inl rfl))
        | ok t =>
          obtain ⟨rfl, -, -, stored, tree⟩ := accepted
          change ses₂.store.Stored t at stored
          change ses₂.store.tree t = e.result at tree
          rw [Set.union_insert, ← Set.insert_union, ← tree] at eq
          refine ⟨⟨valid₂, stored, eq ▸ .inl (.inl rfl)⟩, behind keeps.grows ok₂.1 plain' eq ?_ rfl out⟩
          exact List.forall_mem_cons.mpr ⟨⟨valid₂, stored, .inl rfl⟩, fun u mem =>
            ⟨valid₂, (seen₂ u mem).stored, .inr (seen₂ u mem).tree⟩⟩

end Walk

/-- The trees in which one place is replaced as one of some patterns says. -/
def Tree.Pattern.steps (F : Facts) (ps : Set Pattern) (t : Tree) : Set Tree :=
  {u | ∃ p ∈ ps, ∃ path x σ, p.Binds F x σ ∧ Tree.Replaces x (p.rhs.subst σ) path t u}

variable {still : Prop} {rule : Rule} {R : Tree → Set Effect} {outer : UInt32 → Prop} {x y : Tree}
  {ps : Set Pattern}

/-- The walks of a rule that records no sites of its own take the steps of its effects. -/
theorem Search.Relates.walks (h : Search.Relates still base outer Tree.var rule.relate R)
    (hv : base.store.Valid) (plain : ∀ t, ∀ e ∈ R t, e.sites = []) (ground : x.Ground) :
    rule.Walks (.tidy base hv) (fun y => Effect.result '' Tree.anywhere R y) x := by
  intro y reaches ses t ok here room
  have ground : y.Ground := reaches.mem ground fun y ground z ⟨e, mem, eq⟩ =>
    eq ▸ (Tree.confined_anywhere h.confined ground e mem).ground
  have l := Session.fresh_later ses
  have gives := Rule.start_gives h ok.1 here.valid ok.2 here.stored (here.tree ▸ ground)
  rw [here.tree] at gives
  have ok' : (Scope.tidy base hv).ok (Walk.start rule t ses).2 := ⟨ok.1.trans l, l.tidy ok.2 room⟩
  refine ⟨ok', Walk.completes_of_gives gives (.refl _) ok'.1 ?_ (Set.empty_union _).symm nofun rfl rfl⟩
  rintro ⟨_, _, sites⟩ ⟨path, X, e, mem, -, -, rfl⟩
  rw [plain X e mem]
  exact Walk.consistent_single _

/-- The effects of a rule made of patterns. -/
theorem Rule.OfPatterns.relates_var (h : rule.OfPatterns base outer ps)
    (known : ∀ v, outer v → base.store.Knows v) :
    Search.Relates True base outer Tree.var rule.relate
      fun t => ⋃ p ∈ ps, p.effects base.facts outer t := by
  have relates := h.relates (E := Tree.var) known fun _ => .inl rfl
  simpa only [Pattern.inst_var] using relates

theorem Tree.Pattern.steps_eq (F : Facts) (outer : UInt32 → Prop) (ps : Set Pattern) (t : Tree) :
    steps F ps t = Effect.result '' Tree.anywhere (fun t => ⋃ p ∈ ps, p.effects F outer t) t := by
  ext u
  constructor
  · rintro ⟨p, hp, path, X, σ, binds, replaces⟩
    let e : Effect := ⟨keeping outer σ, p.rhs.subst σ, []⟩
    have mem : e ∈ ⋃ p ∈ ps, p.effects F outer X := by
      simp only [Set.mem_iUnion, exists_prop]
      exact ⟨p, hp, σ, binds, rfl⟩
    exact ⟨⟨e.binds, u, [(X, e.result)]⟩, ⟨path, X, e, mem, replaces, rfl, rfl⟩, rfl⟩
  · rintro ⟨_, ⟨path, X, e, mem, replaces, -, -⟩, rfl⟩
    simp only [Set.mem_iUnion, exists_prop] at mem
    obtain ⟨p, hp, σ, binds, rfl⟩ := mem
    exact ⟨p, hp, path, X, σ, binds, replaces⟩

/-- The walks of a rule made of patterns take the steps of the patterns. -/
theorem Rule.OfPatterns.walks_of_known (h : rule.OfPatterns base outer ps)
    (known : ∀ v, outer v → base.store.Knows v) (hv : base.store.Valid) (ground : x.Ground) :
    rule.Walks (.tidy base hv) (Pattern.steps base.facts ps) x := by
  have steps : Pattern.steps base.facts ps = _ := funext (Pattern.steps_eq base.facts outer ps)
  rw [steps]
  refine (h.relates_var known).walks hv (fun t e he => ?_) ground
  simp only [Set.mem_iUnion, exists_prop] at he
  obtain ⟨p, -, σ, -, rfl⟩ := he
  rfl

theorem Rule.OfPatterns.walks (h : rule.OfPatterns base base.store.Knows ps) (hv : base.store.Valid)
    (ground : x.Ground) : rule.Walks (.tidy base hv) (Pattern.steps base.facts ps) x :=
  h.walks_of_known (fun _ => id) hv ground

/-- The steps from a term are read off a walk that has come to its end without an error. -/
theorem Rule.OfPatterns.steps_of_walk (h : rule.OfPatterns ses ses.store.Knows ps)
    (hv : ses.store.Valid) (tidy : ses.store.Tidy) {t : TermId} (ht : ses.store.Stored t)
    (ground : (ses.store.tree t).Ground) (turns : Nat) (results : List TermId)
    (walked : (rule.walk t turns ses).1 = (results.map .ok, true))
    (room : ∀ n ≤ turns, (rule.walk t n ses).2.store.Roomy) :
    ses.Grows (rule.walk t turns ses).2 ∧ Pattern.steps ses.facts ps (ses.store.tree t) =
      {u | ∃ w ∈ results, (rule.walk t turns ses).2.store.tree w = u} := by
  have finished : (rule.walk t turns ses).1.2 = true := congrArg Prod.snd walked
  obtain ⟨n, grows, finished', reported⟩ :=
    Rule.exists_reported (h.relates_var fun _ => id) hv tidy ht ground (Rule.walk_roomy finished room)
  have same : rule.walk t n ses = rule.walk t turns ses := by
    rw [Rule.walk_eq] at finished finished'
    rw [Rule.walk_eq, Rule.walk_eq, ← Walk.run_of_finished finished n,
      ← Walk.run_of_finished finished' turns, Nat.add_comm]
  rw [same] at grows
  rw [same, walked] at reported
  refine ⟨grows, ?_⟩
  rw [Pattern.steps_eq ses.facts ses.store.Knows]
  ext u
  constructor
  · rintro ⟨e, mem, rfl⟩
    obtain ⟨r, hr, reports⟩ := (reported.all e mem).resolve_right (by simp)
    obtain ⟨w, hw, rfl⟩ := List.mem_map.mp hr
    exact ⟨w, hw, reports.2.2⟩
  · rintro ⟨w, hw, rfl⟩
    obtain ⟨e, mem, reports⟩ := reported.each _ (List.mem_map_of_mem hw)
    exact ⟨e, mem, reports.2.2.symm⟩

end Regraft
