import Regraft.Proofs.Session.Grows
import Regraft.Proofs.Subst.Reify
import Regraft.Proofs.Subst.Advance
import Regraft.Script.Build

/-
  What templates stand for. A simple template is made of names, numbers and operators; among trees for
  the names it stands for a tree (`Template.treeIn`). Building it in an environment yields a stored term
  that has this tree under every substitution (`Template.build_built`).
-/

namespace Regraft.Script

variable {F : Facts} {V : Vocabulary F} {ops : List String} {ses : Session} {env : Env}

namespace Template

mutual

/-- Only names that are known, numbers and operators that are allowed. -/
def simple (ops names : List String) : Template → Bool
  | ref name => names.contains name
  | number _ => true
  | op raw args => ops.contains (OpName.normalize raw).name && simpleAll ops names args
  | _ => false

def simpleAll (ops names : List String) : List Template → Bool
  | [] => true
  | t :: rest => simple ops names t && simpleAll ops names rest

end

mutual

/-- The tree of a simple template, among trees for the names. -/
def treeIn (trees : List (String × Tree)) : Template → Tree
  | ref name => (trees.lookup name).getD (.unknown ⟨0⟩)
  | number x => .leaf (.const (.scalar x))
  | op raw args =>
    .app (OpName.normalize raw).name (treesIn trees args)
      { Attrs.unspecified with output := (OpName.normalize raw).output }
  | _ => .unknown ⟨0⟩

def treesIn (trees : List (String × Tree)) : List Template → List Tree
  | [] => []
  | t :: rest => treeIn trees t :: treesIn trees rest

end

end Template

/-! ## Names and trees -/

/-- The trees that names stand for under a substitution. -/
def Env.trees (env : Env) (s : Subst) (st : Store) : List (String × Tree) :=
  env.map fun e => (e.1, s.tree st e.2)

theorem Env.trees_eq_zip (env : Env) (s : Subst) (st : Store) :
    env.trees s st = (env.map Prod.fst).zip ((env.map Prod.snd).map (s.tree st)) := by
  induction env with
  | nil => rfl
  | cons e rest ih =>
    unfold Env.trees at ih ⊢
    rw [List.map_cons, ih]
    rfl

theorem Env.lookup_trees (env : Env) (s : Subst) (st : Store) (name : String) :
    (env.trees s st).lookup name = (env.lookup name).map (s.tree st) := by
  induction env with
  | nil => rfl
  | cons e rest ih =>
    show (((e.1, s.tree st e.2) :: Env.trees rest s st).lookup name) = _
    rw [List.lookup_cons, List.lookup_cons, ih]
    split <;> rfl

/-- A known name is bound. -/
theorem exists_lookup {β : Type} {bindings : List (String × β)} {name : String}
    (h : (bindings.map Prod.fst).contains name = true) :
    ∃ b, bindings.lookup name = some b ∧ (name, b) ∈ bindings := by
  induction bindings with
  | nil => simp at h
  | cons e rest ih =>
    rw [List.lookup_cons]
    by_cases hn : name = e.1
    · refine ⟨e.2, ?_, ?_⟩
      · rw [hn, beq_self_eq_true]
      · rw [hn]
        exact .head _
    · have later : (rest.map Prod.fst).contains name = true := by
        simpa [hn] using h
      obtain ⟨b, hb, mem⟩ := ih later
      refine ⟨b, ?_, .tail _ mem⟩
      rw [beq_false_of_ne hn]
      exact hb

/-! ## Building -/

/-- A template is built: a stored term that has its tree from now on, under every substitution. -/
structure Built (env : Env) (t : Template) (ses : Session) (r : TermId × Session) : Prop where
  grows : ses.Grows r.2
  stored : r.2.store.Stored r.1
  tree : ∀ st, r.2.store.Grows st → ∀ s : Subst, s.Sound st →
    s.tree st r.1 = t.treeIn (env.trees s st)

theorem Built.later {t : Template} {r : TermId × Session} {ses' : Session}
    (h : Built env t ses r) (g : r.2.Grows ses') : Built env t ses (r.1, ses') where
  grows := h.grows.trans g
  stored := g.store.stored h.stored
  tree st g' := h.tree st (g.store.trans g')

namespace Template

mutual

theorem build_built {t : Template} {ses : Session} (stored : ∀ e ∈ env, ses.store.Stored e.2)
    (h : t.simple ops (env.map Prod.fst) = true) : Built env t ses (t.build env ses) := by
  match t with
  | ref name =>
    rw [simple] at h
    obtain ⟨u, lookup, mem⟩ := exists_lookup h
    have built : (ref name).build env ses = (u, ses) := by
      rw [build, lookup]
      rfl
    rw [built]
    refine ⟨.refl ses, stored _ mem, fun st g s hs => ?_⟩
    rw [treeIn, Env.lookup_trees, lookup]
    rfl
  | number x =>
    have leaf := Store.term?_intern (.leaf (.const (.scalar x))) ses.store
    refine ⟨⟨rfl, Store.intern_grows trivial⟩, Store.stored_of_term? leaf, fun st g s hs => ?_⟩
    rw [treeIn]
    exact hs.tree_leaf (g.keeps _ _ leaf)
  | op raw args =>
    rw [simple, Bool.and_eq_true] at h
    obtain ⟨g, operands, trees⟩ := buildAll_built stored h.2
    let attrs := { Attrs.unspecified with output := (OpName.normalize raw).output }
    have made : (op raw args).build env ses = Session.onStore
        (Store.app (OpName.normalize raw).name (buildAll env args ses).1 attrs)
        (Session.note (OpName.normalize raw).name (buildAll env args ses).2).2 := rfl
    rw [made, Session.onStore_apply]
    have app := Store.term?_app (OpName.normalize raw).name (buildAll env args ses).1 attrs
      (buildAll env args ses).2.store
    have g' : (buildAll env args ses).2.store.Grows (Store.app (OpName.normalize raw).name
        (buildAll env args ses).1 attrs (buildAll env args ses).2.store).2 := Store.app_grows operands
    refine ⟨g.trans ⟨rfl, g'⟩, Store.stored_of_term? app, fun st later s hs => ?_⟩
    rw [treeIn, ← trees st (g'.trans later) s hs]
    exact hs.tree_app (later.keeps _ _ app)
  | constant _ _ | input _ | var _ | named _ | fresh | tagged _ _ _ =>
    simp [simple] at h

theorem buildAll_built {ts : List Template} {ses : Session}
    (stored : ∀ e ∈ env, ses.store.Stored e.2)
    (h : simpleAll ops (env.map Prod.fst) ts = true) :
    ses.Grows (buildAll env ts ses).2 ∧
      (∀ u ∈ (buildAll env ts ses).1, (buildAll env ts ses).2.store.Stored u) ∧
      ∀ st, (buildAll env ts ses).2.store.Grows st → ∀ s : Subst, s.Sound st →
        (buildAll env ts ses).1.map (s.tree st) = treesIn (env.trees s st) ts := by
  match ts with
  | [] => exact ⟨.refl ses, nofun, fun st g s hs => by rw [treesIn]; rfl⟩
  | t :: rest =>
    rw [simpleAll, Bool.and_eq_true] at h
    have first := build_built stored h.1
    obtain ⟨g, operands, trees⟩ := buildAll_built
      (fun e he => first.grows.store.stored (stored e he)) h.2
    have first := first.later g
    show ses.Grows (buildAll env rest (t.build env ses).2).2 ∧
      (∀ u ∈ (t.build env ses).1 :: (buildAll env rest (t.build env ses).2).1, _) ∧ _
    refine ⟨first.grows, ?_, fun st later s hs => ?_⟩
    · rw [List.forall_mem_cons]
      exact ⟨first.stored, operands⟩
    · rw [treesIn, ← first.tree st later s hs, ← trees st later s hs]
      rfl

end

/-! ## Labels and substitution -/

/-- A vocabulary has all numbers, and some operators with any operands and attributes. -/
structure Speaks (V : Vocabulary F) (ops : List String) : Prop where
  numbers : ∀ x, V.has (.leaf (.const (.scalar x)))
  operators : ∀ op ∈ ops, ∀ n attrs, V.has (.node op n attrs)

variable {trees : List (String × Tree)}

mutual

theorem treeIn_over {t : Template} (hV : Speaks V ops) (hs : ∀ e ∈ trees, e.2.Over V.has)
    (h : t.simple ops (trees.map Prod.fst) = true) : (t.treeIn trees).Over V.has := by
  match t with
  | ref name =>
    rw [simple] at h
    obtain ⟨u, lookup, mem⟩ := exists_lookup h
    rw [treeIn, lookup]
    exact hs _ mem
  | number x =>
    rw [treeIn]
    exact .leaf (hV.numbers x)
  | op raw args =>
    rw [simple, Bool.and_eq_true, List.contains_iff_mem] at h
    rw [treeIn]
    exact .app (hV.operators _ h.1 _ _) (treesIn_over hV hs h.2)
  | constant _ _ | input _ | var _ | named _ | fresh | tagged _ _ _ =>
    simp [simple] at h

theorem treesIn_over {ts : List Template} (hV : Speaks V ops) (hs : ∀ e ∈ trees, e.2.Over V.has)
    (h : simpleAll ops (trees.map Prod.fst) ts = true) : ∀ u ∈ treesIn trees ts, u.Over V.has := by
  match ts with
  | [] =>
    rw [treesIn]
    nofun
  | t :: rest =>
    rw [simpleAll, Bool.and_eq_true] at h
    rw [treesIn, List.forall_mem_cons]
    exact ⟨treeIn_over hV hs h.1, treesIn_over hV hs h.2⟩

end

/-- Put trees in for the variables of the trees that names stand for. -/
abbrev substAll (σ : UInt32 → Tree) (trees : List (String × Tree)) : List (String × Tree) :=
  trees.map fun e => (e.1, e.2.subst σ)

theorem lookup_substAll (σ : UInt32 → Tree) (name : String) :
    (substAll σ trees).lookup name = (trees.lookup name).map (Tree.subst σ) := by
  induction trees with
  | nil => rfl
  | cons e rest ih =>
    rw [substAll, List.map_cons, List.lookup_cons, List.lookup_cons, ih]
    split <;> rfl

mutual

theorem treeIn_subst (σ : UInt32 → Tree) (t : Template) :
    (t.treeIn trees).subst σ = t.treeIn (substAll σ trees) := by
  match t with
  | ref name =>
    rw [treeIn, treeIn, lookup_substAll]
    cases trees.lookup name <;> rfl
  | number x =>
    rw [treeIn, treeIn]
    rfl
  | op raw args => rw [treeIn, treeIn, Tree.subst_app, treesIn_subst σ args]
  | constant _ _ | input _ | var _ | named _ | fresh | tagged _ _ _ => simp [treeIn]

theorem treesIn_subst (σ : UInt32 → Tree) (ts : List Template) :
    (treesIn trees ts).map (Tree.subst σ) = treesIn (substAll σ trees) ts := by
  match ts with
  | [] => rw [treesIn, treesIn, List.map_nil]
  | t :: rest => rw [treesIn, treesIn, List.map_cons, treeIn_subst σ t, treesIn_subst σ rest]

end

end Template

/-- Both sides of a disequality are built, and then the goal. -/
theorem Goal.build_neq (x y : Template) (env : Env) (ses : Session) : (Goal.neq x y).build env ses =
    (.neq (x.build env ses).1 (y.build env (x.build env ses).2).1,
      (y.build env (x.build env ses).2).2) := by
  rw [Goal.build]
  rfl

/-! ## New names -/

/-- New names stand for new variables, the last name first. -/
theorem Env.extend_spec (env : Env) (vars : List String) (ses : Session) :
    ∃ news : Env, (env.extend vars ses).1 = news ++ env ∧ news.map Prod.fst = vars.reverse ∧
      ses.Grows (env.extend vars ses).2 ∧
      ∀ e ∈ news, ∃ v, (env.extend vars ses).2.store.term? e.2 = some (.var v) := by
  induction vars generalizing env ses with
  | nil => exact ⟨[], rfl, rfl, .refl ses, nofun⟩
  | cons name rest ih =>
    have g := Session.fresh_grows ses
    have var : (Session.fresh ses).2.store.term? (Session.fresh ses).1 = _ := Store.term?_fresh _
    obtain ⟨news, eq, names, g', vars⟩ :=
      ih ((name, (Session.fresh ses).1) :: env) (Session.fresh ses).2
    refine ⟨news ++ [(name, (Session.fresh ses).1)], ?_, ?_, g.trans g', ?_⟩
    · rw [List.append_assoc]
      exact eq
    · rw [List.map_append, names, List.reverse_cons]
      rfl
    · intro e he
      rcases List.mem_append.mp he with he | he
      · exact vars e he
      · rw [List.mem_singleton.mp he]
        exact ⟨_, g'.store.keeps _ _ var⟩

end Regraft.Script
