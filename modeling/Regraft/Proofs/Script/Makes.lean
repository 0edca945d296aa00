import Regraft.Proofs.Rewriting.Exactly
import Regraft.Proofs.Script.Template

/-
  The patterns that scripts make. The names that a rule lists stand for new variables each time, so that
  building its templates makes one pattern anew, under other names (`Template.buildPattern_makes`).
-/

namespace Regraft.Script

open Regraft.Tree (Pattern)

variable {ops : List String} {ses base : Session} {env : Env} {vars : List String}

/-! ## New variables -/

/-- Names have been bound to variables, in order and the last one innermost. -/
structure Extended (env : Env) (vars : List String) (ses : Session) (nums : List UInt32)
    (r : Env × Session) : Prop where
  later : ses.Later r.2
  length : nums.length = vars.length
  names : r.1.map Prod.fst = vars.reverse ++ env.map Prod.fst
  stored : (∀ e ∈ env, ses.store.Stored e.2) → ∀ e ∈ r.1, r.2.store.Stored e.2
  trees : ∀ st, r.2.store.Grows st → st.Valid → r.1.trees .empty st =
    (vars.zip (nums.map Tree.var)).reverse ++ env.trees .empty st
  known : ∀ x ∈ nums, r.2.store.Knows x
  new : ses.store.Tidy → r.2.store.Roomy → nums.Nodup ∧ ∀ x ∈ nums, ¬ ses.store.Knows x

theorem Env.extend_extended (env : Env) (vars : List String) (ses : Session) :
    ∃ nums, Extended env vars ses nums (env.extend vars ses) := by
  induction vars generalizing env ses with
  | nil => exact ⟨[], .refl ses, rfl, rfl, fun h => h, fun _ _ _ => rfl, nofun, fun _ _ => ⟨.nil, nofun⟩⟩
  | cons name rest ih =>
    have l := Session.fresh_later ses
    have var : (Session.fresh ses).2.store.term? (Session.fresh ses).1 =
      some (.var ses.store.nextVar) := Store.term?_fresh _
    have made : env.extend (name :: rest) ses =
      Env.extend ((name, (Session.fresh ses).1) :: env) rest (Session.fresh ses).2 := rfl
    rw [made]
    generalize (Session.fresh ses).1 = id at var ⊢
    generalize (Session.fresh ses).2 = ses₁ at l var ⊢
    obtain ⟨nums, h⟩ := ih ((name, id) :: env) ses₁
    generalize Env.extend ((name, id) :: env) rest ses₁ = r at h ⊢
    have known : r.2.store.Knows ses.store.nextVar := ⟨id, h.later.grows.store.keeps _ _ var⟩
    refine ⟨ses.store.nextVar :: nums, l.trans h.later, ?_, ?_, ?_, ?_, ?_, ?_⟩
    · rw [List.length_cons, List.length_cons, h.length]
    · rw [h.names, List.reverse_cons, List.append_assoc]
      rfl
    · intro stored
      refine h.stored (List.forall_mem_cons.mpr ⟨Store.stored_of_term? var, fun e he => ?_⟩)
      exact l.grows.store.stored (stored e he)
    · intro st g hv
      have new : Subst.empty.tree st id = .var ses.store.nextVar := by
        rw [Subst.tree_empty hv]
        exact hv.tree_var (g.keeps _ _ (h.later.grows.store.keeps _ _ var))
      rw [h.trees st g hv, List.map_cons, List.zip_cons_cons, List.reverse_cons, List.append_assoc]
      show _ ++ ((name, Subst.empty.tree st id) :: Env.trees env .empty st) = _
      rw [new]
      rfl
    · exact List.forall_mem_cons.mpr ⟨known, h.known⟩
    · intro tidy room
      have tidy₁ := l.tidy tidy (.of_grows h.later.grows.store room)
      obtain ⟨nodup, new⟩ := h.new tidy₁ room
      refine ⟨List.nodup_cons.mpr ⟨fun mem => new _ mem ⟨id, var⟩, nodup⟩, ?_⟩
      exact List.forall_mem_cons.mpr
        ⟨tidy.not_knows_fresh, fun x hx known => new x hx (l.grows.store.knows known)⟩

/-- The terms that names are bound to are stored, and have only some variables. -/
def Env.Within (env : Env) (st : Store) (outer : UInt32 → Prop) : Prop :=
  ∀ e ∈ env, st.Stored e.2 ∧ ∀ v, (st.tree e.2).HasVar v → outer v

theorem Env.Within.of_hasVar {st : Store} {outer : UInt32 → Prop} {v : UInt32} {e : String × Tree}
    (h : env.Within st outer) (hv : st.Valid) (he : e ∈ env.trees .empty st) (has : e.2.HasVar v) :
    outer v := by
  obtain ⟨e, mem, rfl⟩ := List.mem_map.mp he
  rw [Subst.tree_empty hv] at has
  exact (h e mem).2 v has

theorem Env.Within.trees_grows {st st' : Store} {outer : UInt32 → Prop} (h : env.Within st outer)
    (hv : st.Valid) (g : st.Grows st') : env.trees .empty st' = env.trees .empty st :=
  List.map_congr_left fun e he => by
    rw [Subst.tree_empty (g.valid hv), Subst.tree_empty hv, g.tree_eq hv (h e he).1]

/-! ## Patterns -/

namespace Template

variable {trees : List (String × Tree)} {lhs rhs t : Template}

mutual

/-- Building a simple template makes no variables. -/
theorem build_sameVars {t : Template} {ses : Session}
    (h : t.simple ops (env.map Prod.fst) = true) :
    ses.store.SameVars (t.build env ses).2.store := by
  match t with
  | ref name =>
    rw [simple] at h
    obtain ⟨u, lookup, -⟩ := exists_lookup h
    have built : (ref name).build env ses = (u, ses) := by
      rw [build, lookup]
      rfl
    rw [built]
    exact .refl ses.store
  | number x => exact Store.intern_sameVars nofun
  | op raw args =>
    rw [simple, Bool.and_eq_true] at h
    exact (buildAll_sameVars h.2).trans (Store.app_sameVars ..)
  | constant _ _ | input _ | var _ | named _ | fresh | tagged _ _ _ =>
    simp [simple] at h

theorem buildAll_sameVars {ts : List Template} {ses : Session}
    (h : simpleAll ops (env.map Prod.fst) ts = true) :
    ses.store.SameVars (buildAll env ts ses).2.store := by
  match ts with
  | [] => exact .refl ses.store
  | t :: rest =>
    rw [simpleAll, Bool.and_eq_true] at h
    exact (build_sameVars h.1).trans (buildAll_sameVars h.2)

end

mutual

/-- The variables of a template's tree are those of the trees for the names. -/
theorem hasVar_treeIn {v : UInt32} {t : Template} (h : (t.treeIn trees).HasVar v) :
    ∃ e ∈ trees, e.2.HasVar v := by
  match t with
  | ref name =>
    rw [treeIn] at h
    cases eq : trees.lookup name with
    | none =>
      rw [eq] at h
      exact absurd h Tree.not_hasVar_unknown
    | some u =>
      rw [eq] at h
      obtain ⟨before, behind, rfl, -⟩ := List.lookup_eq_some_iff.mp eq
      exact ⟨_, List.mem_append_right _ (.head _), h⟩
  | op raw args =>
    rw [treeIn] at h
    obtain ⟨u, hu, hv⟩ := Tree.hasVar_app.mp h
    exact exists_of_mem_treesIn hu hv
  | number _ =>
    rw [treeIn] at h
    exact absurd h Tree.not_hasVar_leaf
  | constant _ _ | input _ | var _ | named _ | fresh | tagged _ _ _ =>
    simp only [treeIn] at h
    exact absurd h Tree.not_hasVar_unknown

theorem exists_of_mem_treesIn {v : UInt32} {ts : List Template} {u : Tree}
    (hu : u ∈ treesIn trees ts) (hv : u.HasVar v) : ∃ e ∈ trees, e.2.HasVar v := by
  match ts with
  | [] =>
    rw [treesIn] at hu
    cases hu
  | t :: rest =>
    rw [treesIn] at hu
    rcases List.mem_cons.mp hu with rfl | hu
    · exact hasVar_treeIn hv
    · exact exists_of_mem_treesIn hu hv

end

/-- What the names of a rule stand for, with numbers for the witness and the variables. -/
def scope (w : UInt32) (vars : List String) (nums : List UInt32) (trees : List (String × Tree)) :
    List (String × Tree) :=
  ("witness", .var w) :: ((vars.zip (nums.map Tree.var)).reverse ++ trees)

/-- A pattern and its replacement, with numbers for the witness and the variables. -/
def pattern (w : UInt32) (vars : List String) (nums : List UInt32) (trees : List (String × Tree))
    (lhs rhs : Template) : Pattern :=
  ⟨w, lhs.treeIn (scope w vars nums trees), rhs.treeIn (scope w vars nums trees)⟩

variable {w : UInt32} {nums : List UInt32} {outer : UInt32 → Prop}

theorem hasVar_scope {v : UInt32} {e : String × Tree} (he : e ∈ scope w vars nums trees)
    (hv : e.2.HasVar v) : v ∈ w :: nums ∨ ∃ e ∈ trees, e.2.HasVar v := by
  rcases List.mem_cons.mp he with rfl | he
  · exact .inl (Tree.hasVar_var.mp hv ▸ .head _)
  · rcases List.mem_append.mp he with he | he
    · obtain ⟨x, hx, eq⟩ := List.mem_map.mp (List.of_mem_zip (List.mem_reverse.mp he)).2
      rw [← eq] at hv
      exact .inl (.tail _ (Tree.hasVar_var.mp hv ▸ hx))
    · exact .inr ⟨e, he, hv⟩

theorem names_pattern {v : UInt32} (h : v ∈ (pattern w vars nums trees lhs rhs).names) :
    v ∈ w :: nums ∨ ∃ e ∈ trees, e.2.HasVar v := by
  rcases h with has | has | rfl
  · obtain ⟨e, he, hv⟩ := hasVar_treeIn has
    exact hasVar_scope he hv
  · obtain ⟨e, he, hv⟩ := hasVar_treeIn has
    exact hasVar_scope he hv
  · exact .inl (.head _)

/-- Numbers can be replaced by as many others. -/
theorem exists_renaming {xs : List UInt32} (nodup : xs.Nodup) {ys : List UInt32}
    (length : xs.length = ys.length) :
    ∃ ρ : UInt32 → UInt32, xs.map ρ = ys ∧ ∀ v, v ∉ xs → ρ v = v := by
  induction xs generalizing ys with
  | nil => exact ⟨id, (List.length_eq_zero_iff.mp length.symm).symm, fun _ _ => rfl⟩
  | cons x rest ih =>
    obtain ⟨new, nodup⟩ := List.nodup_cons.mp nodup
    match ys with
    | y :: ys =>
      obtain ⟨ρ, eq, same⟩ := ih nodup (Nat.succ.inj length)
      have others : ∀ v, v ≠ x → Function.update ρ x y v = ρ v := fun v ne =>
        Function.update_of_ne ne ..
      refine ⟨Function.update ρ x y, ?_, fun v hv => ?_⟩
      · rw [List.map_cons, Function.update_self, ← eq]
        exact congrArg _ (List.map_congr_left fun v hv => others v (by rintro rfl; exact new hv))
      · rw [List.mem_cons, not_or] at hv
        exact (others v hv.1).trans (same v hv.2)

/-- Numbers can be replaced by new ones without touching others. -/
theorem exists_renumbering {xs ys : List UInt32} {outer known : UInt32 → Prop} (nodup : xs.Nodup)
    (nodup' : ys.Nodup) (length : xs.length = ys.length) (inner : ∀ v ∈ xs, ¬ outer v)
    (new : ∀ v ∈ ys, ¬ known v) (sub : ∀ v, outer v → known v) :
    ∃ ρ : UInt32 → UInt32, xs.map ρ = ys ∧ (∀ v, outer v → ρ v = v) ∧ (∀ v ∈ xs, ¬ known (ρ v)) ∧
      Set.InjOn ρ {v | v ∈ xs ∨ outer v} := by
  obtain ⟨ρ, eq, stays⟩ := exists_renaming nodup length
  have stays : ∀ v, outer v → ρ v = v := fun v hv => stays v fun mem => inner v mem hv
  have unknown : ∀ v ∈ xs, ¬ known (ρ v) := fun v hv => new _ (eq ▸ List.mem_map_of_mem hv)
  have apart : ∀ v ∈ xs, ∀ u, outer u → ρ v ≠ ρ u := by
    intro v hv u hu same
    rw [stays u hu] at same
    exact unknown v hv (same ▸ sub u hu)
  refine ⟨ρ, eq, stays, unknown, ?_⟩
  rintro v (hv | hv) u (hu | hu) same
  · exact List.inj_on_of_nodup_map (eq ▸ nodup') hv hu same
  · exact absurd same (apart v hv u hu)
  · exact absurd same.symm (apart u hu v hv)
  · rwa [stays v hv, stays u hu] at same

/-- The names of a rule stand for variables with other numbers. -/
theorem substAll_zip (ρ : UInt32 → UInt32) (vars : List String) (nums : List UInt32)
    (trees : List (String × Tree)) :
    substAll (fun v => .var (ρ v)) ((vars.zip (nums.map Tree.var)).reverse ++ trees) =
      (vars.zip ((nums.map ρ).map Tree.var)).reverse ++ substAll (fun v => .var (ρ v)) trees := by
  have fresh : (vars.zip (nums.map Tree.var)).map (Prod.map id (Tree.subst fun v => .var (ρ v))) =
      vars.zip ((nums.map ρ).map Tree.var) := by
    rw [← List.zip_map_right, List.map_map, List.map_map]
    rfl
  rw [substAll, List.map_append, List.map_reverse, ← fresh]
  rfl

/-- Trees without the variables that change stay as they are. -/
theorem substAll_of_stays {ρ : UInt32 → UInt32} (stays : ∀ e ∈ trees, ∀ v, e.2.HasVar v → ρ v = v) :
    substAll (fun v => .var (ρ v)) trees = trees := by
  conv => rhs; rw [← List.map_id trees]
  refine List.map_congr_left fun e he => Prod.ext rfl ?_
  show e.2.subst _ = e.2
  conv => rhs; rw [← Tree.subst_id e.2]
  exact Tree.subst_congr fun v hv => congrArg Tree.var (stays e he v hv)

theorem substAll_scope {ρ : UInt32 → UInt32} {x : UInt32} {xs : List UInt32}
    (eq : (w :: nums).map ρ = x :: xs) :
    substAll (fun v => .var (ρ v)) (scope w vars nums trees) =
      scope x vars xs (substAll (fun v => .var (ρ v)) trees) := by
  rw [List.map_cons, List.cons.injEq] at eq
  obtain ⟨rfl, rfl⟩ := eq
  exact congrArg _ (substAll_zip ρ vars nums trees)

/-- Two templates have been built, one after the other and without new variables. -/
structure BothBuilt (env : Env) (lhs rhs : Template) (ses : Session)
    (made : (TermId × TermId) × Session) : Prop where
  keeps : ses.Keeps made.2
  left : made.2.store.Stored made.1.1
  right : made.2.store.Stored made.1.2
  lhs : made.2.store.tree made.1.1 = lhs.treeIn (env.trees .empty made.2.store)
  rhs : made.2.store.tree made.1.2 = rhs.treeIn (env.trees .empty made.2.store)

theorem buildPattern_bothBuilt {r : Env × Session} {witness : TermId} (extended : env.extend vars ses = r)
    (hv : r.2.store.Valid) (stored : ∀ e ∈ ("witness", witness) :: r.1, r.2.store.Stored e.2)
    (hl : lhs.simple ops ((("witness", witness) :: r.1).map Prod.fst) = true)
    (hr : rhs.simple ops ((("witness", witness) :: r.1).map Prod.fst) = true) :
    BothBuilt (("witness", witness) :: r.1) lhs rhs r.2 (buildPattern env vars lhs rhs witness ses) := by
  have made : buildPattern env vars lhs rhs witness ses =
      let first := lhs.build (("witness", witness) :: (env.extend vars ses).1) (env.extend vars ses).2
      let second := rhs.build (("witness", witness) :: (env.extend vars ses).1) first.2
      ((first.1, second.1), second.2) := rfl
  rw [made, extended]
  have first := build_built stored hl
  have keeps : r.2.store.SameVars (lhs.build _ r.2).2.store := build_sameVars hl
  generalize lhs.build _ r.2 = left at first keeps ⊢
  have second := build_built (fun e he => first.grows.store.stored (stored e he)) hr
  have keeps : r.2.store.SameVars (rhs.build _ left.2).2.store := keeps.trans (build_sameVars hr)
  dsimp only
  generalize rhs.build _ left.2 = right at second keeps ⊢
  have first := first.later second.grows
  have hv' := first.grows.store.valid hv
  refine ⟨⟨first.grows, keeps⟩, first.stored, second.stored, ?_, ?_⟩
  · rw [← Subst.tree_empty hv']
    exact first.tree _ (.refl _) _ (.empty hv')
  · rw [← Subst.tree_empty hv']
    exact second.tree _ (.refl _) _ (.empty hv')

/-- Building templates makes a pattern. -/
theorem buildPattern_makes (hv : base.store.Valid) (within : env.Within base.store outer)
    (known : ∀ v, outer v → base.store.Knows v)
    (hl : lhs.simple ops ("witness" :: (vars.reverse ++ env.map Prod.fst)) = true)
    (hr : rhs.simple ops ("witness" :: (vars.reverse ++ env.map Prod.fst)) = true)
    (length : nums.length = vars.length) (nodup : (w :: nums).Nodup)
    (inner : ∀ v ∈ w :: nums, ¬ outer v) :
    Search.Makes base outer (buildPattern env vars lhs rhs)
      (pattern w vars nums (env.trees .empty base.store) lhs rhs) where
  inner := inner w (.head _)
  makes ses l valid := by
    have l₁ := Session.fresh_later ses
    have var : (Session.fresh ses).2.store.term? (Session.fresh ses).1 =
      some (.var ses.store.nextVar) := Store.term?_fresh _
    generalize (Session.fresh ses).1 = witness at var ⊢
    generalize (Session.fresh ses).2 = ses₁ at l₁ var ⊢
    obtain ⟨xs, h⟩ := Env.extend_extended env vars ses₁
    generalize extended : env.extend vars ses₁ = r at h
    have storedEnv : ∀ e ∈ ("witness", witness) :: r.1, r.2.store.Stored e.2 :=
      List.forall_mem_cons.mpr ⟨h.later.grows.store.stored (Store.stored_of_term? var),
        h.stored fun e he => (l.grows.trans l₁.grows).store.stored (within e he).1⟩
    have namesEnv : (("witness", witness) :: r.1).map Prod.fst =
        "witness" :: (vars.reverse ++ env.map Prod.fst) := by
      rw [List.map_cons, h.names]
    have both := buildPattern_bothBuilt extended
      (h.later.grows.store.valid (l₁.grows.store.valid valid)) storedEnv (namesEnv ▸ hl) (namesEnv ▸ hr)
    generalize buildPattern env vars lhs rhs witness ses₁ = made at both ⊢
    have later : r.2.Later made.2 := both.keeps.later
    have g := (l.trans l₁).grows.trans (h.later.trans later).grows
    have hv' := g.store.valid hv
    have var' := (h.later.trans later).grows.store.keeps _ _ var
    refine ⟨(l₁.trans h.later).trans later, both.left, both.right, fun tidy room => ?_⟩
    have room₁ := Store.Roomy.of_grows later.grows.store room
    obtain ⟨nodup', new⟩ := h.new (l₁.tidy tidy (.of_grows h.later.grows.store room₁)) room₁
    have unknown : ∀ x ∈ ses.store.nextVar :: xs, ¬ ses.store.Knows x :=
      List.forall_mem_cons.mpr ⟨tidy.not_knows_fresh,
        fun x hx known => new x hx (l₁.grows.store.knows known)⟩
    obtain ⟨ρ, eq, stays, unknown, inj⟩ := exists_renumbering nodup
      (List.nodup_cons.mpr ⟨fun mem => new _ mem ⟨witness, var⟩, nodup'⟩)
      (by rw [List.length_cons, List.length_cons, length, h.length]) inner unknown
      fun v hv => l.grows.store.knows (known v hv)
    have sub : (pattern w vars nums (env.trees .empty base.store) lhs rhs).names ⊆
        {v | v ∈ w :: nums ∨ outer v} := fun v mem =>
      (names_pattern mem).imp_right fun ⟨e, he, has⟩ => within.of_hasVar hv he has
    -- The environment has the trees that it had, and those of the new variables.
    have scopeEq : Env.trees (("witness", witness) :: r.1) .empty made.2.store =
        substAll (fun v => .var (ρ v)) (scope w vars nums (env.trees .empty base.store)) := by
      rw [substAll_scope eq,
        substAll_of_stays fun e he v has => stays v (within.of_hasVar hv he has)]
      show ("witness", Subst.empty.tree made.2.store witness) :: Env.trees r.1 .empty _ = _
      rw [h.trees _ later.grows.store hv', within.trees_grows hv g.store, Subst.tree_empty hv',
        hv'.tree_var var']
      rfl
    have renamed : ∀ {t : Template} {u : Tree},
        u = t.treeIn (Env.trees (("witness", witness) :: r.1) .empty made.2.store) →
          u = (t.treeIn (scope w vars nums (env.trees .empty base.store))).rename ρ := by
      intro t u eq
      rw [eq, scopeEq]
      exact (treeIn_subst _ t).symm
    refine ⟨ρ, inj.mono sub, fun v _ => stays v, ?_, ?_, renamed both.lhs, renamed both.rhs⟩
    · exact fun v hv ho => unknown v ((sub hv).resolve_right ho)
    · show made.2.store.term? witness = some (Term.var (ρ w))
      rw [(List.cons.inj eq).1]
      exact var'

end Template

end Regraft.Script
