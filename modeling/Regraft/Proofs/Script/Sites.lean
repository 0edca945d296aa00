import Regraft.Proofs.Rewriting.Together
import Regraft.Proofs.Script.Makes
import Mathlib.Logic.Equiv.Fintype

/-
  The rules for several sites that scripts make. The names that such a rule lists are bound to new variables,
  and the templates of its sites and of its condition are built with them, so that it makes the same
  patterns anew each time, under other names (`Rule.correlated_makes`).
-/

namespace Regraft.Script

open Regraft.Tree (Pattern Correlation)
open Regraft.Tree.Pattern (Moved Renumbers)
open Template (substAll)
open Search (MadePair MadeSite MakesSites Shares)

variable {ops vars names : List String} {ses base : Session} {env : Env} {outer shared : UInt32 → Prop}
  {trees : List (String × Tree)} {pairs : List (Template × Template)} {x y : Template}

/-! ## Conditions -/

/-- A pair of terms has been built for a pair of templates. -/
def BuiltPair (env : Env) (ses ses' : Session) (b : TermId × TermId) (p : Template × Template) : Prop :=
  Built env p.1 ses (b.1, ses') ∧ Built env p.2 ses (b.2, ses')

namespace BuiltPair

variable {b : TermId × TermId} {p : Template × Template} {ses' ses'' : Session}

theorem later (h : BuiltPair env ses ses' b p) (g : ses'.Grows ses'') : BuiltPair env ses ses'' b p :=
  ⟨h.1.later g, h.2.later g⟩

theorem earlier (h : BuiltPair env ses' ses'' b p) (g : ses.Grows ses') : BuiltPair env ses ses'' b p :=
  ⟨⟨g.trans h.1.grows, h.1.stored, h.1.tree⟩, ⟨g.trans h.2.grows, h.2.stored, h.2.tree⟩⟩

end BuiltPair

/-- A condition has been built, which tells pairs of terms apart. -/
structure Guarded (env : Env) (pairs : List (Template × Template)) (ses : Session)
    (r : Regraft.Goal × Session) : Prop where
  keeps : ses.Keeps r.2
  apart : ∃ built, r.1.TellsApart built ∧ List.Forall₂ (BuiltPair env ses r.2) built pairs

/-- A condition is built so that it tells pairs of terms apart. -/
def Guards (names : List String) (pairs : List (Template × Template)) (guard : Goal) : Prop :=
  ∀ env ses, env.map Prod.fst = names → (∀ e ∈ env, ses.store.Stored e.2) →
    Guarded env pairs ses (guard.build env ses)

theorem guards_succeed (names : List String) : Guards names [] .succeed := by
  intro env ses _ _
  rw [Goal.build]
  exact ⟨.refl ses, [], .succeed, .nil⟩

theorem guards_neq (hx : x.simple ops names = true) (hy : y.simple ops names = true) :
    Guards names [(x, y)] (.neq x y) := by
  rintro env ses rfl stored
  have left := Template.build_built stored hx
  have right := Template.build_built (fun e he => left.grows.store.stored (stored e he)) hy
  rw [Goal.build_neq]
  exact ⟨⟨left.grows.trans right.grows, (Template.build_sameVars hx).trans (Template.build_sameVars hy)⟩, _, .neq _ _,
    .cons ⟨left.later right.grows, left.grows.trans right.grows, right.stored, right.tree⟩ .nil⟩

/-- Conditions are built one after the other. -/
theorem guards_all {goals : List (List (Template × Template) × Goal)} (each : ∀ g ∈ goals, Guards names g.1 g.2)
    (envNames : env.map Prod.fst = names) (stored : ∀ e ∈ env, ses.store.Stored e.2) :
    ses.Keeps (Goal.buildAll env (goals.map Prod.snd) ses).2 ∧ ∃ built : List (List (TermId × TermId) × Regraft.Goal),
      (Goal.buildAll env (goals.map Prod.snd) ses).1 = built.map Prod.snd ∧ (∀ g ∈ built, g.2.TellsApart g.1) ∧
      List.Forall₂ (BuiltPair env ses (Goal.buildAll env (goals.map Prod.snd) ses).2)
        (built.flatMap Prod.fst) (goals.flatMap Prod.fst) := by
  induction goals generalizing ses with
  | nil =>
    rw [List.map_nil, Goal.buildAll]
    exact ⟨.refl ses, [], rfl, nofun, .nil⟩
  | cons g goals ih =>
    obtain ⟨keeps, pairs, apart, first⟩ := each g (.head _) env ses envNames stored
    obtain ⟨keepsRest, built, eq, tells, rest⟩ := ih (fun g hg => each g (.tail _ hg))
      fun e he => keeps.grows.store.stored (stored e he)
    rw [List.map_cons, Goal.buildAll]
    refine ⟨keeps.trans keepsRest, (pairs, (g.2.build env ses).1) :: built, congrArg (_ :: ·) eq,
      List.forall_mem_cons.mpr ⟨apart, tells⟩, ?_⟩
    rw [List.flatMap_cons, List.flatMap_cons]
    exact List.rel_append (first.imp fun _ _ h => h.later keepsRest.grows)
      (rest.imp fun _ _ h => h.earlier keeps.grows)

theorem guards_conj {goals : List (List (Template × Template) × Goal)}
    (each : ∀ g ∈ goals, Guards names g.1 g.2) :
    Guards names (goals.flatMap Prod.fst) (.conj (goals.map Prod.snd)) := by
  intro env ses envNames stored
  obtain ⟨keeps, built, eq, tells, pairs⟩ := guards_all each envNames stored
  rw [Goal.build]
  refine ⟨keeps, built.flatMap Prod.fst, ?_, pairs⟩
  show Goal.TellsApart _ (.conj (Goal.buildAll env (goals.map Prod.snd) ses).1)
  rw [eq]
  exact .conj tells

/-! ## Sites -/

/-- A rule for a site, with numbers for its own variables that are not shared. -/
def SiteOf (ops names : List String) (shared : UInt32 → Prop) (trees : List (String × Tree)) (rule : Rule)
    (p : Pattern) : Prop :=
  ∃ name vars w nums lhs rhs, rule = .pattern name vars lhs rhs ∧
    p = Template.pattern w vars nums trees lhs rhs ∧
    lhs.simple ops ("witness" :: (vars.reverse ++ names)) = true ∧
    rhs.simple ops ("witness" :: (vars.reverse ++ names)) = true ∧
    nums.length = vars.length ∧ (w :: nums).Nodup ∧ ∀ v ∈ w :: nums, ¬ shared v

/-- A site that has no variables but the shared ones. -/
theorem SiteOf.plain (name : String) {lhs rhs : Template} {w : UInt32}
    (hl : lhs.simple ops ("witness" :: names) = true) (hr : rhs.simple ops ("witness" :: names) = true)
    (hw : ¬ shared w) :
    SiteOf ops names shared trees (.pattern name [] lhs rhs) (Template.pattern w [] [] trees lhs rhs) :=
  ⟨name, [], w, [], lhs, rhs, rfl, rfl, hl, hr, rfl, List.nodup_singleton w, List.forall_mem_singleton.mpr hw⟩

theorem rename_pattern (ρ : UInt32 → UInt32) (w : UInt32) (vars : List String) (nums : List UInt32)
    (trees : List (String × Tree)) (lhs rhs : Template) :
    (Template.pattern w vars nums trees lhs rhs).rename ρ =
      Template.pattern (ρ w) vars (nums.map ρ) (substAll (fun v => .var (ρ v)) trees) lhs rhs := by
  have numbers : (w :: nums).map ρ = ρ w :: nums.map ρ := List.map_cons
  have scope : substAll (fun v => .var (ρ v)) (Template.scope w vars nums trees) = _ :=
    Template.substAll_scope numbers
  show (⟨_, _, _⟩ : Pattern) = ⟨_, _, _⟩
  rw [Template.pattern, Tree.rename, Tree.rename, Template.treeIn_subst, Template.treeIn_subst, scope]

/-- New numbers for some variables are extended to all, so that none get mixed up. -/
theorem exists_perm {r : UInt32 → UInt32} (inj : Set.InjOn r {v | shared v}) :
    ∃ π : Equiv.Perm UInt32, ∀ v, shared v → π v = r v := by
  classical
  have : Finite UInt32 := Finite.of_injective UInt32.toFin fun _ _ h => UInt32.toFin_inj.mp h
  let e := Equiv.Set.imageOfInjOn r {v | shared v} inj
  exact ⟨e.extendSubtype, fun v hv => e.extendSubtype_apply_of_mem v hv⟩

variable {ses' : Session} {π : Equiv.Perm UInt32} {rule : Rule} {p : Pattern} {sites : List Rule} {ps : List Pattern}

theorem not_moved {v : UInt32} (h : ¬ shared v) : ¬ Moved π shared (π v) := by
  rintro ⟨u, hu, eq⟩
  exact h (π.injective eq ▸ hu)

/-- A site is built with the names of the rule. -/
theorem SiteOf.made (h : SiteOf ops names shared trees rule p) (hv : ses.store.Valid)
    (known : ∀ v, Moved π shared v → ses.store.Knows v) (envNames : env.map Prod.fst = names)
    (stored : ∀ e ∈ env, ses.store.Stored e.2)
    (read : env.trees .empty ses.store = substAll (fun v => .var (π v)) trees)
    (within : ∀ e ∈ trees, ∀ v, e.2.HasVar v → shared v) :
    MadeSite ses shared π (rule.build env) p := by
  obtain ⟨name, vars, w, nums, lhs, rhs, rfl, rfl, hl, hr, length, nodup, inner⟩ := h
  have inEnv : env.Within ses.store (Moved π shared) := by
    refine fun e he => ⟨stored e he, fun v hv' => ?_⟩
    have mem : (e.1, ses.store.tree e.2) ∈ env.trees .empty ses.store := by
      rw [← Subst.tree_empty hv]
      exact List.mem_map_of_mem he
    rw [read] at mem
    obtain ⟨e', mem, eq⟩ := List.mem_map.mp mem
    have tree : ses.store.tree e.2 = e'.2.rename π := (congrArg Prod.snd eq).symm
    obtain ⟨u, hu, rfl⟩ := Tree.hasVar_rename.mp (tree ▸ hv')
    exact ⟨u, within e' mem u hu, rfl⟩
  subst envNames
  have nodup' : (π w :: nums.map π).Nodup := nodup.map π.injective
  have inner' : ∀ v ∈ π w :: nums.map π, ¬ Moved π shared v := by
    rw [← List.map_cons]
    exact List.forall_mem_map.mpr fun v hv => not_moved (inner v hv)
  have makes := Template.buildPattern_makes hv inEnv known hl hr
    ((List.length_map π).trans length) nodup' inner'
  rw [read, ← rename_pattern] at makes
  refine ⟨name, _, _, ?_, ⟨π, rfl, π.injective.injOn, fun _ _ _ => rfl, fun v _ => not_moved⟩, makes⟩
  rw [Rule.build]

theorem SiteOf.all_made (h : List.Forall₂ (SiteOf ops names shared trees) sites ps) (hv : ses.store.Valid)
    (known : ∀ v, Moved π shared v → ses.store.Knows v) (envNames : env.map Prod.fst = names)
    (stored : ∀ e ∈ env, ses.store.Stored e.2)
    (read : env.trees .empty ses.store = substAll (fun v => .var (π v)) trees)
    (within : ∀ e ∈ trees, ∀ v, e.2.HasVar v → shared v) :
    List.Forall₂ (MadeSite ses shared π) (Rule.buildAll env sites) ps := by
  induction h with
  | nil =>
    rw [Rule.buildAll]
    exact .nil
  | cons first _ ih =>
    rw [Rule.buildAll]
    exact .cons (first.made hv known envNames stored read within) ih

/-! ## Rules for several sites -/

/-- The trees for the names of a rule for several sites. -/
def sharedTrees (vars : List String) (nums : List UInt32) (env : Env) (st : Store) : List (String × Tree) :=
  (vars.zip (nums.map Tree.var)).reverse ++ env.trees .empty st

/-- The patterns of a rule for several sites and its condition, with numbers for the variables. -/
def correlation (outer : UInt32 → Prop) (nums : List UInt32) (trees : List (String × Tree)) (ps : List Pattern)
    (pairs : List (Template × Template)) : Correlation where
  shared v := outer v ∨ v ∈ nums
  sites := ps
  apart := pairs.map fun p => (p.1.treeIn trees, p.2.treeIn trees)

variable {nums : List UInt32} {guard : Goal} {v : UInt32}

theorem shared_of_hasVar {e : String × Tree} (hv : base.store.Valid) (within : env.Within base.store outer)
    (he : e ∈ sharedTrees vars nums env base.store) (has : e.2.HasVar v) : outer v ∨ v ∈ nums := by
  rcases List.mem_append.mp he with he | he
  · obtain ⟨x, hx, eq⟩ := List.mem_map.mp (List.of_mem_zip (List.mem_reverse.mp he)).2
    rw [← eq] at has
    exact .inr (Tree.hasVar_var.mp has ▸ hx)
  · exact .inl (within.of_hasVar hv he has)

/-- What a rule for several sites makes. -/
def buildCorrelated (env : Env) (vars : List String) (sites : List Rule) (guard : Goal) :
    SessionM (List Regraft.Rule × Regraft.Goal) := do
  let env ← env.extend vars
  let guard ← guard.build env
  return (Rule.buildAll env sites, guard)

theorem build_correlated (name : String) : (Rule.correlated name vars sites guard).build env =
    .correlated name (buildCorrelated env vars sites guard) := by
  rw [Rule.build]
  rfl

/-- Building the sites and the condition makes the same patterns anew. -/
theorem correlated_makes (hv : base.store.Valid) (within : env.Within base.store outer)
    (known : ∀ v, outer v → base.store.Knows v) (length : nums.length = vars.length) (nodup : nums.Nodup)
    (inner : ∀ v ∈ nums, ¬ outer v) (nonempty : ps ≠ [])
    (sites_of : List.Forall₂ (SiteOf ops (vars.reverse ++ env.map Prod.fst) (fun v => outer v ∨ v ∈ nums)
      (sharedTrees vars nums env base.store)) sites ps)
    (guards : Guards (vars.reverse ++ env.map Prod.fst) pairs guard) :
    MakesSites base outer (buildCorrelated env vars sites guard)
      (correlation outer nums (sharedTrees vars nums env base.store) ps pairs) where
  nonempty := nonempty
  makes ses l valid := by
    obtain ⟨xs, h⟩ := Env.extend_extended env vars ses
    show Search.MadeSites outer _ ses ((Rule.buildAll (env.extend vars ses).1 sites,
      (guard.build (env.extend vars ses).1 (env.extend vars ses).2).1),
      (guard.build (env.extend vars ses).1 (env.extend vars ses).2).2)
    generalize env.extend vars ses = r at h ⊢
    have stored := h.stored fun e he => l.grows.store.stored (within e he).1
    have guarded := guards r.1 r.2 h.names stored
    generalize guard.build r.1 r.2 = g at guarded ⊢
    have later : r.2.Later g.2 := guarded.keeps.later
    have grows := (l.grows.trans h.later.grows).trans later.grows
    have hv' := grows.store.valid hv
    refine ⟨h.later.trans later, fun tidy room => ?_⟩
    obtain ⟨nodup', new⟩ := h.new tidy (.of_grows later.grows.store room)
    obtain ⟨ρ, eq, stays, unknown, inj⟩ := Template.exists_renumbering nodup nodup' (length.trans h.length.symm)
      inner new fun v hv => l.grows.store.knows (known v hv)
    have injShared : Set.InjOn ρ {v | outer v ∨ v ∈ nums} := inj.mono fun v hv => hv.symm
    obtain ⟨π, perm⟩ := exists_perm injShared
    have same : nums.map π = xs := eq ▸ List.map_congr_left fun v hv => perm v (.inr hv)
    have stays : ∀ v, outer v → π v = v := fun v hv => (perm v (.inl hv)).trans (stays v hv)
    have shares : Shares outer (fun v => outer v ∨ v ∈ nums) ses.store g.2.store π := by
      refine ⟨π.injective.injOn, fun v => .inl, stays, fun v hs ho => ?_, ?_⟩
      · rw [perm v hs]
        exact unknown v (hs.resolve_left ho)
      · rintro v (ho | hn)
        · rw [stays v ho]
          exact grows.store.knows (known v ho)
        · exact later.grows.store.knows (h.known _ (same ▸ List.mem_map_of_mem hn))
    -- The names stand for the same trees, under new numbers.
    have read : r.1.trees .empty g.2.store =
        substAll (fun v => .var (π v)) (sharedTrees vars nums env base.store) := by
      rw [h.trees _ later.grows.store hv', within.trees_grows hv grows.store, sharedTrees,
        Template.substAll_zip, same,
        Template.substAll_of_stays fun e he v has => stays v (within.of_hasVar hv he has)]
    have made := SiteOf.all_made sites_of hv' (fun v => shares.moved_known) h.names
      (fun e he => later.grows.store.stored (stored e he)) read fun e he v has => shared_of_hasVar hv within he has
    obtain ⟨built, apart, each⟩ := guarded.apart
    refine ⟨π, shares, made, built, apart, List.forall₂_map_right_iff.mpr (each.imp fun b p both => ?_)⟩
    have tree : ∀ {t : TermId} {x : Template}, Built r.1 x r.2 (t, g.2) → g.2.store.tree t =
        (x.treeIn (sharedTrees vars nums env base.store)).rename π := by
      intro t x h
      rw [← Subst.tree_empty hv', h.tree _ (.refl _) _ (.empty hv'), read]
      exact (Template.treeIn_subst _ x).symm
    exact ⟨⟨both.1.stored, both.2.stored⟩, tree both.1, tree both.2⟩

end Regraft.Script
