import Regraft.Proofs.Renaming.Rules
import Regraft.Proofs.Script.Built

/-
  What scripts make on two sides is alike (`Goal.build_acts`, `Rule.build_rules`), provided that they name no
  variable but new ones, bound ones and those that both sides have in common (`Template.within`).
-/

namespace Regraft

namespace Script

/-! ## Variables that are mentioned -/

namespace Template

mutual

/-- A template mentions only bound names, variables and names that are common, and new variables. -/
def within (k : Common) (bound : List String) : Template → Bool
  | ref name => bound.contains name || (k.names name).isSome
  | var index => index.toNat < k.base
  | named name => (k.names name).isSome
  | op _ args | tagged _ args _ => withinAll k bound args
  | number _ | constant _ _ | input _ | fresh => true

def withinAll (k : Common) (bound : List String) : List Template → Bool
  | [] => true
  | t :: rest => within k bound t && withinAll k bound rest

end

end Template

mutual

def Goal.within (k : Common) (bound : List String) : Goal → Bool
  | .succeed | .fail | .never => true
  | .eq a b | .neq a b | .modulo a b | .site a b => a.within k bound && b.within k bound
  | .conj goals | .disj goals => Goal.withinAll k bound goals
  | .countFrom a _ => a.within k bound
  | .defer vars body => body.within k (vars.reverse ++ bound)
  | .relate rule a b | .anywhere rule a b =>
    rule.within k bound && (a.within k bound && b.within k bound)
  | .sites rules a b => Rule.withinAll k bound rules && (a.within k bound && b.within k bound)

def Goal.withinAll (k : Common) (bound : List String) : List Goal → Bool
  | [] => true
  | g :: rest => g.within k bound && Goal.withinAll k bound rest

/-- The same for rules, whose own variables are bound in them. -/
def Rule.within (k : Common) (bound : List String) : Rule → Bool
  | .pattern _ vars lhs rhs | .patternInChain _ vars lhs rhs =>
    lhs.within k ("witness" :: (vars.reverse ++ bound)) &&
      rhs.within k ("witness" :: (vars.reverse ++ bound))
  | .any _ rules => Rule.withinAll k bound rules
  | .correlated _ vars sites guard =>
    guard.within k (vars.reverse ++ bound) && Rule.withinAll k (vars.reverse ++ bound) sites
  | .relation _ vars goal => goal.within k ("output" :: "input" :: (vars.reverse ++ bound))

def Rule.withinAll (k : Common) (bound : List String) : List Rule → Bool
  | [] => true
  | r :: rest => r.within k bound && Rule.withinAll k bound rest

end

end Script

namespace Renaming

variable {ρ : Renaming} {p q : Sides} {env env' : Script.Env} {bound : List String}

/-! ## Environments -/

/-- Environments that bind the same names to twins. -/
structure Envs (ρ : Renaming) (bound : List String) (p : Sides) (env env' : Script.Env) : Prop where
  each : List.Forall₂ (fun e e' => e.1 = e'.1 ∧ ρ.Same p e.2 e'.2) env env'
  names : env.map Prod.fst = bound

namespace Envs

theorem nil : ρ.Envs [] p [] [] := ⟨.nil, rfl⟩

theorem grow (h : ρ.Envs bound p env env') (g : p.Grow q) : ρ.Envs bound q env env' :=
  ⟨h.each.imp fun _ _ e => ⟨e.1, Same.grow e.2 g⟩, h.names⟩

theorem cons (h : ρ.Envs bound p env env') (name : String) {t t' : TermId} (same : ρ.Same p t t') :
    ρ.Envs (name :: bound) p ((name, t) :: env) ((name, t') :: env') :=
  ⟨.cons ⟨rfl, same⟩ h.each, congrArg (name :: ·) h.names⟩

theorem stored (h : ρ.Envs bound p env env') : ∀ e ∈ env', p.right.store.Stored e.2 := by
  have each := h.each
  clear h
  induction each with
  | nil => exact nofun
  | cons first _ ih => exact List.forall_mem_cons.mpr ⟨first.2.stored_right, ih⟩

/-- Names are looked up alike, and bound names are found. -/
theorem lookup (h : ρ.Envs bound p env env') (name : String) :
    Option.Rel (ρ.Same p) (env.lookup name) (env'.lookup name) ∧
      (env.lookup name = none → bound.contains name = false) := by
  obtain ⟨each, rfl⟩ := h
  induction each with
  | nil => exact ⟨.none, fun _ => rfl⟩
  | @cons e e' rest rest' first _ ih =>
    obtain ⟨eq, same⟩ := first
    rw [List.lookup_cons, List.lookup_cons, ← eq, List.map_cons, List.contains_cons]
    cases name == e.1 with
    | true => exact ⟨.some same, nofun⟩
    | false => exact ih

theorem extend_acts (vars : List String) (h : ρ.Envs bound p env env') :
    ρ.Acts p (ρ.Envs (vars.reverse ++ bound)) (env.extend vars) (env'.extend vars) := by
  induction vars generalizing p env env' bound with
  | nil => exact Steady.acts (.pure h)
  | cons name rest ih =>
    rw [List.reverse_cons, List.append_assoc, List.singleton_append]
    refine fresh_acts.bind ?_ fun q v v' g hv => ih ((h.grow g).cons name hv)
    obtain ⟨-, -, -, grows, -⟩ := Script.Env.extend_spec ((name, (Session.fresh p.right).1) :: env') rest
      (Session.fresh p.right).2
    exact grows

end Envs

/-! ## Terms -/

theorem op_grows {ses : Session} {ts : List TermId} (raw : String)
    (h : ∀ t ∈ ts, ses.store.Stored t) : ses.Grows (Session.op raw ts ses).2 := by
  refine (Script.note_grows (OpName.normalize raw).name ses).trans ?_
  show (Session.note (OpName.normalize raw).name ses).2.Grows (Session.onStore
    (Store.app (OpName.normalize raw).name ts
      { Attrs.unspecified with output := (OpName.normalize raw).output })
    (Session.note (OpName.normalize raw).name ses).2).2
  exact Session.onStore_grows (Store.app_grows h)

theorem tagged_grows {ses : Session} {ts : List TermId} (tag : String) (attrs : Attrs)
    (h : ∀ t ∈ ts, ses.store.Stored t) : ses.Grows (Session.tagged tag ts attrs ses).2 := by
  refine (Script.note_grows tag ses).trans ?_
  show (Session.note tag ses).2.Grows
    (Session.onStore (Store.app tag ts attrs) (Session.note tag ses).2).2
  exact Session.onStore_grows (Store.app_grows h)

open Script (Template)

mutual

/-- A template is built alike on both sides. -/
theorem build_acts (t : Template) {p : Sides} (h : t.within ρ.toCommon bound = true)
    (envs : ρ.Envs bound p env env') : ρ.Acts p ρ.Same (t.build env) (t.build env') := by
  match t with
  | .ref name =>
    obtain ⟨found, unbound⟩ := envs.lookup name
    rw [Template.build, Template.build]
    rw [Template.within] at h
    generalize env.lookup name = x at found unbound ⊢
    generalize env'.lookup name = x' at found ⊢
    cases found with
    | none =>
      rw [unbound rfl] at h
      exact (named_steady h).acts
    | some same => exact Steady.acts (.pure same)
  | .number x =>
    rw [Template.build, Template.build]
    exact (leaf_steady _).acts
  | .constant value elem =>
    rw [Template.build, Template.build]
    exact (leaf_steady _).acts
  | .input name =>
    rw [Template.build, Template.build]
    exact (input_steady name).acts
  | .var index =>
    rw [Template.build, Template.build]
    rw [Template.within] at h
    exact (var_steady (of_decide_eq_true h)).acts
  | .named name =>
    rw [Template.build, Template.build]
    rw [Template.within] at h
    exact (named_steady h).acts
  | .fresh =>
    rw [Template.build, Template.build]
    exact fresh_acts
  | .op raw args =>
    rw [Template.build, Template.build]
    rw [Template.within] at h
    refine (buildAll_acts args h envs).bind ?_ fun q ts ts' g same => (op_steady same raw).acts
    exact op_grows raw (Template.buildAll_adds args envs.stored).2
  | .tagged tag args attrs =>
    rw [Template.build, Template.build]
    rw [Template.within] at h
    refine (buildAll_acts args h envs).bind ?_ fun q ts ts' g same =>
      (tagged_steady same tag attrs).acts
    exact tagged_grows tag attrs (Template.buildAll_adds args envs.stored).2

theorem buildAll_acts (ts : List Template) {p : Sides}
    (h : Template.withinAll ρ.toCommon bound ts = true) (envs : ρ.Envs bound p env env') :
    ρ.Acts p ρ.Sames (Template.buildAll env ts) (Template.buildAll env' ts) := by
  match ts with
  | [] =>
    rw [Template.buildAll, Template.buildAll]
    exact Steady.acts (.pure .nil)
  | t :: rest =>
    rw [Template.withinAll, Bool.and_eq_true] at h
    rw [Template.buildAll, Template.buildAll]
    refine (build_acts t h.1 envs).bind ?_ fun q x x' g hx => ?_
    · have g := (Template.build_adds t envs.stored).grows
      exact (Template.buildAll_adds rest fun e he => g.store.stored (envs.stored e he)).1
    · exact (buildAll_acts rest h.2 (envs.grow g)).bind (.refl _) fun r _ _ g' later =>
        Steady.acts (.pure (.cons (hx.grow g') later))

end

/-- Two terms are built, and then what is made of them. -/
theorem both_acts {α β : Type} {R : Sides → α → β → Prop} (a b : Template)
    (ha : a.within ρ.toCommon bound = true) (hb : b.within ρ.toCommon bound = true)
    (envs : ρ.Envs bound p env env') {next : TermId → TermId → SessionM α}
    {next' : TermId → TermId → SessionM β}
    (grows : ∀ ses x y, p.right.Grows ses → ses.store.Holds Tree.anyLabel x →
      ses.store.Holds Tree.anyLabel y → ses.Grows (next' x y ses).2)
    (later : ∀ q x x' y y', p.Grow q → ρ.Same q x x' → ρ.Same q y y' →
      ρ.Acts q R (next x y) (next' x' y')) :
    ρ.Acts p R (a.build env >>= fun x => b.build env >>= fun y => next x y)
      (a.build env' >>= fun x => b.build env' >>= fun y => next' x y) := by
  intro agree
  refine (build_acts a ha envs).bind ?_ (fun q x x' g hx agree₁ => ?_) agree
  · have first := Template.build_adds a envs.stored
    obtain ⟨g, left, right⟩ := Template.build_both a b agree.stores.right envs.stored
    have second := Template.build_adds b fun e he => first.grows.store.stored (envs.stored e he)
    exact second.grows.trans (grows _ _ _ g left right)
  · have second := Template.build_adds b (envs.grow g).stored
    have holds := (hx.holds agree₁).grows second.grows.store
    refine (build_acts b hb (envs.grow g)).bind ?_ (fun r y y' g' hy => ?_) agree₁
    · exact grows _ _ _ (g.right.trans second.grows) holds
        (.of_stored (second.grows.store.valid agree₁.stores.right) second.stored)
    · exact later r x x' y y' (g.trans g') (hx.grow g') hy

/-- Patterns and replacements are made alike. -/
theorem buildPattern_makes (vars : List String) (lhs rhs : Template)
    (hl : lhs.within ρ.toCommon ("witness" :: (vars.reverse ++ bound)) = true)
    (hr : rhs.within ρ.toCommon ("witness" :: (vars.reverse ++ bound)) = true)
    (envs : ρ.Envs bound p env env') :
    ρ.Makes p (Template.buildPattern env vars lhs rhs) (Template.buildPattern env' vars lhs rhs) := by
  intro q w w' g hw agree
  refine (envs.grow g).extend_acts vars |>.bind ?_ (fun r inner inner' g' envs' => ?_) agree
  · obtain ⟨g', extended⟩ := Script.Env.extend_stored vars (envs.grow g).stored
    have names : ∀ e ∈ ("witness", w') :: (Script.Env.extend env' vars q.right).1,
        (Script.Env.extend env' vars q.right).2.store.Stored e.2 :=
      List.forall_mem_cons.mpr ⟨g'.store.stored hw.stored_right, extended⟩
    exact (Template.build_both lhs rhs (g'.store.valid agree.stores.right) names).1
  · exact both_acts lhs rhs hl hr (envs'.cons "witness" (hw.grow g')) (fun ses _ _ _ _ _ => .refl ses)
      fun _ _ _ _ _ _ hx hy => Steady.acts (.pure ⟨hx, hy⟩)

/-! ## Goals and rules -/

/-- A goal about two terms is built alike. -/
theorem pair_acts (a b : Template)
    (h : (a.within ρ.toCommon bound && b.within ρ.toCommon bound) = true)
    (envs : ρ.Envs bound p env env') {make : TermId → TermId → Goal}
    (each : ∀ {q x x' y y'}, ρ.Same q x x' → ρ.Same q y y' → ρ.Goals q (make x y) (make x' y')) :
    ρ.Acts p ρ.Goals (a.build env >>= fun x => b.build env >>= fun y => pure (make x y))
      (a.build env' >>= fun x => b.build env' >>= fun y => pure (make x y)) := by
  rw [Bool.and_eq_true] at h
  exact both_acts a b h.1 h.2 envs (fun ses _ _ _ _ _ => .refl ses) fun q x x' y y' _ hx hy =>
    Steady.acts (.pure (each hx hy))

theorem defer_build (vars : List String) (body : Script.Goal) {ses ses' : Session}
    (hv : ses.store.Valid) (stored : ∀ e ∈ env, ses.store.Stored e.2) (g : ses.Grows ses') :
    ses'.Grows (body.build (env.extend vars ses').1 (env.extend vars ses').2).2 ∧
      Goal.Built Tree.anyLabel (body.build (env.extend vars ses').1 (env.extend vars ses').2).2
        (body.build (env.extend vars ses').1 (env.extend vars ses').2).1 := by
  obtain ⟨g', extended⟩ := Script.Env.extend_stored vars fun e he => g.store.stored (stored e he)
  obtain ⟨g'', built⟩ := Script.Goal.build_built body ((g.trans g').store.valid hv) extended
  exact ⟨g'.trans g'', built⟩

mutual

/-- A goal is built alike on both sides. -/
theorem goal_acts (goal : Script.Goal) {p : Sides} {bound : List String} {env env' : Script.Env}
    (h : goal.within ρ.toCommon bound = true) (envs : ρ.Envs bound p env env') :
    ρ.Acts p ρ.Goals (goal.build env) (goal.build env') := by
  match goal with
  | .succeed =>
    rw [Script.Goal.build, Script.Goal.build]
    exact Steady.acts (.pure succeed_goals)
  | .fail =>
    rw [Script.Goal.build, Script.Goal.build]
    exact Steady.acts (.pure fail_goals)
  | .never =>
    rw [Script.Goal.build, Script.Goal.build]
    exact Steady.acts (.pure never_goals)
  | .eq a b =>
    rw [Script.Goal.build, Script.Goal.build]
    rw [Script.Goal.within] at h
    exact pair_acts a b h envs eq_goals
  | .neq a b =>
    rw [Script.Goal.build, Script.Goal.build]
    rw [Script.Goal.within] at h
    exact pair_acts a b h envs neq_goals
  | .modulo a b =>
    rw [Script.Goal.build, Script.Goal.build]
    rw [Script.Goal.within] at h
    exact pair_acts a b h envs modulo_goals
  | .site a b =>
    rw [Script.Goal.build, Script.Goal.build]
    rw [Script.Goal.within] at h
    exact pair_acts a b h envs site_goals
  | .conj goals =>
    rw [Script.Goal.build, Script.Goal.build]
    rw [Script.Goal.within] at h
    exact (goalAll_acts goals h envs).bind (.refl _) fun _ _ _ _ goals =>
      Steady.acts (.pure (conj_goals goals))
  | .disj goals =>
    rw [Script.Goal.build, Script.Goal.build]
    rw [Script.Goal.within] at h
    exact (goalAll_acts goals h envs).bind (.refl _) fun _ _ _ _ goals =>
      Steady.acts (.pure (disj_goals goals))
  | .countFrom a x =>
    rw [Script.Goal.build, Script.Goal.build]
    rw [Script.Goal.within] at h
    exact (build_acts a h envs).bind (.refl _) fun _ _ _ _ same =>
      Steady.acts (.pure (countFrom_goals same x))
  | .defer vars body =>
    rw [Script.Goal.build, Script.Goal.build]
    rw [Script.Goal.within] at h
    refine Steady.acts fun agree => ⟨agree, .refl p, defer_goals (fun q g agree' => ?_) fun ses g =>
      defer_build vars body agree.stores.right envs.stored g⟩
    refine (envs.grow g).extend_acts vars |>.bind ?_ (fun r _ _ _ envs' => goal_acts body h envs')
      agree'
    have stored := (envs.grow g).stored
    obtain ⟨g', extended⟩ := Script.Env.extend_stored vars stored
    exact (Script.Goal.build_built body (g'.store.valid agree'.stores.right) extended).1
  | .relate rule a b =>
    rw [Script.Goal.build, Script.Goal.build]
    rw [Script.Goal.within, Bool.and_eq_true, Bool.and_eq_true] at h
    have rules := rule_rules rule h.1 envs
    refine both_acts a b h.2.1 h.2.2 envs (fun ses x y g hx hy => ?_) fun q x x' y y' g hx hy => ?_
    · exact (rules.builds ses x y g hx hy).1
    · exact rules.relates q x x' y y' g hx hy
  | .anywhere rule a b =>
    rw [Script.Goal.build, Script.Goal.build]
    rw [Script.Goal.within, Bool.and_eq_true] at h
    have rules := rule_rules rule h.1 envs
    rw [Bool.and_eq_true] at h
    refine both_acts a b h.2.1 h.2.2 envs (fun ses _ _ _ _ _ => .refl ses)
      fun q x x' y y' g hx hy => Steady.acts (.pure ?_)
    exact anywhere_goals (rules.relates.grow g) hx hy
  | .sites rules a b =>
    rw [Script.Goal.build, Script.Goal.build]
    rw [Script.Goal.within, Bool.and_eq_true, Bool.and_eq_true] at h
    have each := rules_rules rules h.1 envs
    refine both_acts a b h.2.1 h.2.2 envs (fun ses _ _ _ _ _ => .refl ses)
      fun q x x' y y' g hx hy => Steady.acts fun agree => ⟨agree, .refl q, ?_⟩
    exact sites_goals agree (rules_grow each g) hx hy

theorem goalAll_acts (goals : List Script.Goal) {p : Sides} {bound : List String}
    {env env' : Script.Env} (h : Script.Goal.withinAll ρ.toCommon bound goals = true)
    (envs : ρ.Envs bound p env env') : ρ.Acts p (fun q => List.Forall₂ (ρ.Goals q))
      (Script.Goal.buildAll env goals) (Script.Goal.buildAll env' goals) := by
  match goals with
  | [] =>
    rw [Script.Goal.buildAll, Script.Goal.buildAll]
    exact Steady.acts (.pure .nil)
  | goal :: rest =>
    rw [Script.Goal.withinAll, Bool.and_eq_true] at h
    rw [Script.Goal.buildAll, Script.Goal.buildAll]
    intro agree
    refine (goal_acts goal h.1 envs).bind ?_ (fun q _ _ g here => ?_) agree
    · obtain ⟨g, -⟩ := Script.Goal.build_built goal agree.stores.right envs.stored
      exact (Script.Goal.buildAll_built rest (g.store.valid agree.stores.right)
        fun e he => g.store.stored (envs.stored e he)).1
    · exact (goalAll_acts rest h.2 (envs.grow g)).bind (.refl _) fun _ _ _ g' later =>
        Steady.acts (.pure (.cons (here.grow g') later))

/-- A rule relates twins alike on both sides. -/
theorem rule_rules (rule : Script.Rule) {p : Sides} {bound : List String} {env env' : Script.Env}
    (h : rule.within ρ.toCommon bound = true) (envs : ρ.Envs bound p env env') :
    ρ.Rules p (rule.build env) (rule.build env') := by
  refine ⟨?_, Script.Rule.build_builds rule envs.stored⟩
  match rule with
  | .pattern name vars lhs rhs =>
    rw [Script.Rule.build, Script.Rule.build]
    rw [Script.Rule.within, Bool.and_eq_true] at h
    exact pattern_relates name (buildPattern_makes vars lhs rhs h.1 h.2 envs)
      (Template.buildPattern_stored vars lhs rhs envs.stored)
  | .patternInChain name vars lhs rhs =>
    rw [Script.Rule.build, Script.Rule.build]
    rw [Script.Rule.within, Bool.and_eq_true] at h
    exact patternInChain_relates name (buildPattern_makes vars lhs rhs h.1 h.2 envs)
      (Template.buildPattern_stored vars lhs rhs envs.stored)
  | .any name rules =>
    rw [Script.Rule.build, Script.Rule.build]
    rw [Script.Rule.within] at h
    exact any_relates name (rules_rules rules h envs)
  | .correlated name vars sites guard =>
    rw [Script.Rule.build, Script.Rule.build]
    rw [Script.Rule.within, Bool.and_eq_true] at h
    refine correlated_relates name fun q g agree => ?_
    refine (envs.grow g).extend_acts vars |>.bind ?_ (fun r _ _ g' envs' => ?_) agree
    · obtain ⟨g', extended⟩ := Script.Env.extend_stored vars (envs.grow g).stored
      exact (Script.Goal.build_built guard (g'.store.valid agree.stores.right) extended).1
    · exact (goal_acts guard h.1 envs').bind (.refl _) fun _ _ _ g'' goals =>
        Steady.acts (.pure ⟨rules_rules sites h.2 (envs'.grow g''), goals⟩)
  | .relation name vars goal =>
    rw [Script.Rule.build, Script.Rule.build]
    rw [Script.Rule.within] at h
    intro q t t' u u' g ht hu agree
    refine (envs.grow g).extend_acts vars |>.bind ?_ (fun r _ _ g' envs' => ?_) agree
    · obtain ⟨g', extended⟩ := Script.Env.extend_stored vars (envs.grow g).stored
      have names : ∀ e ∈ ("output", u') :: ("input", t') :: (Script.Env.extend env' vars q.right).1,
          (Script.Env.extend env' vars q.right).2.store.Stored e.2 :=
        List.forall_mem_cons.mpr ⟨g'.store.stored hu.stored_right,
          List.forall_mem_cons.mpr ⟨g'.store.stored ht.stored_right, extended⟩⟩
      exact (Script.Goal.build_built goal (g'.store.valid agree.stores.right) names).1
    · exact goal_acts goal h ((envs'.cons "input" (ht.grow g')).cons "output" (hu.grow g'))

theorem rules_rules (rules : List Script.Rule) {p : Sides} {bound : List String}
    {env env' : Script.Env} (h : Script.Rule.withinAll ρ.toCommon bound rules = true)
    (envs : ρ.Envs bound p env env') :
    List.Forall₂ (ρ.Rules p) (Script.Rule.buildAll env rules) (Script.Rule.buildAll env' rules) := by
  match rules with
  | [] =>
    rw [Script.Rule.buildAll, Script.Rule.buildAll]
    exact .nil
  | rule :: rest =>
    rw [Script.Rule.withinAll, Bool.and_eq_true] at h
    rw [Script.Rule.buildAll, Script.Rule.buildAll]
    exact .cons (rule_rules rule h.1 envs) (rules_rules rest h.2 envs)

end

end Renaming

end Regraft
