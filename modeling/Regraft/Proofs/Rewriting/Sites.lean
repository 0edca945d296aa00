import Regraft.Proofs.Rewriting.InTurn

/-
  What rules for several sites do, told apart to the last detail. The sites hand a term on from rule to
  rule by variables in between (`Search.Relay`). An answer of some sites passes on to the next one what it
  has bound, so that together they have the effects of their patterns in turn (`Relay.gives`). A condition
  on ground terms is decided at once (`tells`).
-/

namespace Regraft

open Regraft.Tree (Pattern Effect andThen only)
open Regraft.Tree.Pattern (InTurn Settled ClosedInTurn Renumbers Moved)
open Session (Goes)

/-! ## Between a term on -/

namespace Search

variable {F : Facts} {still : Prop} {ses ses' base : Session} {st : Store} {s s' : Subst} {shared bound : UInt32 → Prop}
  {E : UInt32 → Tree} {rule : Rule} {p : Pattern} {a b cur next : TermId} {v w : UInt32} {used ahead : List UInt32}
  {A : Set Effect} {search : Search}

/-- A rule has the effects of a pattern, whatever the shared variables stand for. -/
def SiteRelates (base : Session) (shared : UInt32 → Prop) (rule : Rule) (p : Pattern) : Prop :=
  ∀ E, Pattern.Fixes shared E → (p.inst E).Closed →
    Relates True base shared E rule.relate ((p.inst E).effects base.facts shared)

/-- An answer has an effect, with a variable for the output. Variables that have been used for the
    outputs before do not count, and some of those in use are still to come. -/
def Passes (used ahead : List UInt32) (st : Store) (s : Subst) (w : UInt32) (ses' : Session) (s' : Subst)
    (e : Effect) : Prop :=
  ∃ θ, Subst.Solves e.sites st s ses'.store s' θ ∧
    ∀ y, (y ∈ used → y = w ∨ y ∈ ahead) → θ y = e.output w y

/-- A place between two sites: what the shared variables stood for when the sites began, and the variable
    that is the output of the one and the input of the other. -/
structure Between (base ses : Session) (s : Subst) (shared : UInt32 → Prop) (E : UInt32 → Tree)
    (cur : TermId) (w : UInt32) : Prop where
  later : base.Later ses
  known : ∀ v, shared v → base.store.Knows v
  fixes : Pattern.Fixes shared E
  sound : s.Sound ses.store
  within : s.Within ses.store
  images : ∀ v, shared v → s.image ses.store v = E v
  out : ses.store.term? cur = some (.var w)
  unbound : s.get? w = none
  inner : ¬ shared w

namespace Between

/-- What a shared variable settled for once an answer has been given. -/
theorem images_after {θ : UInt32 → Tree} {d : List (Tree × Tree)} (h : Between base ses s shared E cur w)
    (solved : Subst.Solves d ses.store s ses'.store s' θ) (hv : shared v) :
    s'.image ses'.store v = (E v).subst θ := by
  obtain ⟨t, ht⟩ := h.later.grows.store.knows (h.known v hv)
  have tree := solved.tree_eq h.sound (Store.stored_of_term? ht)
  rwa [solved.sound.tree_var (solved.grows.keeps _ _ ht), h.sound.tree_var ht, h.images v hv] at tree

variable {e : Effect} (h : Between base ses s shared E cur w) (confined : e.Confined shared)
  (out : ses.store.term? next = some (.var v)) (unbound : s.get? v = none) (inner : ¬ shared v)
  (ne : v ≠ w) (passes : Passes used ahead ses.store s w ses' s' e) (later : v ∈ used → v ∈ ahead)
  (g : ses.Grows ses')

include h confined out unbound inner ne passes later g

/-- An answer passes a term on to the next site. -/
theorem spot : Spot base.facts ses' s' cur next v ∧ s'.tree ses'.store cur = e.result := by
  obtain ⟨θ, solved, reads⟩ := passes
  have result : s'.tree ses'.store cur = e.result := by
    rw [solved.tree_eq h.sound (Store.stored_of_term? h.out), h.sound.tree_var h.out,
      Subst.image_of_unbound h.unbound, Tree.subst_var, reads w fun _ => .inl rfl,
      confined.output_self h.inner]
  refine ⟨⟨g.facts.trans h.later.grows.facts, solved.sound, solved.free, solved.within h.within,
    solved.grows.stored (Store.stored_of_term? h.out), result ▸ confined.ground,
    solved.grows.keeps _ _ out, ?_⟩, result⟩
  refine solved.get?_eq_none ⟨next, out⟩ unbound ?_
  rw [reads v fun mem => .inr (later mem), confined.output_of_ne ne]
  exact (confined.binds v).resolve_right fun h => inner h.1

end Between

/-- The effects of a site on what other sites have done. -/
def afterwards (F : Facts) (shared : UInt32 → Prop) (E : UInt32 → Tree) (p : Pattern) (A : Set Effect) : Set Effect :=
  ⋃ e ∈ A, e.followedBy '' Tree.anywhere ((p.inst (andThen E e.binds)).effects F shared) e.result

/-- One more site is rewritten, in what the sites before gave. -/
theorem Between.site_gives {ahead' : List UInt32} (h : Between base ses s shared E cur w)
    (site : SiteRelates base shared rule p)
    (gives : Gives False (Passes used ahead ses.store s w) ses search A)
    (settled : ∀ e ∈ A, e.Confined shared ∧ Settled shared bound (andThen E e.binds))
    (closed : ∀ v, p.rhs.HasVar v → p.lhs.HasVar v ∨ v = p.witness ∨ bound v)
    (out : ses.store.term? next = some (.var v)) (unbound : s.get? v = none) (inner : ¬ shared v)
    (ne : v ≠ w) (later : v ∈ used → v ∈ ahead) (sub : ∀ y ∈ ahead', y ∈ ahead) (mem : w ∈ used)
    (once : w ∉ ahead') (disjoint : ∀ y ∈ used, ¬ shared y) :
    Gives False (Passes used ahead' ses.store s v) ses (.bind search (.anywhere rule.relate cur next))
      (afterwards base.facts shared E p A) := by
  refine gives.bind fun e he ses' s' l passes => ?_
  obtain ⟨confined, stood⟩ := settled e he
  obtain ⟨spot, result⟩ := h.spot confined out unbound inner ne passes later l.grows
  obtain ⟨θ, solved, reads⟩ := passes
  have images : ∀ y, shared y → s'.image ses'.store y = andThen E e.binds y := by
    intro y hy
    rw [h.images_after solved hy, andThen]
    rcases h.fixes y with eq | ⟨-, ground⟩
    · rw [eq, Tree.subst_var, Tree.subst_var, reads y fun mem => absurd hy (disjoint y mem),
        confined.output_of_ne (by rintro rfl; exact h.inner hy)]
    · rw [ground.subst, ground.subst]
  have next := (site _ stood.fixes (stood.closed closed)).anywhere_gives (h.later.trans l) spot inner images
  rw [result] at next
  refine next.map e.followedBy (fun ses'' s'' e' _ more => ?_) id
  refine ⟨_, solved.trans more, fun y hy => ?_⟩
  have used' : y ∈ used → y = w ∨ y ∈ ahead := fun mem =>
    (hy mem).elim (fun eq => .inr (eq ▸ later (eq ▸ mem))) fun mem => .inr (sub y mem)
  have ne' : y ≠ w := by
    rintro rfl
    exact (hy mem).elim (fun eq => ne eq.symm) once
  rw [andThen, reads y used', confined.output_of_ne ne']
  exact congrFun (Tree.andThen_assoc e.binds e'.binds _).symm y

/-- A site on what other sites have done, and then the next ones. -/
theorem afterwards_inTurn {ps : List Pattern} :
    (⋃ e ∈ afterwards F shared E p A, e.followedBy '' {e' | InTurn F shared ps (andThen E e.binds) e.result e'}) =
      ⋃ e ∈ A, e.followedBy '' {e' | InTurn F shared (p :: ps) (andThen E e.binds) e.result e'} := by
  simp only [afterwards, Set.biUnion_iUnion, Set.biUnion_image, Tree.Pattern.inTurn_cons, Set.image_iUnion₂,
    Set.image_image, Effect.followedBy_assoc]
  refine Set.iUnion₂_congr fun e _ => Set.iUnion₂_congr fun e' _ => ?_
  rw [Tree.andThen_assoc]
  rfl

/-- The goals that hand a term on from rule to rule, with the variables in between. -/
inductive Relay (st : Store) (b : TermId) : List UInt32 → List Rule → TermId → List Goal → Prop
  | last {rule : Rule} {cur : TermId} : Relay st b [] [rule] cur [.anywhere rule.relate cur b]
  | next {rule : Rule} {rest : List Rule} {cur next : TermId} {w : UInt32} {ahead : List UInt32}
      {goals : List Goal} (var : st.term? next = some (.var w)) (relay : Relay st b ahead rest next goals) :
      Relay st b (w :: ahead) (rule :: rest) cur (.anywhere rule.relate cur next :: goals)

variable {rules : List Rule} {ps : List Pattern} {goals : List Goal}

/-- What the variables between sites must not be. -/
structure Unused (s : Subst) (shared : UInt32 → Prop) (used : List UInt32) (v : UInt32) : Prop where
  apart : ∀ y ∈ used, ¬ shared y ∧ s.get? y = none
  out : ¬ shared v ∧ s.get? v = none
  new : v ∉ used

/-- Behind some sites others are rewritten, each in what the one before gave. -/
theorem Relay.gives (relay : Relay ses.store b ahead rules cur goals)
    (sites : List.Forall₂ (SiteRelates base shared) rules ps) (h : Between base ses s shared E cur w)
    (closed : ClosedInTurn shared bound ps) (gives : Gives False (Passes used ahead ses.store s w) ses search A)
    (settled : ∀ e ∈ A, e.Confined shared ∧ Settled shared bound (andThen E e.binds))
    (out : ses.store.term? b = some (.var v)) (unused : Unused s shared used v)
    (once : (w :: ahead).Nodup) (sub : w :: ahead ⊆ used) :
    Gives False (Passes used [] ses.store s v) ses (goals.foldl .bind search)
      (⋃ e ∈ A, e.followedBy '' {e' | InTurn base.facts shared ps (andThen E e.binds) e.result e'}) := by
  induction relay generalizing w ps A bound search with
  | last =>
    obtain ⟨p, _, site, rest, rfl⟩ := List.forall₂_cons_left_iff.mp sites
    obtain rfl := List.forall₂_nil_left_iff.mp rest
    obtain ⟨⟨-, here⟩, -⟩ := closed
    have mem : w ∈ used := sub (.head _)
    have last := h.site_gives site gives settled here out unused.out.2 unused.out.1
      (by rintro rfl; exact unused.new mem) (fun mem => absurd mem unused.new) (fun _ => id) mem
      (List.not_mem_nil) fun y hy => (unused.apart y hy).1
    refine last.congr (Set.iUnion₂_congr fun e _ => ?_)
    simp only [Tree.Pattern.inTurn_cons, Tree.Pattern.inTurn_nil, Set.image_singleton,
      Effect.followedBy_idle, Set.biUnion_of_singleton]
  | @next rule rest cur next w' ahead goals var relay ih =>
    obtain ⟨p, ps, site, others, rfl⟩ := List.forall₂_cons_left_iff.mp sites
    obtain ⟨⟨inner, here⟩, closed⟩ := closed
    obtain ⟨fresh, once⟩ := List.nodup_cons.mp once
    have mem : w' ∈ used := sub (.tail _ (.head _))
    obtain ⟨outside, unbound⟩ := unused.apart w' mem
    have step := h.site_gives site gives settled here var unbound outside
      (by rintro rfl; exact fresh (.head _)) (fun _ => .head _) (fun _ => .tail _) (sub (.head _))
      (fun mem => fresh (.tail _ mem)) fun y hy => (unused.apart y hy).1
    have settled' : ∀ e ∈ afterwards base.facts shared E p A, e.Confined shared ∧
        Settled shared (fun v => bound v ∨ shared v ∧ p.lhs.HasVar v) (andThen E e.binds) := by
      intro e he
      simp only [afterwards, Set.mem_iUnion, exists_prop] at he
      obtain ⟨e₁, mem₁, e₂, mem₂, rfl⟩ := he
      obtain ⟨confined, before⟩ := settled e₁ mem₁
      obtain ⟨confined', after⟩ := before.anywhere inner here confined.ground mem₂
      rw [Tree.andThen_assoc] at after
      exact ⟨confined.followedBy confined', after⟩
    have h' : Between base ses s shared E next w' :=
      ⟨h.later, h.known, h.fixes, h.sound, h.within, h.images, var, unbound, outside⟩
    exact (ih others h' closed step settled' once fun y hy => sub (.tail _ hy)).congr afterwards_inTurn

/-- A place where sites begin, with a ground term and a variable for the last output. -/
structure Begins (base ses : Session) (s : Subst) (shared : UInt32 → Prop) (E : UInt32 → Tree) (a b : TermId)
    (v : UInt32) : Prop where
  later : base.Later ses
  known : ∀ v, shared v → base.store.Knows v
  fixes : Pattern.Fixes shared E
  images : ∀ v, shared v → s.image ses.store v = E v
  spot : Spot base.facts ses s a b v
  inner : ¬ shared v

/-- The goals of all sites rewrite the patterns in turn. -/
theorem Relay.start_gives (relay : Relay ses.store b ahead rules a goals)
    (sites : List.Forall₂ (SiteRelates base shared) rules ps) (h : Begins base ses s shared E a b v)
    (settled : Settled shared bound E) (closed : ClosedInTurn shared bound ps) (once : ahead.Nodup)
    (unused : Unused s shared ahead v) :
    ∃ first rest, goals = first :: rest ∧ Gives False (Passes ahead [] ses.store s v) ses
      (rest.foldl .bind (.apply first s))
      {e | InTurn base.facts shared ps E (s.tree ses.store a) e} := by
  have spot := h.spot
  cases relay with
  | last =>
    obtain ⟨p, _, site, rest, rfl⟩ := List.forall₂_cons_left_iff.mp sites
    obtain rfl := List.forall₂_nil_left_iff.mp rest
    obtain ⟨⟨-, here⟩, -⟩ := closed
    have first := (site E settled.fixes (settled.closed here)).anywhere_gives h.later spot h.inner h.images
    refine ⟨_, _, rfl, (first.imp fun ses' s' e _ solved => ⟨_, solved, fun _ _ => rfl⟩).congr ?_⟩
    simp only [Tree.Pattern.inTurn_cons, Tree.Pattern.inTurn_nil, Set.image_singleton,
      Effect.followedBy_idle, Set.biUnion_of_singleton]
  | @next rule rest _ next w ahead goals var relay =>
    obtain ⟨p, ps, site, others, rfl⟩ := List.forall₂_cons_left_iff.mp sites
    obtain ⟨⟨inner, here⟩, closed⟩ := closed
    obtain ⟨outside, unbound⟩ := unused.apart w (.head _)
    have toNext : Spot base.facts ses s a next w :=
      ⟨spot.facts, spot.sound, spot.free, spot.within, spot.left, spot.ground, var, unbound⟩
    have first := (site E settled.fixes (settled.closed here)).anywhere_gives h.later toNext outside h.images
    have between : Between base ses s shared E next w :=
      ⟨h.later, h.known, h.fixes, spot.sound, spot.within, h.images, var, unbound, outside⟩
    have passes : Search.Gives False (Passes (w :: ahead) ahead ses.store s w) _ _ _ :=
      first.imp fun ses' s' e _ solved => ⟨_, solved, fun _ _ => rfl⟩
    have gives := relay.gives others between closed passes
      (fun e he => settled.anywhere inner here spot.ground he) spot.out unused once (List.Subset.refl _)
    refine ⟨_, _, rfl, gives.congr ?_⟩
    rw [Tree.Pattern.inTurn_cons]

/-- The goals of sites hand a term on, with new variables in between. -/
theorem sitesFrom_relay (b : TermId) (rule : Rule) (rest : List Rule) (cur : TermId) (ses : Session) :
    ∃ ahead, ses.Later (Goal.sitesFrom cur b (rule :: rest) ses).2 ∧
      Relay (Goal.sitesFrom cur b (rule :: rest) ses).2.store b ahead (rule :: rest) cur
        (Goal.sitesFrom cur b (rule :: rest) ses).1 ∧
      (ses.store.Tidy → (Goal.sitesFrom cur b (rule :: rest) ses).2.store.Roomy →
        ahead.Nodup ∧ ∀ y ∈ ahead, ¬ ses.store.Knows y) := by
  induction rest generalizing rule cur ses with
  | nil => exact ⟨[], .refl ses, .last, fun _ _ => ⟨.nil, nofun⟩⟩
  | cons other rest ih =>
    have l := Session.fresh_later ses
    have var : (Session.fresh ses).2.store.term? (Session.fresh ses).1 =
      some (.var ses.store.nextVar) := Store.term?_fresh _
    obtain ⟨ahead, l', relay, new⟩ := ih other (Session.fresh ses).1 (Session.fresh ses).2
    refine ⟨ses.store.nextVar :: ahead, l.trans l', .next (l'.grows.store.keeps _ _ var) relay, ?_⟩
    intro tidy room
    obtain ⟨nodup, unknown⟩ := new (l.tidy tidy (.of_grows l'.grows.store room)) room
    refine ⟨List.nodup_cons.mpr ⟨fun mem => unknown _ mem ⟨_, var⟩, nodup⟩, ?_⟩
    exact List.forall_mem_cons.mpr
      ⟨tidy.not_knows_fresh, fun y hy known => unknown y hy (l.grows.store.knows known)⟩

/-! ## All sites -/

/-- Goals one after the other, from at least one. -/
theorem conj_gives {O : Type} {I : Session → Subst → O → Prop} {B : Set O} {first : Goal} {rest : List Goal}
    (h : Gives still I ses (rest.foldl .bind (.apply first s)) B) :
    Gives still I ses (.apply (.conj (first :: rest)) s) B := by
  match rest with
  | [] => exact h
  | second :: rest => exact .apply fun ses' l _ => ⟨.refl ses', fun _ => h.later l⟩

/-- Applying goals one after the other sets nothing up yet, nor does looking for a place. -/
theorem Relay.apply_conj (relay : Relay st b ahead rules a goals) (s : Subst) (ses : Session) :
    ((Goal.conj goals).apply s ses).2 = ses := by
  cases relay with
  | @last rule =>
    show (Search.anywhere rule.relate a b s ses).2 = ses
    unfold Search.anywhere
    split <;> rfl
  | next _ relay => cases relay <;> rfl

/-- A goal that is made when it is applied, if it sets nothing up at once. -/
theorem defer_gives {O : Type} {I : Session → Subst → O → Prop} {B : Set O} {build : SessionM Goal}
    (h : ∀ ses', ses.Later ses' → ses'.store.Tidy → ses'.Later (build ses').2 ∧
      ((build ses').1.apply s (build ses').2).2 = (build ses').2 ∧
      ((build ses').2.store.Roomy → Gives False I (build ses').2 (.apply (build ses').1 s) B)) :
    Gives False I ses (.apply (.defer build) s) B := by
  refine .apply fun ses' l tidy => ?_
  obtain ⟨later, same, gives⟩ := h ses' l tidy.tidy
  show Goes False ses' ((build ses').1.apply s (build ses').2).2 ∧
    (((build ses').1.apply s (build ses').2).2.store.RoomyUnless False →
      Gives False I ((build ses').1.apply s (build ses').2).2 ((build ses').1.apply s (build ses').2).1 B)
  refine ⟨⟨same.symm ▸ later, False.elim⟩, fun room => ?_⟩
  rw [same] at room
  have applied := ((gives room.roomy).step (.refl _) (later.tidyUnless tidy room)).2
  exact applied (show ((build ses').1.apply s (build ses').2).2.store.RoomyUnless False by rwa [same])

/-- Sites have the effects of their patterns in turn. -/
theorem sites_gives {rest : List Rule} (sites : List.Forall₂ (SiteRelates base shared) (rule :: rest) ps)
    (h : Begins base ses s shared E a b v) (settled : Settled shared bound E)
    (closed : ClosedInTurn shared bound ps) :
    Gives False (Affecting ses.store s v) ses (.apply (.sites (rule :: rest) a b) s)
      {e | InTurn base.facts shared ps E (s.tree ses.store a) e} := by
  have spot := h.spot
  have hs := spot.sound
  show Gives False _ ses (.apply (.defer (Goal.conj <$> Goal.sitesFrom a b (rule :: rest))) s) _
  refine defer_gives fun ses₁ l₁ tidy => ?_
  show ses₁.Later (Goal.sitesFrom a b (rule :: rest) ses₁).2 ∧
    ((Goal.conj (Goal.sitesFrom a b (rule :: rest) ses₁).1).apply s (Goal.sitesFrom a b (rule :: rest) ses₁).2).2 =
      (Goal.sitesFrom a b (rule :: rest) ses₁).2 ∧ ((Goal.sitesFrom a b (rule :: rest) ses₁).2.store.Roomy →
      Gives False _ (Goal.sitesFrom a b (rule :: rest) ses₁).2
        (.apply (.conj (Goal.sitesFrom a b (rule :: rest) ses₁).1) s) _)
  obtain ⟨ahead, l₂, relay, new⟩ := sitesFrom_relay b rule rest a ses₁
  generalize Goal.sitesFrom a b (rule :: rest) ses₁ = r at l₂ relay new ⊢
  have l := l₁.trans l₂
  refine ⟨l₂, relay.apply_conj s r.2, fun room => ?_⟩
  obtain ⟨once, unknown⟩ := new tidy room
  have known : ∀ v, shared v → ses₁.store.Knows v := fun v hv =>
    (h.later.trans l₁).grows.store.knows (h.known v hv)
  have unused : Unused s shared ahead v := by
    refine ⟨fun y hy => ⟨fun mem => unknown y hy (known y mem), ?_⟩, ⟨h.inner, spot.unbound⟩, fun mem => ?_⟩
    · by_contra some
      obtain ⟨u, hu⟩ := Option.ne_none_iff_exists'.mp some
      exact unknown y hy (l₁.grows.store.knows (spot.within y u hu))
    · exact unknown v mem (l₁.grows.store.knows ⟨b, spot.out⟩)
  have begins : Begins base r.2 s shared E a b v := ⟨h.later.trans l, h.known, h.fixes,
    fun w hw => (image_grows hs l.grows.store w).trans (h.images w hw), spot.grows l.grows, h.inner⟩
  obtain ⟨first, others, eq, gives⟩ := relay.start_gives sites begins settled closed once unused
  rw [hs.tree_grows l.grows.store spot.left] at gives
  rw [eq]
  refine (conj_gives gives).imp fun ses' s' e _ ⟨θ, solved, reads⟩ => ?_
  -- The variables in between were not known when the goal was applied.
  exact (solved.back hs spot.free l.grows.store).congr fun y hy _ =>
    reads y fun mem => absurd (l₁.grows.store.knows hy) (unknown y mem)

/-! ## The condition -/

end Search

/-- A goal that tells pairs of terms apart, each by a disequality. -/
inductive Goal.TellsApart : List (TermId × TermId) → Goal → Prop
  | succeed : TellsApart [] .succeed
  | neq (x y : TermId) : TellsApart [(x, y)] (.neq x y)
  | conj {goals : List (List (TermId × TermId) × Goal)} (each : ∀ g ∈ goals, TellsApart g.1 g.2) :
      TellsApart (goals.flatMap Prod.fst) (.conj (goals.map Prod.snd))

namespace Search

variable {d : List (Tree × Tree)} {θ : UInt32 → Tree} {P Q : Prop} {pairs : List (TermId × TermId)} {goal : Goal}

/-- Pairs of ground terms in a search in which no disequality waits. -/
structure Told (ses : Session) (s : Subst) (pairs : List (TermId × TermId)) : Prop where
  sound : s.Sound ses.store
  free : s.constraints = []
  ground : ∀ p ∈ pairs, (ses.store.Stored p.1 ∧ ses.store.Stored p.2) ∧
    (s.tree ses.store p.1).Ground ∧ (s.tree ses.store p.2).Ground

/-- The sides of all pairs are different. -/
def Apart (st : Store) (s : Subst) (pairs : List (TermId × TermId)) : Prop :=
  ∀ p ∈ pairs, ¬ Tree.Agree (s.tree st p.1) (s.tree st p.2)

namespace Told

/-- Nothing changes for ground terms. -/
theorem after (h : Told ses s pairs) (solved : Subst.Solves d ses.store s ses'.store s' θ) :
    Told ses' s' pairs ∧ (Apart ses'.store s' pairs ↔ Apart ses.store s pairs) := by
  have same : ∀ p ∈ pairs, s'.tree ses'.store p.1 = s.tree ses.store p.1 ∧
      s'.tree ses'.store p.2 = s.tree ses.store p.2 := fun p hp =>
    have ⟨stored, ground⟩ := h.ground p hp
    ⟨solved.tree_of_ground h.sound stored.1 ground.1, solved.tree_of_ground h.sound stored.2 ground.2⟩
  refine ⟨⟨solved.sound, solved.free, fun p hp => ?_⟩, forall₂_congr fun p hp => ?_⟩
  · obtain ⟨stored, ground⟩ := h.ground p hp
    rw [(same p hp).1, (same p hp).2]
    exact ⟨⟨solved.grows.stored stored.1, solved.grows.stored stored.2⟩, ground⟩
  · rw [(same p hp).1, (same p hp).2]

/-- Two ground terms are told apart at once. -/
theorem requireDistinct {x y : TermId} (h : Told ses s [(x, y)]) :
    s.requireDistinct ses.store x y = none ∧ Tree.Agree (s.tree ses.store x) (s.tree ses.store y) ∨
      s.requireDistinct ses.store x y = some s ∧ ¬ Tree.Agree (s.tree ses.store x) (s.tree ses.store y) := by
  obtain ⟨stored, ground⟩ := h.ground _ (.head _)
  have unified := h.sound.unifyBindings_ground stored.1 stored.2 ground.1 ground.2
  unfold Subst.requireDistinct Disequality.check
  cases eq : s.unifyBindings ses.store x y with
  | none =>
    refine .inr ⟨rfl, fun agree => ?_⟩
    rw [(unified s).mpr ⟨agree, rfl⟩] at eq
    cases eq
  | some t =>
    obtain ⟨agree, rfl⟩ := (unified t).mp eq
    refine .inl ⟨?_, agree⟩
    simp

theorem mono {more : List (TermId × TermId)} (h : Told ses s more) (sub : pairs ⊆ more) : Told ses s pairs :=
  ⟨h.sound, h.free, fun p hp => h.ground p (sub hp)⟩

end Told

/-- An answer that binds nothing, if a condition holds. -/
abbrev given (P : Prop) : Set (UInt32 → Tree) := {θ | θ = .var ∧ P}

theorem Gives.unit_given {s : Subst} (hs : s.Sound st) (free : s.constraints = []) (g : st.Grows ses.store)
    (holds : P) : Gives still (Solving [] st s) ses (.unit s) (given P) := by
  have one : given P = {Tree.var} := Set.ext fun θ => and_iff_left holds
  rw [one]
  exact .unit fun ses' l => .of_grows hs free (g.trans l.grows.store)

/-- One condition after another. -/
theorem Gives.bind_given (h : Gives still (Solving [] ses.store s) ses search (given P))
    (next : ∀ ses' s', ses.Later ses' → Subst.Solves [] ses.store s ses'.store s' .var →
      Gives still (Solving [] ses'.store s') ses' (.apply goal s') (given Q)) :
    Gives still (Solving [] ses.store s) ses (.bind search goal) (given (P ∧ Q)) := by
  refine (h.bind_after (C := fun _ => given Q) (e := []) fun σ mem ses' s' l solved => ?_).congr ?_
  · obtain ⟨rfl, -⟩ := mem
    exact next ses' s' l solved
  · ext θ
    simp only [given, Set.mem_iUnion, Set.mem_image, Set.mem_ofPred_eq, exists_prop]
    constructor
    · rintro ⟨_, ⟨rfl, p⟩, _, ⟨rfl, q⟩, rfl⟩
      exact ⟨rfl, p, q⟩
    · rintro ⟨rfl, p, q⟩
      exact ⟨.var, ⟨rfl, p⟩, .var, ⟨rfl, q⟩, rfl⟩

theorem apart_append {more : List (TermId × TermId)} :
    Apart st s (pairs ++ more) ↔ Apart st s pairs ∧ Apart st s more := List.forall_mem_append

/-- A goal tells ground terms apart at once, and binds nothing. -/
def Tells (pairs : List (TermId × TermId)) (goal : Goal) : Prop :=
  ∀ ses s, Told ses s pairs →
    Gives True (Solving [] ses.store s) ses (.apply goal s) (given (Apart ses.store s pairs))

theorem tells_succeed : Tells [] .succeed := fun _ _ told =>
  .apply fun ses' l _ => ⟨.refl ses', fun _ => .unit_given told.sound told.free l.grows.store nofun⟩

theorem tells_neq (x y : TermId) : Tells [(x, y)] (.neq x y) := by
  refine fun ses s told => .apply fun ses' l _ => ?_
  have later := told.after (.of_grows told.sound told.free l.grows.store)
  have here : Apart ses'.store s [(x, y)] ↔ ¬ Tree.Agree (s.tree ses'.store x) (s.tree ses'.store y) :=
    List.forall_mem_singleton
  rw [Goal.neq_apply]
  rcases later.1.requireDistinct with ⟨eq, agree⟩ | ⟨eq, distinct⟩
  · rw [eq]
    refine ⟨(Session.count_keeps _ ses').goes, fun _ => Gives.empty.congr (Eq.symm ?_)⟩
    exact Set.eq_empty_of_forall_notMem fun θ mem => here.mp (later.2.mpr mem.2) agree
  · rw [eq]
    exact ⟨.refl ses', fun _ => .unit_given told.sound told.free l.grows.store
      (later.2.mp (here.mpr distinct))⟩

/-- Further goals behind a search that binds nothing. -/
theorem tells_foldl {rest : List (List (TermId × TermId) × Goal)} (each : ∀ g ∈ rest, Tells g.1 g.2)
    (h : Gives True (Solving [] ses.store s) ses search (given P))
    (told : Told ses s (rest.flatMap Prod.fst)) :
    Gives True (Solving [] ses.store s) ses ((rest.map Prod.snd).foldl .bind search)
      (given (P ∧ Apart ses.store s (rest.flatMap Prod.fst))) := by
  induction rest generalizing search P with
  | nil =>
    have all : Apart ses.store s [] := nofun
    exact h.congr (by simp only [given, List.flatMap_nil, all, and_true])
  | cons g rest ih =>
    rw [List.forall_mem_cons] at each
    have here : Told ses s g.1 := told.mono (List.subset_append_left _ _)
    have first : ∀ ses' s', ses.Later ses' → Subst.Solves [] ses.store s ses'.store s' .var →
        Gives True (Solving [] ses'.store s') ses' (.apply g.2 s') (given (Apart ses.store s g.1)) := by
      intro ses' s' _ solved
      obtain ⟨told', same⟩ := here.after solved
      exact (each.1 ses' s' told').congr (by simp only [given, same])
    refine (ih each.2 (h.bind_given first) (told.mono (List.subset_append_right _ _))).congr ?_
    simp only [given, List.flatMap_cons, apart_append, and_assoc]

/-- Disequalities of ground terms are decided at once. -/
theorem tells (h : goal.TellsApart pairs) : Tells pairs goal := by
  induction h with
  | succeed => exact tells_succeed
  | neq x y => exact tells_neq x y
  | @conj goals _ ih =>
    match goals with
    | [] => exact tells_succeed
    | g :: rest =>
      rw [List.forall_mem_cons] at ih
      intro ses s told
      have first := ih.1 ses s (told.mono (List.subset_append_left _ _))
      refine conj_gives ((tells_foldl ih.2 first (told.mono (List.subset_append_right _ _))).congr ?_)
      simp only [given, List.flatMap_cons, apart_append]

end Search

end Regraft
