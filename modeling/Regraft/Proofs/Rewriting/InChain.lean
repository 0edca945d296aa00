import Regraft.Proofs.Match.Parted
import Regraft.Proofs.Rewriting.Positions
import Regraft.Proofs.Script.Sites

/-
  What a pattern in chains makes of a chain. The pattern matches all operands of the chain, or a part of them,
  and then the others stay beside the replacement as one chain (`Tree.Pattern.StepsChain`). These are all
  results that the rule has at a position, and it has all of them, up to the nesting of chains
  (`Rule.derives_inChain`).
-/

namespace Regraft

open Regraft.Tree (Pattern Matches Agree Alike Plain Renested joined andThen only)

/-! ## Steps on a chain -/

namespace Tree.Pattern

variable {F : Facts} {op : String} {p : Pattern} {t u : Tree} {σ : UInt32 → Tree} {k : UInt32}

/-- What a pattern of an operator with chains makes of a chain. It matches all operands, or a part of them
    and leaves some. The witness stands for the whole chain, so a pattern that mentions it matches no part. -/
inductive StepsChain (F : Facts) (op : String) (p : Pattern) (t : Tree) : Tree → Prop
  | whole {σ : UInt32 → Tree} (matched : Matches F [(t, p.lhs)] σ)
      (witness : p.lhs.HasVar p.witness → Agree (σ p.witness) t) : StepsChain F op p t (p.rhs.subst σ)
  | part {xs ys : List Tree} {σ : UInt32 → Tree} (parted : Parted xs ys (t.items op)) (left : ys ≠ [])
      (matched : Matches F [(app op xs .unspecified, p.lhs)] σ) (own : ¬ p.lhs.HasVar p.witness) :
      StepsChain F op p t (app op [p.rhs.subst σ, joined op ys] .unspecified)

/-- A replacement that has only variables of the pattern does not see the witness. -/
theorem subst_andThen_only {rhs w : Tree} (h : Matches F [(t, u)] σ)
    (closed : ∀ v, rhs.HasVar v → u.HasVar v) : rhs.subst (andThen σ (only k w)) = rhs.subst σ :=
  subst_congr fun _ hv => (h.ground (List.mem_singleton_self _) (closed _ hv)).subst _

variable {ys : List Tree}

theorem closed_beside (closed : ∀ v, p.rhs.HasVar v → p.lhs.HasVar v) :
    ∀ v, (p.beside op k).rhs.HasVar v → (p.beside op k).lhs.HasVar v := by
  intro v hv
  obtain ⟨w, mem, has⟩ := hasVar_app.mp hv
  rcases List.mem_cons.mp mem with rfl | mem
  · exact .app (.head _) (closed v has)
  · exact .app (.tail _ mem) has

/-- The replacement beside the rest, where variables get trees that are nested in another way. -/
theorem renested_beside {θ : UInt32 → Tree} (hk : ¬ p.rhs.HasVar k)
    (others : ∀ v, v ≠ k → Renested F (θ v) (σ v)) (last : Renested F (θ k) (joined op ys)) :
    Renested F ((p.beside op k).rhs.subst θ) (app op [p.rhs.subst σ, joined op ys] .unspecified) := by
  have first : Renested F (p.rhs.subst θ) (p.rhs.subst σ) := (Renested.refl p.rhs).subst fun v hv =>
    others v (by rintro rfl; exact hk hv)
  rw [beside, subst_app, List.map_cons, List.map_singleton, subst_var, Renested.app_iff]
  exact ⟨rfl, rfl, Renested.operands (.cons first (.cons last .nil))⟩

theorem Binds.stepsChain (closed : ∀ v, p.rhs.HasVar v → p.lhs.HasVar v) (h : p.Binds F t σ) :
    p.StepsChain F op t (p.rhs.subst σ) := by
  obtain ⟨θ, matched, agree, rfl⟩ := h
  rw [subst_andThen_only matched closed]
  exact .whole matched agree

theorem Binds.stepsChain_beside (isApp : p.lhs.IsApp op) (isAppT : t.IsApp op) (chain : F.isChain op = true)
    (bare : t.Bare) (ground : t.Ground) (closed : ∀ v, p.rhs.HasVar v → p.lhs.HasVar v)
    (new : ¬ p.lhs.HasVar k) (h : (p.beside op k).Binds F t σ) :
    ∃ w, StepsChain F op p t w ∧ Renested F ((p.beside op k).rhs.subst σ) w := by
  obtain ⟨θ, matched, agree, rfl⟩ := h
  obtain ⟨ws, a, rfl⟩ := isAppT.exists_app
  obtain ⟨us, b, eq⟩ := isApp.exists_app
  rw [subst_andThen_only matched (closed_beside closed)]
  rw [beside, eq] at matched
  rw [eq] at new
  obtain ⟨xs, ys, τ, parted, left, matched', others, last⟩ :=
    exists_matches_part chain bare ground new matched
  refine ⟨_, .part parted left (eq ▸ matched') fun has => ?_, ?_⟩
  · exact not_agree_of_part chain ground (eq ▸ has) matched (agree (.app (.head _) has))
  · exact renested_beside (fun hk => new (eq ▸ closed k hk)) others last

/-- Each step on a chain is made by the pattern, or by the pattern beside the rest. -/
theorem StepsChain.exists_binds (isApp : p.lhs.IsApp op) (isAppT : t.IsApp op) (chain : F.isChain op = true)
    (bare : t.Bare) (ground : t.Ground) (closed : ∀ v, p.rhs.HasVar v → p.lhs.HasVar v)
    (new : ¬ p.lhs.HasVar k) (ne : k ≠ p.witness) (h : StepsChain F op p t u) :
    (∃ σ, p.Binds F t σ ∧ p.rhs.subst σ = u) ∨
      ∃ σ, (p.beside op k).Binds F t σ ∧ Renested F ((p.beside op k).rhs.subst σ) u := by
  cases h with
  | whole matched witness =>
    exact .inl ⟨_, ⟨_, matched, witness, rfl⟩, subst_andThen_only matched closed⟩
  | part parted left matched own =>
    obtain ⟨ws, a, rfl⟩ := isAppT.exists_app
    obtain ⟨us, b, eq⟩ := isApp.exists_app
    rw [eq] at matched
    obtain ⟨θ, whole, others, last⟩ :=
      exists_matches_whole chain bare ground (eq ▸ new) parted left matched
    rw [← eq] at whole
    have free : ¬ (p.beside op k).lhs.HasVar p.witness := by
      rw [beside, hasVar_app]
      rintro ⟨t, mem, has⟩
      rcases List.mem_cons.mp mem with rfl | mem
      · exact own has
      · rw [List.mem_singleton.mp mem, hasVar_var] at has
        exact ne has.symm
    refine .inr ⟨_, ⟨θ, whole, fun has => absurd has free, rfl⟩, ?_⟩
    show Renested F ((p.beside op k).rhs.subst (andThen θ (only p.witness _))) _
    rw [subst_andThen_only whole (closed_beside closed)]
    exact renested_beside (fun hk => new (closed k hk)) others last

/-! ## Instances that are equal to a part of the chain -/

/-- A replacement, beside what is left of a chain. -/
def besideLeft (op : String) (w : Tree) (ys : List Tree) : Tree :=
  if ys = [] then w else app op [w, joined op ys] .unspecified

/-- A step replaces an instance of the pattern, whose operands are a part of the chain, and leaves the
    others. No operand is lost, doubled or used twice. -/
theorem StepsChain.exists_parted {w : Tree} (chain : F.isChain op = true) (bare : t.Bare)
    (filled : p.lhs.Filled) (h : StepsChain F op p t w) : ∃ σ xs ys, Parted xs ys (t.items op) ∧
      F.Pairs (Alike F) op ((p.lhs.subst σ).items op) xs ∧ w = besideLeft op (p.rhs.subst σ) ys := by
  cases h with
  | @whole σ matched _ =>
    have alike := matched.alike (List.forall_mem_singleton.mpr ⟨bare.filled, filled⟩) _ (.head _)
    exact ⟨σ, _, [], .whole _, alike.items chain, rfl⟩
  | @part xs ys σ parted left matched _ =>
    have inside : ∀ u ∈ xs, u ∈ t.items op := fun u hu =>
      parted.perm.mem_iff.mpr (List.mem_append_left _ hu)
    have alike := matched.alike
      (List.forall_mem_singleton.mpr ⟨(bare.of_parts inside).filled, filled⟩) _ (.head _)
    have pairs := alike.items chain
    rw [items_of_parts inside] at pairs
    exact ⟨σ, xs, ys, parted, pairs, (if_neg left).symm⟩

/-- An instance of a plain pattern whose operands are a part of a chain comes from a way to match them. -/
theorem exists_matches_of_pairs {lhs : Tree} {xs : List Tree} (chain : F.isChain op = true)
    (isApp : lhs.IsApp op) (plain : Plain F lhs) (images : ∀ v, lhs.HasVar v → Plain F (σ v))
    (parts : ∀ u ∈ xs, Plain F u ∧ u.Ground ∧ ¬ u.IsApp op)
    (pairs : F.Pairs (Alike F) op ((lhs.subst σ).items op) xs) :
    ∃ τ, Matches F [(app op xs .unspecified, lhs)] τ ∧ ∀ v, lhs.HasVar v → Alike F (τ v) (σ v) := by
  have instanced : Plain F (lhs.subst σ) := over_subst plain images
  have isApp' : (lhs.subst σ).IsApp op := by
    cases lhs with
    | app f args attrs => exact isApp
    | _ => cases isApp
  have two := (instanced.items_length chain).2 isApp'
  rw [pairs.length_eq] at two
  have ne : xs ≠ [] := by
    rintro rfl
    cases two
  have alone : ∀ u ∈ xs, ¬ u.IsApp op := fun u hu => (parts u hu).2.2
  -- A plain tree stands for the part, which need not have two operands.
  have items := items_nested alone
  have plain' : Plain F (nested op xs) := plain_nested ne fun u hu => (parts u hu).1
  have isNested : (nested op xs).IsApp op := isApp_nested (by omega)
  have alike : Alike F (lhs.subst σ) (nested op xs) := .of_items chain isApp' isNested (items.symm ▸ pairs)
  have ground : (nested op xs).Ground := by
    intro v hv
    obtain ⟨u, hu, hv⟩ := hasVar_items.mpr hv
    rw [items] at hu
    exact (parts u hu).2.1 v hv
  have equal : ∀ p ∈ [(nested op xs, lhs)], Equal F (p.2.subst σ) p.1 :=
    List.forall_mem_singleton.mpr (alike.equal instanced plain')
  obtain ⟨τ, matched, each⟩ := exists_matches (List.forall_mem_singleton.mpr ⟨plain', plain⟩)
    (List.forall_mem_singleton.mpr ground) equal
  have renests : Renests F (nested op xs) (app op xs .unspecified) :=
    ⟨plain'.bare.renested_of_items chain isNested items, plain'.bare,
      .app rfl fun u hu => (parts u hu).1.bare⟩
  obtain ⟨τ', matched', renested⟩ := matched.renests renests
  exact ⟨τ', matched', fun v hv =>
    (renested v).symm.alike.trans (each v ⟨_, .head _, hv⟩).alike⟩

/-- Where the operands of an instance of the pattern are a part of the chain, there is a step that replaces
    them by a tree like the replacement and leaves the others. -/
theorem exists_stepsChain {xs : List Tree} (chain : F.isChain op = true) (isApp : p.lhs.IsApp op)
    (isAppT : t.IsApp op) (plain : Plain F p.lhs) (plainT : Plain F t) (ground : t.Ground)
    (closed : ∀ v, p.rhs.HasVar v → p.lhs.HasVar v) (own : ¬ p.lhs.HasVar p.witness)
    (images : ∀ v, p.lhs.HasVar v → Plain F (σ v)) (parted : Parted xs ys (t.items op))
    (pairs : F.Pairs (Alike F) op ((p.lhs.subst σ).items op) xs) :
    ∃ w, StepsChain F op p t w ∧ Alike F w (besideLeft op (p.rhs.subst σ) ys) := by
  have parts : ∀ u ∈ xs, Plain F u ∧ u.Ground ∧ ¬ u.IsApp op := by
    intro u hu
    have mem : u ∈ t.items op := parted.perm.mem_iff.mpr (List.mem_append_left _ hu)
    exact ⟨plainT.of_mem_items mem, fun v hv => ground v (hasVar_items.mp ⟨u, mem, hv⟩),
      not_isApp_of_mem_items mem⟩
  obtain ⟨τ, matched, each⟩ := exists_matches_of_pairs chain isApp plain images parts pairs
  have rhs : Alike F (p.rhs.subst τ) (p.rhs.subst σ) := .subst_congr fun v hv => each v (closed v hv)
  by_cases left : ys = []
  · subst left
    obtain rfl := parted.eq_whole
    have renests : Renests F (app op (t.items op) .unspecified) t :=
      ⟨(plainT.bare.renested_of_items chain isAppT rfl).symm,
        .app rfl fun u hu => (parts u hu).1.bare, plainT.bare⟩
    obtain ⟨τ', matched', renested⟩ := matched.renests renests
    refine ⟨_, .whole matched' fun has => absurd has own, ?_⟩
    exact (Alike.subst_congr fun v _ => (renested v).symm.alike).trans rhs
  · refine ⟨_, .part parted left matched own, ?_⟩
    rw [besideLeft, if_neg left]
    exact .congr (.of_forall₂ (.cons rhs (.cons (.refl _) .nil)))

end Tree.Pattern

/-! ## The rule -/

variable {ses : Session} {x : TermId} {p : Pattern} {op : String}
  {build : TermId → SessionM (TermId × TermId)}

/-- While there are variables left, there is one that a pattern that has been made does not have. -/
theorem Search.Made.exists_unused {outer : UInt32 → Prop} {w : TermId} {pair : (TermId × TermId) × Session}
    (h : Search.Made outer p ses w pair) (hv : ses.store.Valid) (tidy : ses.store.Tidy)
    (room : pair.2.store.Roomy) (known : ∀ v, outer v → ses.store.Knows v) :
    ∃ k, k ∉ p.names ∧ ¬ outer k := by
  classical
  obtain ⟨ρ, inj, stays, new, witness, left, right⟩ := h.named tidy room
  have stored := Search.knows_of_names (h.later.grows.store.valid hv) witness left right
  -- The variable that comes next is none of those that the pattern was made with.
  have next : ¬ pair.2.store.Knows pair.2.store.nextVar := (h.later.tidy tidy room).not_knows_fresh
  let r : UInt32 → UInt32 := fun v => if v ∈ p.names then ρ v else v
  have knows : ∀ v, v ∈ p.names ∨ outer v → pair.2.store.Knows (r v) := by
    intro v hv
    show pair.2.store.Knows (if v ∈ p.names then ρ v else v)
    split
    · exact stored v ‹_›
    · exact h.later.grows.store.knows (known v (hv.resolve_left ‹_›))
  have apart : ∀ v ∈ p.names, ∀ u, outer u → u ∉ p.names → ρ v ≠ u := by
    rintro v mem u hu no rfl
    by_cases ho : outer v
    · exact no ((stays v mem ho).symm ▸ mem)
    · exact new v mem ho (known _ hu)
  have injective : Set.InjOn r {v | v ∈ p.names ∨ outer v} := by
    intro v hv u hu eq
    by_cases memV : v ∈ p.names <;> by_cases memU : u ∈ p.names <;>
      simp only [r, memV, memU, if_true, if_false] at eq
    · exact inj memV memU eq
    · exact absurd eq (apart v memV u (hu.resolve_left memU) memU)
    · exact absurd eq.symm (apart u memU v (hv.resolve_left memV) memV)
    · exact eq
  obtain ⟨π, same⟩ := Script.exists_perm injective
  refine ⟨π.symm pair.2.store.nextVar, fun mem => next ?_, fun ho => next ?_⟩
  · rw [← π.apply_symm_apply pair.2.store.nextVar, same _ (.inl mem)]
    exact knows _ (.inl mem)
  · rw [← π.apply_symm_apply pair.2.store.nextVar, same _ (.inr ho)]
    exact knows _ (.inr ho)

/-- Nothing that a pattern was made of is lost when the rest of a chain is put beside it. -/
theorem Script.chainGoal_later {a b w : TermId} {pair : (TermId × TermId) × Session}
    (left : pair.2.store.Stored pair.1.1) (right : pair.2.store.Stored pair.1.2) :
    pair.2.Later (Script.chainGoal a b w pair.1.1 pair.1.2 pair.2).2 := by
  rw [Script.chainGoal_apply]
  split
  · exact .refl _
  · exact (Search.withRest_spec _ left right).1

/-- A rule made of a pattern in a chain derives what the pattern makes, alone and beside the rest. -/
theorem Rule.derives_iff_binds (name : String) (makes : Search.Makes ses ses.store.Knows build p)
    (isApp : p.lhs.IsApp op) (chain : ses.facts.isChain op = true)
    (closed : ∀ v, p.rhs.HasVar v → p.lhs.HasVar v) (hv : ses.store.Valid) (tidy : ses.store.Tidy)
    (hx : ses.store.Stored x) (ground : (ses.store.tree x).Ground)
    (room : ((Rule.patternInChain name build).relate x (Session.fresh ses).1
      (Session.fresh ses).2).2.store.Roomy) :
    ∃ k, k ∉ p.names ∧ ∀ u, (Rule.patternInChain name build).Derives ses x u ↔
      ∃ q ∈ ({p, p.beside op k} : Set Pattern), ∃ σ, q.Binds ses.facts (ses.store.tree x) σ ∧
        u = q.rhs.subst σ := by
  have l := Session.fresh_later ses
  have hv₁ := l.grows.store.valid hv
  have made := makes.makes _ l hv₁
  have room' := room
  rw [Script.patternInChain_relate] at room'
  have room' := Store.Roomy.of_grows (Script.chainGoal_later made.left made.right).grows.store room'
  have tidy₁ := l.tidy tidy (.of_grows made.later.grows.store room')
  obtain ⟨k, new, inner⟩ := made.exists_unused hv₁ tidy₁ room' fun v hv => l.grows.store.knows hv
  refine ⟨k, new, fun u => ?_⟩
  have relates := Search.patternInChain_relates name makes (fun v hv => .inl (closed v hv)) (fun _ => id)
    (E := Tree.var) (fun _ => Or.inl rfl) (.part isApp chain new inner)
  simp only [Pattern.inst_var] at relates
  rw [relates.derives_iff hv tidy hx ground room]
  simp only [Set.mem_iUnion, exists_prop]
  constructor
  · rintro ⟨_, ⟨q, hq, σ, binds, rfl⟩, rfl⟩
    exact ⟨q, hq, σ, binds, rfl⟩
  · rintro ⟨q, hq, σ, binds, rfl⟩
    exact ⟨_, ⟨q, hq, σ, binds, rfl⟩, rfl⟩

/-- What a rule made of a pattern in a chain derives from a chain is what its steps make of it, up to nesting.
    It puts a replacement in the place of an instance of the pattern whose operands are all operands of the
    chain, or some of them and then the others stay beside it, and it does so for every such instance. -/
theorem Rule.derives_inChain (name : String) (makes : Search.Makes ses ses.store.Knows build p)
    (isApp : p.lhs.IsApp op) (chain : ses.facts.isChain op = true)
    (closed : ∀ v, p.rhs.HasVar v → p.lhs.HasVar v) (hv : ses.store.Valid) (tidy : ses.store.Tidy)
    (hx : ses.store.Stored x) (ground : (ses.store.tree x).Ground) (bare : (ses.store.tree x).Bare)
    (isAppX : (ses.store.tree x).IsApp op)
    (room : ((Rule.patternInChain name build).relate x (Session.fresh ses).1
      (Session.fresh ses).2).2.store.Roomy) :
    (∀ u, (Rule.patternInChain name build).Derives ses x u →
      ∃ w, p.StepsChain ses.facts op (ses.store.tree x) w ∧ Renested ses.facts u w) ∧
    (∀ w, p.StepsChain ses.facts op (ses.store.tree x) w →
      ∃ u, (Rule.patternInChain name build).Derives ses x u ∧ Renested ses.facts u w) ∧
    (p.lhs.Filled → ∀ u, (Rule.patternInChain name build).Derives ses x u →
      ∃ σ xs ys, Parted xs ys ((ses.store.tree x).items op) ∧
        ses.facts.Pairs (Alike ses.facts) op ((p.lhs.subst σ).items op) xs ∧
        Renested ses.facts u (Pattern.besideLeft op (p.rhs.subst σ) ys)) ∧
    (Plain ses.facts p.lhs → Plain ses.facts (ses.store.tree x) → ¬ p.lhs.HasVar p.witness →
      ∀ σ xs ys, (∀ v, p.lhs.HasVar v → Plain ses.facts (σ v)) →
        Parted xs ys ((ses.store.tree x).items op) →
        ses.facts.Pairs (Alike ses.facts) op ((p.lhs.subst σ).items op) xs →
        ∃ u, (Rule.patternInChain name build).Derives ses x u ∧
          Alike ses.facts u (Pattern.besideLeft op (p.rhs.subst σ) ys)) := by
  obtain ⟨k, new, derives⟩ := derives_iff_binds name makes isApp chain closed hv tidy hx ground room
  have sound : ∀ u, (Rule.patternInChain name build).Derives ses x u →
      ∃ w, p.StepsChain ses.facts op (ses.store.tree x) w ∧ Renested ses.facts u w := by
    intro u derived
    obtain ⟨q, rfl | rfl, σ, binds, rfl⟩ := (derives u).mp derived
    · exact ⟨_, binds.stepsChain closed, .refl _⟩
    · exact binds.stepsChain_beside isApp isAppX chain bare ground closed fun h => new (.inl h)
  have complete : ∀ w, p.StepsChain ses.facts op (ses.store.tree x) w →
      ∃ u, (Rule.patternInChain name build).Derives ses x u ∧ Renested ses.facts u w := by
    intro w steps
    rcases steps.exists_binds isApp isAppX chain bare ground closed (fun h => new (.inl h))
      fun h => new (.inr (.inr h)) with ⟨σ, binds, rfl⟩ | ⟨σ, binds, renested⟩
    · exact ⟨_, (derives _).mpr ⟨p, .inl rfl, σ, binds, rfl⟩, .refl _⟩
    · exact ⟨_, (derives _).mpr ⟨_, .inr rfl, σ, binds, rfl⟩, renested⟩
  refine ⟨sound, complete, fun filled u derived => ?_, ?_⟩
  · obtain ⟨w, steps, renested⟩ := sound u derived
    obtain ⟨σ, xs, ys, parted, pairs, rfl⟩ := steps.exists_parted chain bare filled
    exact ⟨σ, xs, ys, parted, pairs, renested⟩
  · intro plain plainX own σ xs ys images parted pairs
    obtain ⟨w, steps, alike⟩ :=
      Pattern.exists_stepsChain chain isApp isAppX plain plainX ground closed own images parted pairs
    obtain ⟨u, derived, renested⟩ := complete w steps
    exact ⟨u, derived, renested.alike.trans alike⟩

/-! ## A product of three factors -/

/-- The inputs `a` and `c`, and their product, once more multiplied by `a`. -/
def threeFactors : Session := .holding Session.standard.facts [.leaf (.input "a"), .leaf (.input "c"),
  .app "mul" [⟨0⟩, ⟨1⟩] .unspecified, .app "mul" [⟨2⟩, ⟨0⟩] .unspecified]

/-- A factor that is there twice is squared. -/
def squaredFactor : Pattern :=
  Script.Template.pattern 0 ["x"] [1] [] (.mul (.ref "x") (.ref "x")) (.square (.ref "x"))

def buildSquaredFactor : TermId → SessionM (TermId × TermId) :=
  Script.Template.buildPattern [] ["x"] (.mul (.ref "x") (.ref "x")) (.square (.ref "x"))

theorem squaredFactor_makes :
    Search.Makes threeFactors threeFactors.store.Knows buildSquaredFactor squaredFactor := by
  have simple : (Script.Template.mul (.ref "x") (.ref "x")).simple ["mul", "square"] ["witness", "x"] =
      true := by decide +kernel
  exact Script.Template.buildPattern_makes (by decide +kernel) nofun (fun _ => id) simple
    (by decide +kernel) rfl (by decide)
    (List.forall_mem_cons.mpr ⟨by decide +kernel, List.forall_mem_singleton.mpr (by decide +kernel)⟩)

/-- Where a factor is there twice, its square stays beside the other one. -/
theorem exists_derives_threeFactors : ∃ u,
    (Rule.patternInChain "mul_self" buildSquaredFactor).Derives threeFactors ⟨3⟩ u ∧
    Alike threeFactors.facts u (.app "mul" [.app "square" [.leaf (.input "a")] .unspecified,
      .leaf (.input "c")] .unspecified) := by
  have tree : threeFactors.store.tree ⟨3⟩ = .app "mul" [.app "mul" [.leaf (.input "a"),
    .leaf (.input "c")] .unspecified, .leaf (.input "a")] .unspecified := rfl
  have lhs : squaredFactor.lhs = .app "mul" [.var 1, .var 1] .unspecified := rfl
  have isApp : squaredFactor.lhs.IsApp "mul" := rfl
  have closed : ∀ v, squaredFactor.rhs.HasVar v → squaredFactor.lhs.HasVar v := by
    intro v hv
    have rhs : squaredFactor.rhs = .app "square" [.var 1] .unspecified := rfl
    obtain rfl : v = 1 := by simpa [rhs] using hv
    exact lhs ▸ .app (.head _) .var
  have ground : (threeFactors.store.tree ⟨3⟩).Ground := by
    rw [tree]
    intro v
    simp
  have input (name : String) : Plain threeFactors.facts (.leaf (.input name)) := .leaf trivial
  have plain : Plain threeFactors.facts (threeFactors.store.tree ⟨3⟩) :=
    tree ▸ Tree.plain_pair rfl (Tree.plain_pair rfl (input "a") (input "c")) (input "a")
  have plainLhs : Plain threeFactors.facts squaredFactor.lhs :=
    Tree.plain_pair rfl (.var 1) (.var 1)
  obtain ⟨-, -, -, finds⟩ := Rule.derives_inChain "mul_self" squaredFactor_makes isApp rfl closed
    (by decide +kernel) (by decide +kernel) (by decide +kernel) ground plain.bare (tree ▸ rfl)
    (by decide +kernel)
  exact finds plainLhs plain (by rw [lhs]; simp [squaredFactor, Script.Template.pattern])
    (fun _ => .leaf (.input "a")) [.leaf (.input "a"), .leaf (.input "a")] [.leaf (.input "c")]
    (fun _ _ => input "a") (tree ▸ .left _ (.right _ (.left _ .nil)))
    (.of_forall₂ (.cons (.refl _) (.cons (.refl _) .nil)))

/-! ## Behind the last variable -/

/-- Two variables more, one of them close to the last. -/
def threeLateFactors : Session :=
  (Session.onStore (Store.var 0xFFFFFFFD) (Session.onStore (Store.var 0) threeFactors).2).2

/-- A factor that is there twice is squared, where the first variable stands for it. -/
def squaredLateFactor : Pattern :=
  ⟨1, .app "mul" [.var 0, .var 0] .unspecified, .app "square" [.var 0] .unspecified⟩

def buildSquaredLateFactor : TermId → SessionM (TermId × TermId) :=
  Script.Template.buildPattern [("x", ⟨4⟩)] [] (.mul (.ref "x") (.ref "x")) (.square (.ref "x"))

/-- The variable for the rest of the chain is the first one again, which stands for something else. The
    walk has no result, although there is a step that squares one factor and leaves the other. -/
theorem exists_stepsChain_threeLateFactors :
    Search.Makes threeLateFactors threeLateFactors.store.Knows buildSquaredLateFactor squaredLateFactor ∧
    threeLateFactors.facts.isChain "mul" = true ∧
    squaredLateFactor.StepsChain threeLateFactors.facts "mul" (threeLateFactors.store.tree ⟨3⟩)
      (.app "mul" [.app "square" [.leaf (.input "a")] .unspecified, .leaf (.input "c")] .unspecified) ∧
    ((Rule.patternInChain "square" buildSquaredLateFactor).walk ⟨3⟩ 145 threeLateFactors).1 =
      ([], true) := by
  refine ⟨?_, rfl, ?_, by decide +kernel⟩
  · have x : threeLateFactors.store.tree ⟨4⟩ = .var 0 := rfl
    have valid : threeLateFactors.store.Valid := by decide +kernel
    have simple : (Script.Template.mul (.ref "x") (.ref "x")).simple ["mul", "square"] ["witness", "x"] =
        true := by decide +kernel
    exact Script.Template.buildPattern_makes valid
      (List.forall_mem_singleton.mpr ⟨by decide +kernel, fun v hv => by
        rw [x, Tree.hasVar_var] at hv
        subst hv
        decide +kernel⟩) (fun _ => id) simple (by decide +kernel) rfl (by decide)
      (List.forall_mem_singleton.mpr (by decide +kernel))
  · have tree : threeLateFactors.store.tree ⟨3⟩ = .app "mul" [.app "mul" [.leaf (.input "a"),
      .leaf (.input "c")] .unspecified, .leaf (.input "a")] .unspecified := rfl
    have a : (Tree.leaf (.input "a")).Ground := nofun
    have pairs : Matches threeLateFactors.facts
        ((Tree.operands threeLateFactors.facts "mul" [.leaf (.input "a"), .leaf (.input "a")]).zip
          (Tree.operands threeLateFactors.facts "mul" [.var 0, .var 0]) ++ []) _ :=
      .bind a (.same a .nil)
    have matched : Matches threeLateFactors.facts
        [(.app "mul" [.leaf (.input "a"), .leaf (.input "a")] .unspecified, squaredLateFactor.lhs)] _ :=
      .app rfl (.pair rfl (.inl rfl)) pairs
    have parted : Parted [.leaf (.input "a"), .leaf (.input "a")] [.leaf (.input "c")]
        ((threeLateFactors.store.tree ⟨3⟩).items "mul") := tree ▸ .left _ (.right _ (.left _ .nil))
    exact .part parted (List.cons_ne_nil _ _) matched (by simp [squaredLateFactor])

end Regraft
