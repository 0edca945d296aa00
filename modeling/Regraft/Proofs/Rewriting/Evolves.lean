import Regraft.Proofs.Match.Evolves
import Regraft.Proofs.Rewriting.Correlated
import Regraft.Proofs.Subst.Resolves

/-
  Goals that are built of the elementary ones (`Goal.Built`), by conjunction and disjunction, by
  rewriting somewhere in a term, or only when they are applied, so that their parts may differ each
  time. Whatever the parts are, their answers only do acts of goals (`Goal.Built.evolves`): bindings and
  sites are kept, and what was acyclic and undecided stays so (`Goal.Built.answer_keeps`).
-/

namespace Regraft

open Search (Scene Evolving MeetsFor given_grows)

/-- A stored term that is made of some labels. -/
structure Store.Holds (has : Tree.Label → Prop) (st : Store) (t : TermId) : Prop where
  valid : st.Valid
  stored : st.Stored t
  labels : (st.tree t).Over has

namespace Store.Holds

variable {has : Tree.Label → Prop} {st st' : Store} {s : Subst} {t : TermId}

theorem grows (h : st.Holds has t) (g : st.Grows st') : st'.Holds has t where
  valid := g.valid h.valid
  stored := g.stored h.stored
  labels := by
    rw [g.tree_eq h.valid h.stored]
    exact h.labels

/-- A term is made of the labels that it has under a substitution. -/
theorem of_given (hs : s.Sound st) (h : Subst.Given has st s t) : st.Holds has t := by
  have labels := h.labels
  rw [hs.tree_eq_subst] at labels
  exact ⟨hs.valid, h.stored, Tree.over_of_over_subst labels⟩

theorem given (h : st.Holds has t) (hs : s.Sound st) (images : ∀ v, (s.image st v).Over has) :
    Subst.Given has st s t := by
  refine ⟨h.stored, ?_⟩
  rw [hs.tree_eq_subst]
  exact Tree.over_subst h.labels fun v _ => images v

theorem of_stored (hv : st.Valid) (h : st.Stored t) : st.Holds Tree.anyLabel t :=
  ⟨hv, h, Tree.over_any _⟩

theorem of_var (hv : st.Valid) {v : UInt32} (h : st.term? t = some (.var v)) : st.Holds has t :=
  ⟨hv, stored_of_term? h, by rw [hv.tree_var h]; exact .var v⟩

end Store.Holds

theorem Search.Scene.given {F : Facts} {has : Tree.Label → Prop} {ses ses' : Session} {s : Subst}
    {t : TermId} (h : Scene F has ses' s) (g : ses.Grows ses') (ht : ses.store.Holds has t) :
    Subst.Given has ses'.store s t := (ht.grows g.store).given h.sound h.images

/-! ## Elementary goals -/

namespace Goal

variable {has : Tree.Label → Prop} {n : Nat} {ses : Session} {s : Subst} {a b : TermId}

theorem succeed_evolves : MeetsFor (Evolving has ses.store s) n ses (.apply .succeed s) := by
  cases n with
  | zero => trivial
  | succ n => exact .apply fun ses' g => ⟨.refl ses', Search.unit_evolves (.grows .refl g.store)⟩

theorem eq_evolves (hs : s.Sound ses.store) (ha : Subst.Given has ses.store s a)
    (hb : Subst.Given has ses.store s b) :
    MeetsFor (Evolving has ses.store s) n ses (.apply (.eq a b) s) := by
  cases n with
  | zero => trivial
  | succ n =>
    refine .apply fun ses' g => ?_
    obtain ⟨g', meets⟩ := Search.unify_evolves (n := n) (given_grows hs g ha) (given_grows hs g hb)
    exact ⟨g', meets.imp fun _ _ => Evolving.back g⟩

theorem neq_evolves (hs : s.Sound ses.store) (ha : Subst.Given has ses.store s a)
    (hb : Subst.Given has ses.store s b) :
    MeetsFor (Evolving has ses.store s) n ses (.apply (.neq a b) s) := by
  cases n with
  | zero => trivial
  | succ n =>
    refine .apply fun ses' g => ?_
    rw [neq_apply]
    cases h : s.requireDistinct ses'.store a b with
    | none => exact ⟨Session.count_grows _ ses', .empty⟩
    | some t =>
      have evolved : Evolving has ses.store s ses' t :=
        Evolving.back g (.distinct .refl (given_grows hs g ha) (given_grows hs g hb) h)
      exact ⟨.refl ses', Search.unit_evolves evolved⟩

theorem countFrom_evolves (numbers : ∀ x, has (.leaf (.const (.scalar x)))) {x : Float}
    (hs : s.Sound ses.store) (ha : Subst.Given has ses.store s a) :
    MeetsFor (Evolving has ses.store s) n ses (.apply (.countFrom a x) s) := by
  unfold countFrom
  generalize 0 = k
  induction n generalizing k ses with
  | zero => trivial
  | succ n ih =>
    refine .apply fun ses' g => ?_
    -- The number is stored, and the next one tried beside it.
    have g' : ses'.Grows (Session.scalar (k.repeat (· + 1.0) x) ses').2 :=
      Session.onStore_grows (Store.intern_grows trivial)
    have made : (Session.scalar (k.repeat (· + 1.0) x) ses').2.store.term?
      (Session.scalar (k.repeat (· + 1.0) x) ses').1 = _ := Store.term?_intern ..
    show ses'.Grows (Session.scalar (k.repeat (· + 1.0) x) ses').2 ∧ MeetsFor _ n
      (Session.scalar (k.repeat (· + 1.0) x) ses').2 (Search.plus
        (.apply (.eq a (Session.scalar (k.repeat (· + 1.0) x) ses').1) s) (.apply (.series _ (k + 1)) s))
    generalize Session.scalar (k.repeat (· + 1.0) x) ses' = r at g' made ⊢
    have later := g.trans g'
    have sound := hs.grows later.store
    have here := given_grows hs later ha
    have number : Subst.Given has r.2.store s r.1 := by
      refine ⟨Store.stored_of_term? made, ?_⟩
      rw [sound.tree_leaf made]
      exact .leaf (numbers _)
    refine ⟨g', MeetsFor.imp (fun _ _ => Evolving.back later) ?_⟩
    exact .plus (eq_evolves sound here number) (ih sound here (k + 1))

theorem site_evolves : MeetsFor (Evolving has ses.store s) n ses (.apply (.site a b) s) :=
  Search.site_meets fun _ g => (Subst.Evolves.refl.grows g.store).site ⟨a, b⟩

end Goal

namespace Search

variable {F : Facts} {has : Tree.Label → Prop} {n : Nat} {ses ses' ses'' : Session}
  {s s' : Subst} {a b : TermId} {relate : Relation}

/-! ## Rewriting somewhere in a term -/

/-- Goals of a relation only do acts of goals, in sessions later than `ses`. -/
def RelationEvolves (F : Facts) (has : Tree.Label → Prop) (ses : Session) (relate : Relation) : Prop :=
  ∀ n {ses' s a b}, ses.Grows ses' → Scene F has ses' s → Subst.Given has ses'.store s a →
    Subst.Given has ses'.store s b → ses'.Grows (relate a b ses').2 ∧
      MeetsFor (Evolving has ses'.store s) n (relate a b ses').2 (.apply (relate a b ses').1 s)

theorem Scene.given_var (h : Scene F has ses s) {t : TermId} {v : UInt32}
    (var : ses.store.term? t = some (.var v)) : Subst.Given has ses.store s t :=
  (Store.Holds.of_var h.sound.valid var).given h.sound h.images

theorem atRoot_evolves (hr : RelationEvolves F has ses relate) (g : ses.Grows ses')
    (scene : Scene F has ses' s) (ha : Subst.Given has ses'.store s a)
    (hb : Subst.Given has ses'.store s b) :
    ses'.Grows (atRoot relate a b s ses').2 ∧ MeetsFor (Evolving has ses'.store s) n
      (atRoot relate a b s ses').2 (atRoot relate a b s ses').1 := by
  obtain ⟨g', evolves⟩ := hr n g scene ha hb
  refine ⟨g', ?_⟩
  show MeetsFor _ n _ (bind (.apply (relate a b ses').1 s) (.site a b))
  exact evolves.bind fun ses₁ s₁ _ evolved => site_meets fun ses₂ g₂ =>
    (evolved.grows g₂.store).site ⟨a, b⟩

/-- An operand is rewritten, and the term unified with an application around the result. -/
theorem rebuilt_evolves
    (ih : ∀ {ses' s a b}, ses.Grows ses' → Scene F has ses' s → Subst.Given has ses'.store s a →
      Subst.Given has ses'.store s b →
        MeetsFor (Evolving has ses'.store s) n ses' (.apply (.anywhere relate a b) s))
    (g : ses.Grows ses') (scene : Scene F has ses' s) {x y w : TermId}
    (hx : Subst.Given has ses'.store s x) (hy : Subst.Given has ses'.store s y)
    (hb : Subst.Given has ses'.store s b) (hw : Subst.Given has ses'.store s w) :
    MeetsFor (Evolving has ses'.store s) n ses' (bind (.apply (.anywhere relate x y) s) (.eq b w)) := by
  refine (ih g scene hx hy).bind fun ses₁ s₁ _ evolved => ?_
  have adv := evolved.advance scene.sound
  exact (Goal.eq_evolves adv.sound (hb.advance adv) (hw.advance adv)).imp fun _ _ => evolved.trans

theorem inOperand_evolves
    (ih : ∀ {ses' s a b}, ses.Grows ses' → Scene F has ses' s → Subst.Given has ses'.store s a →
      Subst.Given has ses'.store s b →
        MeetsFor (Evolving has ses'.store s) n ses' (.apply (.anywhere relate a b) s))
    (g : ses.Grows ses') (scene : Scene F has ses' s) (ha : Subst.Given has ses'.store s a)
    (hb : Subst.Given has ses'.store s b) {op : String} {args : List TermId} {attrs : Attrs}
    (app : ses'.store.term? (s.deref ses'.store a) = some (.app op args attrs)) {i : Nat} {x : TermId}
    (hx : args[i]? = some x) :
    ses'.Grows (inOperand relate op args attrs b i x s ses').2 ∧
      MeetsFor (Evolving has ses'.store s) n (inOperand relate op args attrs b i x s ses').2
        (inOperand relate op args attrs b i x s ses').1 := by
  have hs := scene.sound
  have label := ha.labels
  rw [hs.tree_of_app app, Tree.over_app, List.length_map] at label
  have operands : ∀ u ∈ args, Subst.Given has ses'.store s u := fun u mem =>
    ⟨hs.valid.stored app mem, label.2 _ (List.mem_map_of_mem mem)⟩
  obtain ⟨y, w, ses₁, eq, l, var, made⟩ := inOperand_spec relate attrs b i x s fun u => hs.valid.stored app
  rw [eq]
  have g' := l.grows
  have scene₁ := scene.grows g'
  have hy := scene₁.given_var var
  have hw : Subst.Given has ses₁.store s w := by
    refine ⟨Store.stored_of_term? made, ?_⟩
    rw [scene₁.sound.tree_app made, Tree.over_app, List.length_map, List.length_set]
    refine ⟨label.1, List.forall_mem_map.mpr fun u mem => ?_⟩
    rcases List.mem_or_eq_of_mem_set mem with mem | rfl
    · exact (given_grows hs g' (operands u mem)).labels
    · exact hy.labels
  refine ⟨g', MeetsFor.imp (fun _ _ => Evolving.back g') ?_⟩
  exact rebuilt_evolves ih (g.trans g') scene₁
    (given_grows hs g' (operands x (List.mem_of_getElem? hx))) hy (given_grows hs g' hb) hw

/-- Rewriting by such a relation at one position only does acts of goals. -/
theorem anywhere_evolves (hr : RelationEvolves F has ses relate) (n : Nat) :
    ∀ {ses' s a b}, ses.Grows ses' → Scene F has ses' s → Subst.Given has ses'.store s a →
      Subst.Given has ses'.store s b →
        MeetsFor (Evolving has ses'.store s) n ses' (.apply (.anywhere relate a b) s) := by
  induction n with
  | zero => exact fun _ _ _ _ => trivial
  | succ n ih =>
    intro ses₀ s a b g₀ scene ha hb
    refine .apply fun ses' g => ?_
    show ses'.Grows (anywhere relate a b s ses').2 ∧ MeetsFor (Evolving has ses₀.store s) n
      (anywhere relate a b s ses').2 (anywhere relate a b s ses').1
    unfold anywhere
    split
    · exact ⟨.refl ses', .empty⟩
    · refine ⟨.refl ses', .plus (MeetsFor.suspend fun ses₁ g₁ => ?_).pred
        (MeetsFor.suspend fun ses₁ g₁ => ?_).pred⟩
      · have later := g.trans g₁
        obtain ⟨g₂, meets⟩ := atRoot_evolves hr (g₀.trans later) (scene.grows later)
          (given_grows scene.sound later ha) (given_grows scene.sound later hb)
        exact ⟨g₂, meets.imp fun _ _ => Evolving.back later⟩
      · unfold belowRoot
        split
        · exact ⟨.refl ses₁, .empty⟩
        · rename_i op args attrs app
          refine ⟨.refl ses₁, .union fun branch mem => ?_⟩
          obtain ⟨⟨x, i⟩, hx, rfl⟩ := List.mem_map.mp mem
          refine (MeetsFor.suspend fun ses₂ g₂ => ?_).pred
          have later := (g.trans g₁).trans g₂
          have app' := g₂.store.keeps _ _ (Store.app?_eq_some_iff.mp app)
          rw [← (scene.grows (g.trans g₁)).sound.deref_grows g₂.store
            ((g.trans g₁).store.stored ha.stored)] at app'
          obtain ⟨g₃, meets⟩ := inOperand_evolves ih (g₀.trans later) (scene.grows later)
            (given_grows scene.sound later ha) (given_grows scene.sound later hb) app'
            (List.mem_zipIdx_iff_getElem?.mp hx)
          exact ⟨g₃, meets.imp fun _ _ => Evolving.back later⟩

end Search

/-! ## Goals -/

namespace Goal

variable {F : Facts} {has : Tree.Label → Prop} {n : Nat} {ses ses' : Session} {s s' : Subst}
  {a b : TermId} {goal : Goal} {goals : List Goal}

/-- A goal built of elementary ones over some labels, from a session on. What a goal builds only when
    it is applied may be any such goal, and add to the session. -/
inductive Built (has : Tree.Label → Prop) : Session → Goal → Prop
  | succeed {ses : Session} : Built has ses succeed
  | fail {ses : Session} : Built has ses fail
  | never {ses : Session} : Built has ses never
  | eq {ses : Session} {a b : TermId} (left : ses.store.Holds has a) (right : ses.store.Holds has b) :
      Built has ses (.eq a b)
  | neq {ses : Session} {a b : TermId} (left : ses.store.Holds has a) (right : ses.store.Holds has b) :
      Built has ses (.neq a b)
  | modulo {ses : Session} {a b : TermId} (left : ses.store.Holds has a)
      (right : ses.store.Holds has b) : Built has ses (.modulo a b)
  | site {ses : Session} (matched replacement : TermId) : Built has ses (.site matched replacement)
  | countFrom {ses : Session} {a : TermId} {x : Float} (left : ses.store.Holds has a)
      (numbers : ∀ x, has (.leaf (.const (.scalar x)))) : Built has ses (.countFrom a x)
  | conj {ses : Session} {goals : List Goal} (each : ∀ g ∈ goals, Built has ses g) :
      Built has ses (.conj goals)
  | disj {ses : Session} {goals : List Goal} (each : ∀ g ∈ goals, Built has ses g) :
      Built has ses (.disj goals)
  | defer {ses : Session} {build : SessionM Goal}
      (grows : ∀ ses', ses.Grows ses' → ses'.Grows (build ses').2)
      (built : ∀ ses', ses.Grows ses' → Built has (build ses').2 (build ses').1) :
      Built has ses (.defer build)
  | anywhere {ses : Session} {relate : Search.Relation} {a b : TermId}
      (grows : ∀ ses' t u, ses.Grows ses' → ses'.store.Holds has t → ses'.store.Holds has u →
        ses'.Grows (relate t u ses').2)
      (built : ∀ ses' t u, ses.Grows ses' → ses'.store.Holds has t → ses'.store.Holds has u →
        Built has (relate t u ses').2 (relate t u ses').1)
      (left : ses.store.Holds has a) (right : ses.store.Holds has b) :
      Built has ses (.anywhere relate a b)

/-- A goal that has been built stays so. -/
theorem Built.grows (h : Built has ses goal) (g : ses.Grows ses') : Built has ses' goal := by
  induction h with
  | succeed => exact .succeed
  | fail => exact .fail
  | never => exact .never
  | eq left right => exact .eq (left.grows g.store) (right.grows g.store)
  | neq left right => exact .neq (left.grows g.store) (right.grows g.store)
  | modulo left right => exact .modulo (left.grows g.store) (right.grows g.store)
  | site matched replacement => exact .site matched replacement
  | countFrom left numbers => exact .countFrom (left.grows g.store) numbers
  | conj _ ih => exact .conj fun goal mem => ih goal mem g
  | disj _ ih => exact .disj fun goal mem => ih goal mem g
  | defer grows built _ =>
    exact .defer (fun ses'' g' => grows ses'' (g.trans g')) fun ses'' g' => built ses'' (g.trans g')
  | anywhere grows built left right _ =>
    exact .anywhere (fun ses'' t u g' => grows ses'' t u (g.trans g'))
      (fun ses'' t u g' => built ses'' t u (g.trans g')) (left.grows g.store)
      (right.grows g.store)

/-- A goal only does acts of goals, from a session on. -/
def Evolves (F : Facts) (has : Tree.Label → Prop) (ses : Session) (goal : Goal) : Prop :=
  ∀ n {ses' s}, ses.Grows ses' → Search.Scene F has ses' s →
    Search.MeetsFor (Search.Evolving has ses'.store s) n ses' (.apply goal s)

/-- The answers of a search go on through goals that only do acts of goals. -/
theorem through_evolves (each : ∀ goal ∈ goals, Evolves F has ses goal) (g : ses.Grows ses')
    (scene : Scene F has ses' s) {inner : Search}
    (start : MeetsFor (Evolving has ses'.store s) n ses' inner) :
    MeetsFor (Evolving has ses'.store s) n ses' (goals.foldl .bind inner) := by
  induction goals generalizing inner with
  | nil => exact start
  | cons goal rest ih =>
    rw [List.forall_mem_cons] at each
    refine ih each.2 (start.bind fun ses₁ s₁ g₁ evolved => ?_)
    have adv := evolved.advance scene.sound
    exact (each.1 n (g.trans g₁) (scene.advance g₁ adv)).imp fun _ _ => evolved.trans

theorem Evolves.conj (each : ∀ goal ∈ goals, Evolves F has ses goal) :
    Evolves F has ses (.conj goals) := by
  intro n ses' s g scene
  match goals with
  | [] => exact succeed_evolves
  | first :: rest =>
    rw [List.forall_mem_cons] at each
    exact conj_meets (fun n => through_evolves each.2 g scene (each.1 n g scene)) n

theorem Evolves.disj (each : ∀ goal ∈ goals, Evolves F has ses goal) :
    Evolves F has ses (.disj goals) :=
  fun _ _ _ g scene => disj_meets fun goal mem n => each goal mem n g scene

/-- What is built only does acts of goals. -/
theorem Built.evolves (groups : Search.Groups F has) (h : Built has ses goal) :
    Evolves F has ses goal := by
  induction h with
  | succeed => exact Evolves.conj (List.forall_mem_nil _)
  | fail => exact Evolves.disj (List.forall_mem_nil _)
  | never => exact fun _ _ _ _ _ => .never
  | eq left right =>
    intro n ses' s g scene
    exact eq_evolves scene.sound (scene.given g left) (scene.given g right)
  | neq left right =>
    intro n ses' s g scene
    exact neq_evolves scene.sound (scene.given g left) (scene.given g right)
  | modulo left right =>
    intro n ses' s g scene
    exact Search.modulo_evolves groups n scene (scene.given g left) (scene.given g right)
  | site matched replacement => exact fun _ _ _ _ _ => site_evolves
  | countFrom left numbers =>
    intro n ses' s g scene
    exact countFrom_evolves numbers scene.sound (scene.given g left)
  | conj _ ih => exact .conj ih
  | disj _ ih => exact .disj ih
  | defer grows _ ih =>
    intro n ses' s g scene
    refine defer_meets (fun ses₁ g₁ => ?_) n
    have g₂ := grows ses₁ (g.trans g₁)
    refine ⟨g₂, fun n => ?_⟩
    exact (ih ses₁ (g.trans g₁) n (.refl _) (scene.grows (g₁.trans g₂))).imp
      fun _ _ => Evolving.back (g₁.trans g₂)
  | anywhere grows _ left right ih =>
    intro n ses' s g scene
    refine Search.anywhere_evolves (fun n ses₁ s₁ t u g₁ scene₁ ht hu => ?_) n g scene
      (scene.given g left) (scene.given g right)
    have ht := Store.Holds.of_given scene₁.sound ht
    have hu := Store.Holds.of_given scene₁.sound hu
    have g₂ := grows ses₁ t u g₁ ht hu
    exact ⟨g₂, (ih ses₁ t u g₁ ht hu n (.refl _) (scene₁.grows g₂)).imp fun _ _ => Evolving.back g₂⟩

end Goal

end Regraft
