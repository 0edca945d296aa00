import Regraft.Proofs.Search.Goal
import Regraft.Proofs.Session.Fresh
import Regraft.Search.Step

/-
  Rewriting at one position. A relation between stored terms is described by a relation between trees,
  which may also mention the trees of some further terms, such as variables that several sites share.
  Every answer of a rewriting somewhere in a term relates the trees of the two terms at one position
  (`anywhere_meets`), and the rest of the tree is made anew as it was.
-/

namespace Regraft

namespace Tree

/-- A tree with a relation applied at one position. The applications above it are built anew. -/
inductive Rewrites (R : Tree → Tree → Prop) : Tree → Tree → Prop
  | here {t u : Tree} (h : R t u) : Rewrites R t u
  | inside {op : String} {args : List Tree} {attrs : Attrs} {i : Nat} {t u w : Tree}
      (operand : args[i]? = some t) (h : Rewrites R t u)
      (rebuilt : ∀ G, Alike G w (.app op (args.set i u) attrs)) : Rewrites R (.app op args attrs) w

theorem Rewrites.subst {R R' : Tree → Tree → Prop} {σ : UInt32 → Tree}
    (closed : ∀ t u, R t u → R' (t.subst σ) (u.subst σ)) {t u : Tree} (h : Rewrites R t u) :
    Rewrites R' (t.subst σ) (u.subst σ) := by
  induction h with
  | here h => exact .here (closed _ _ h)
  | @inside op args attrs i t u w operand _ rebuilt ih =>
    have operand' : (args.map (Tree.subst σ))[i]? = some (t.subst σ) := by
      rw [List.getElem?_map, operand]
      rfl
    rw [subst_app]
    refine .inside operand' ih fun G => ?_
    have alike := (rebuilt G).subst σ
    rwa [subst_app, List.map_set] at alike

theorem Rewrites.imp {R R' : Tree → Tree → Prop} (h : ∀ t u, R t u → R' t u) {t u : Tree}
    (rewrites : Rewrites R t u) : Rewrites R' t u := by
  induction rewrites with
  | here related => exact .here (h _ _ related)
  | inside operand _ rebuilt ih => exact .inside operand ih rebuilt

end Tree

/-- Both terms of every site are stored. -/
def Subst.SitesStored (s : Subst) (st : Store) : Prop :=
  ∀ site ∈ s.sites, st.Stored site.matched ∧ st.Stored site.replacement

namespace Search

variable {F : Facts} {V : Vocabulary F} {Q : Session → Subst → Prop} {n : Nat}
  {ses ses' ses'' : Session} {st : Store} {s s' : Subst} {a b : TermId} {env : List TermId}
  {R : List Tree → Tree → Tree → Prop} {relate : Relation}

/-- A place in a search whose bindings are over the vocabulary, with some further terms. -/
structure Place (V : Vocabulary F) (env : List TermId) (ses : Session) (s : Subst) (a b : TermId) :
    Prop where
  ready : Ready V ses s a b
  images : ∀ v, (s.image ses.store v).Over V.has
  stored : ∀ e ∈ env, ses.store.Stored e
  labels : ∀ e ∈ env, (s.tree ses.store e).Over V.has

theorem Place.advance (h : Place V env ses s a b) (g : ses.Grows ses')
    (adv : Subst.Advance V.has ses.store s ses'.store s') : Place V env ses' s' a b where
  ready := h.ready.advance g adv
  images := adv.images h.images
  stored e he := g.store.stored (h.stored e he)
  labels e he := adv.labels e (h.stored e he) (h.labels e he)

theorem Place.grows (h : Place V env ses s a b) (g : ses.Grows ses') : Place V env ses' s a b :=
  h.advance g (.of_grows h.ready.sound g.store)

/-- A variable stands for a tree over the vocabulary. -/
theorem Place.over_var (h : Place V env ses s a b) {t : TermId} {v : UInt32}
    (ht : ses.store.term? t = some (.var v)) : (s.tree ses.store t).Over V.has := by
  rw [h.ready.sound.tree_var ht]
  exact h.images v

/-- What the answers of a relation satisfy: it holds of the trees of the two terms. -/
structure Related (V : Vocabulary F) (env : List TermId) (R : List Tree → Tree → Tree → Prop)
    (st : Store) (s : Subst) (a b : TermId) (ses' : Session) (s' : Subst) : Prop where
  advance : Subst.Advance V.has st s ses'.store s'
  sites : s.SitesStored st → s'.SitesStored ses'.store
  rel : R (env.map (s'.tree ses'.store)) (s'.tree ses'.store a) (s'.tree ses'.store b)

/-- The relation between trees that a relation between terms stands for, at every place. -/
def RelationSound (V : Vocabulary F) (env : List TermId) (R : List Tree → Tree → Tree → Prop)
    (relate : Relation) : Prop :=
  ∀ n {ses s a b}, Place V env ses s a b → ∀ ses', ses.Grows ses' →
    ses'.Grows (relate a b ses').2 ∧ MeetsFor (Related V env R ses.store s a b) n
      (relate a b ses').2 (.apply (relate a b ses').1 s)

/-- A relation between trees holds under further bindings. -/
def Stable (R : List Tree → Tree → Tree → Prop) : Prop :=
  ∀ σ es t u, R es t u → R (es.map (Tree.subst σ)) (t.subst σ) (u.subst σ)

/-- What is related from a later store on is related from the earlier one. -/
theorem Related.of_grows (hs : s.Sound ses.store) (g : ses.Grows ses')
    (h : Related V env R ses'.store s a b ses'' s') : Related V env R ses.store s a b ses'' s' where
  advance := (Subst.Advance.of_grows hs g.store).trans h.advance
  sites hsites := h.sites fun site hsite =>
    ⟨g.store.stored (hsites site hsite).1, g.store.stored (hsites site hsite).2⟩
  rel := h.rel

/-! ## Goals that leave the bindings as they are -/

theorem Related.of_bindings (h : Related V env R st s a b ses s') (g : ses.Grows ses')
    (stored : ∀ e ∈ a :: b :: env, st.Stored e) {t : Subst} (bindings : s'.bindings = t.bindings)
    (sites : s'.SitesStored ses.store → t.SitesStored ses'.store) :
    Related V env R st s a b ses' t := by
  have adv := h.advance
  have adv' : Subst.Advance V.has ses.store s' ses'.store t :=
    (Subst.Advance.of_grows adv.sound g.store).congr bindings
  have keeps : ∀ e ∈ a :: b :: env, t.tree ses'.store e = s'.tree ses.store e := by
    intro e he
    rw [(adv.sound.grows g.store).tree_congr bindings,
      adv.sound.tree_grows g.store (adv.grows.stored (stored e he))]
  refine ⟨adv.trans adv', fun hs => sites (h.sites hs), ?_⟩
  rw [keeps a (.head _), keeps b (.tail _ (.head _)),
    List.map_congr_left fun e he => keeps e (.tail _ (.tail _ he))]
  exact h.rel

theorem site_meets (hQ : ∀ ses', ses.Grows ses' → Q ses' (s.addSite ⟨a, b⟩)) :
    MeetsFor Q n ses (.apply (.site a b) s) := by
  cases n with
  | zero => trivial
  | succ n =>
    refine .apply fun ses' g => ⟨Session.count_grows _ ses', .unit fun ses'' g' => ?_⟩
    exact hQ ses'' ((g.trans (Session.count_grows _ ses')).trans g')

/-! ## At the root and below it -/

theorem atRoot_meets (hr : RelationSound V env R relate) (h : Place V env ses s a b) :
    ses.Grows (atRoot relate a b s ses).2 ∧
      MeetsFor (Related V env (fun es => Tree.Rewrites (R es)) ses.store s a b) n
        (atRoot relate a b s ses).2 (atRoot relate a b s ses).1 := by
  obtain ⟨g, related⟩ := hr n h ses (.refl ses)
  refine ⟨g, ?_⟩
  show MeetsFor _ n _ (bind (.apply (relate a b ses).1 s) (.site a b))
  refine related.bind fun ses' s' g' rel => site_meets fun ses'' g'' => ?_
  have stored : ∀ e ∈ a :: b :: env, ses.store.Stored e := by
    rintro e (_ | ⟨_, _ | ⟨_, he⟩⟩)
    · exact h.ready.left
    · exact h.ready.right
    · exact h.stored e he
  have all := (g.trans g').trans g''
  have rel' : Related V env (fun es => Tree.Rewrites (R es)) ses.store s a b ses' s' :=
    ⟨rel.advance, rel.sites, .here rel.rel⟩
  refine rel'.of_bindings g'' stored rfl fun hs site hsite => ?_
  rcases List.mem_append.mp hsite with hsite | hsite
  · exact ⟨g''.store.stored (hs site hsite).1, g''.store.stored (hs site hsite).2⟩
  · rw [List.mem_singleton.mp hsite]
    exact ⟨all.store.stored h.ready.left, all.store.stored h.ready.right⟩

/-- An operand is rewritten to `y`, and the term is equal to the application built around it. -/
theorem rebuilt_meets (stable : Stable R)
    (ih : ∀ {ses s a b}, Place V env ses s a b → MeetsFor (Related V env
      (fun es => Tree.Rewrites (R es)) ses.store s a b) n ses (.apply (.anywhere relate a b) s))
    (h : Place V env ses s a b) {op : String} {args : List TermId} {attrs : Attrs}
    (ha : ses.store.term? (s.deref ses.store a) = some (.app op args attrs)) {i : Nat}
    {x y w : TermId} {v : UInt32} (hx : args[i]? = some x) (hy : ses.store.term? y = some (.var v))
    (hw : ses.store.term? w = some (.app op (args.set i y) attrs)) :
    MeetsFor (Related V env (fun es => Tree.Rewrites (R es)) ses.store s a b) n ses
      (bind (.apply (.anywhere relate x y) s) (.eq b w)) := by
  have hs := h.ready.sound
  have mem : x ∈ args := List.mem_of_getElem? hx
  have labels := h.ready.overLeft
  rw [hs.tree_of_app ha, Tree.over_app] at labels
  have storedX := hs.valid.stored ha mem
  have storedY := Store.stored_of_term? hy
  have operand : Place V env ses s x y :=
    ⟨⟨h.ready.facts, hs, storedX, storedY, labels.2 _ (List.mem_map_of_mem mem), h.over_var hy⟩,
      h.images, h.stored, h.labels⟩
  have overW : (s.tree ses.store w).Over V.has := by
    rw [hs.tree_app hw, List.map_set]
    refine Tree.over_app.mpr ⟨by rw [List.length_set]; exact labels.1, fun t ht => ?_⟩
    rcases List.mem_or_eq_of_mem_set ht with ht | rfl
    · exact labels.2 t ht
    · exact h.over_var hy
  have output : Ready V ses s b w :=
    ⟨h.ready.facts, hs, h.ready.right, Store.stored_of_term? hw, h.ready.overRight, overW⟩
  refine (ih operand).bind fun ses' s' g below => ?_
  refine (Goal.eq_meets (output.advance g below.advance)).imp fun ses'' s'' equated => ?_
  have adv := below.advance.trans equated.advance
  have tree : ∀ {e}, ses.store.Stored e → s''.tree ses''.store e =
      (s'.tree ses'.store e).subst (s''.image ses''.store) := fun he =>
    equated.advance.tree_eq below.advance.sound (below.advance.grows.stored he)
  refine ⟨adv, fun hsites => ?_, ?_⟩
  · intro site hsite
    rw [equated.sites] at hsite
    have kept := below.sites hsites site hsite
    exact ⟨equated.advance.grows.stored kept.1, equated.advance.grows.stored kept.2⟩
  · have later : ∀ t u, R (env.map (s'.tree ses'.store)) t u → R (env.map (s''.tree ses''.store))
        (t.subst (s''.image ses''.store)) (u.subst (s''.image ses''.store)) := by
      intro t u hr
      have mapped := stable (s''.image ses''.store) _ _ _ hr
      rw [List.map_map] at mapped
      rwa [List.map_congr_left fun e he => tree (h.stored e he)]
    have rewrites := below.rel.subst later
    rw [← tree storedX, ← tree storedY] at rewrites
    rw [← adv.tree_deref hs h.ready.left, adv.sound.tree_app (adv.grows.keeps _ _ ha)]
    refine .inside (i := i) (by rw [List.getElem?_map, hx]; rfl) rewrites fun G => ?_
    have alike := equated.alike G
    rwa [adv.sound.tree_app (adv.grows.keeps _ _ hw), List.map_set] at alike

theorem inOperand_apply (relate : Relation) (op : String) (args : List TermId) (attrs : Attrs) (b : TermId)
    (i : Nat) (x : TermId) (s : Subst) (ses : Session) : inOperand relate op args attrs b i x s ses =
      let result := Session.fresh ses
      let rebuilt := Session.onStore (Store.app op (args.set i result.1) attrs) result.2
      (bind (.apply (.anywhere relate x result.1) s) (.eq b rebuilt.1), rebuilt.2) := rfl

/-- Rewriting in an operand looks for a result `y`, a new variable, and makes the application `w` anew
    around it. -/
theorem inOperand_spec (relate : Relation) {op : String} {args : List TermId} (attrs : Attrs) (b : TermId)
    (i : Nat) (x : TermId) (s : Subst) (stored : ∀ u ∈ args, ses.store.Stored u) :
    ∃ y w ses', inOperand relate op args attrs b i x s ses =
        (bind (.apply (.anywhere relate x y) s) (.eq b w), ses') ∧
      ses.Later ses' ∧ ses'.store.term? y = some (.var ses.store.nextVar) ∧
      ses'.store.term? w = some (.app op (args.set i y) attrs) := by
  have l := Session.fresh_later ses
  have hy : (Session.fresh ses).2.store.term? (Session.fresh ses).1 = some (.var ses.store.nextVar) :=
    Store.term?_fresh _
  rw [inOperand_apply]
  dsimp only
  generalize (Session.fresh ses).1 = y at hy ⊢
  generalize (Session.fresh ses).2 = ses₁ at l hy ⊢
  have keeps : ses₁.Keeps (Session.onStore (Store.app op (args.set i y) attrs) ses₁).2 := by
    refine Session.app_keeps fun u hu => ?_
    rcases List.mem_or_eq_of_mem_set hu with hu | rfl
    · exact l.grows.store.stored (stored u hu)
    · exact Store.stored_of_term? hy
  exact ⟨y, _, _, rfl, l.trans keeps.later, keeps.grows.store.keeps _ _ hy, Store.term?_app ..⟩

/-- One operand is rewritten, and the application is built anew around its result. -/
theorem inOperand_meets (stable : Stable R)
    (ih : ∀ {ses s a b}, Place V env ses s a b → MeetsFor (Related V env
      (fun es => Tree.Rewrites (R es)) ses.store s a b) n ses (.apply (.anywhere relate a b) s))
    (h : Place V env ses s a b) {op : String} {args : List TermId} {attrs : Attrs}
    (ha : ses.store.term? (s.deref ses.store a) = some (.app op args attrs)) {i : Nat} {x : TermId}
    (hx : args[i]? = some x) :
    ses.Grows (inOperand relate op args attrs b i x s ses).2 ∧
      MeetsFor (Related V env (fun es => Tree.Rewrites (R es)) ses.store s a b) n
        (inOperand relate op args attrs b i x s ses).2
        (inOperand relate op args attrs b i x s ses).1 := by
  have hs := h.ready.sound
  obtain ⟨y, w, ses', eq, l, hy, hw⟩ := inOperand_spec relate attrs b i x s fun u => hs.valid.stored ha
  rw [eq]
  have g := l.grows
  have ha' := g.store.keeps _ _ ha
  rw [← hs.deref_grows g.store h.ready.left] at ha'
  exact ⟨g, (rebuilt_meets stable ih (h.grows g) ha' hx hy hw).imp
    fun ses'' s' related => related.of_grows hs g⟩

/-- Rewriting at one position relates the trees at one position. -/
theorem anywhere_meets (stable : Stable R) (hr : RelationSound V env R relate) (n : Nat) :
    ∀ {ses s a b}, Place V env ses s a b → MeetsFor (Related V env
      (fun es => Tree.Rewrites (R es)) ses.store s a b) n ses (.apply (.anywhere relate a b) s) := by
  induction n with
  | zero => exact fun _ => trivial
  | succ n ih =>
    intro ses s a b h
    refine .apply fun ses' g => ?_
    have hs := h.ready.sound
    suffices ses'.Grows (anywhere relate a b s ses').2 ∧ MeetsFor (Related V env
        (fun es => Tree.Rewrites (R es)) ses'.store s a b) n (anywhere relate a b s ses').2
        (anywhere relate a b s ses').1 from
      ⟨this.1, this.2.imp fun ses'' s' related => related.of_grows hs g⟩
    replace h := h.grows g
    unfold anywhere
    split
    · exact ⟨.refl ses', .empty⟩
    · refine ⟨.refl ses', .plus (MeetsFor.suspend fun ses₁ g₁ => ?_).pred
        (MeetsFor.suspend fun ses₁ g₁ => ?_).pred⟩
      · obtain ⟨g₂, meets⟩ := atRoot_meets hr (h.grows g₁)
        exact ⟨g₂, meets.imp fun ses'' s' related => related.of_grows h.ready.sound g₁⟩
      · have h₁ := h.grows g₁
        unfold belowRoot
        split
        · exact ⟨.refl ses₁, .empty⟩
        · rename_i op args attrs ha
          refine ⟨.refl ses₁, .union fun branch mem => ?_⟩
          obtain ⟨⟨x, i⟩, hx, rfl⟩ := List.mem_map.mp mem
          refine (MeetsFor.suspend fun ses₂ g₂ => ?_).pred
          have ha' := g₂.store.keeps _ _ (Store.app?_eq_some_iff.mp ha)
          rw [← h₁.ready.sound.deref_grows g₂.store h₁.ready.left] at ha'
          obtain ⟨g₃, meets⟩ := inOperand_meets stable ih (h₁.grows g₂) ha'
            (List.mem_zipIdx_iff_getElem?.mp hx)
          exact ⟨g₃, meets.imp fun ses'' s' related =>
            related.of_grows h.ready.sound (g₁.trans g₂)⟩

end Search

end Regraft
