import Regraft.Proofs.Search.Finds
import Regraft.Proofs.Session.Fresh
import Mathlib.Data.Set.Lattice
import Mathlib.Logic.Hydra
import Mathlib.Tactic.Abel

/-
  Searches that end, and the answers that they have given by then. `Search.Gives still I ses search A`
  says that a search gives an answer for each outcome in `A` and no others, some perhaps several times,
  and that it comes to its end, whatever happens to the session between its steps as long as that
  only becomes later. `I` says what an answer has to do with its outcome; if `still`, the search makes
  no new variables. There is a rule for every way to build a search. Forks take their branches in turn,
  and end since the branches that wait are replaced by one step of a branch (`fork_induction`).
-/

namespace Regraft

variable {O O' : Type}

/-- How a step changes the session. -/
structure Session.Goes (still : Prop) (a b : Session) : Prop where
  later : a.Later b
  keeps : still → a.Keeps b

theorem Session.Goes.refl {still : Prop} (a : Session) : Goes still a a :=
  ⟨.refl a, fun _ => .refl a⟩

theorem Session.Goes.trans {still : Prop} {a b c : Session} (h : Goes still a b)
    (h' : Goes still b c) : Goes still a c :=
  ⟨h.later.trans h'.later, fun quiet => (h.keeps quiet).trans (h'.keeps quiet)⟩

theorem Session.Keeps.goes {still : Prop} {a b : Session} (h : a.Keeps b) : Goes still a b :=
  ⟨h.later, fun _ => h⟩

open Session (Goes)

/-- What a step comes to: the answer to an outcome, and a search for the others. -/
def Step.Gives (I : Session → Subst → O → Prop) (K : Session → Search → Set O → Prop) (A : Set O) :
    Step × Session → Prop
  | (.emit s rest, ses) => ∃ o B, A = insert o B ∧ I ses s o ∧ K ses rest B
  | (.continue rest, ses) => K ses rest A
  | (.exhausted, _) => A = ∅

namespace Search

/-- A search answers just the outcomes of a set, and then ends. -/
inductive Gives (still : Prop) (I : Session → Subst → O → Prop) : Session → Search → Set O → Prop
  | intro {ses : Session} {search : Search} {A : Set O} (B : Session → Set O)
      (goes : ∀ ses', ses.Later ses' → ses'.store.TidyUnless still → Goes still ses' (search.step ses').2)
      (emit : ∀ ses' ses'' s rest, ses.Later ses' → ses'.store.TidyUnless still → ses''.store.RoomyUnless still →
        search.step ses' = (.emit s rest, ses'') → ∃ o, A = insert o (B ses') ∧ I ses'' s o)
      (behind : ∀ ses' ses'' s rest, ses.Later ses' → ses'.store.TidyUnless still → ses''.store.RoomyUnless still →
        search.step ses' = (.emit s rest, ses'') → Gives still I ses'' rest (B ses'))
      (goOn : ∀ ses' ses'' rest, ses.Later ses' → ses'.store.TidyUnless still → ses''.store.RoomyUnless still →
        search.step ses' = (.continue rest, ses'') → Gives still I ses'' rest A)
      (done : ∀ ses' ses'', ses.Later ses' → ses'.store.TidyUnless still → ses''.store.RoomyUnless still →
        search.step ses' = (.exhausted, ses'') → A = ∅) : Gives still I ses search A

/-- An action sets up a search that answers just the outcomes of a set. -/
def Provides (still : Prop) (I : Session → Subst → O → Prop) (ses : Session)
    (act : SessionM Search) (A : Set O) : Prop :=
  ∀ ses', ses.Later ses' → ses'.store.TidyUnless still → Goes still ses' (act ses').2 ∧
    ((act ses').2.store.RoomyUnless still → Gives still I (act ses').2 (act ses').1 A)

variable {still still' : Prop} {I : Session → Subst → O → Prop} {I' : Session → Subst → O' → Prop}
  {ses ses' : Session} {search : Search} {s : Subst} {A B : Set O}

namespace Gives

theorem of_step (h : ∀ ses', ses.Later ses' → ses'.store.TidyUnless still →
    Goes still ses' (search.step ses').2 ∧ ((search.step ses').2.store.RoomyUnless still →
      Step.Gives I (Gives still I) A (search.step ses'))) : Gives still I ses search A := by
  -- What is left for after the answer depends on the session that the step starts from.
  let left : Session → Set O := fun ses' => Classical.epsilon fun B => ∀ ses'' s rest,
    ses''.store.RoomyUnless still → search.step ses' = (.emit s rest, ses'') →
      (∃ o, A = insert o B ∧ I ses'' s o) ∧ Gives still I ses'' rest B
  have spec : ∀ ses', ses.Later ses' → ses'.store.TidyUnless still → ∀ ses'' s rest, ses''.store.RoomyUnless still →
      search.step ses' = (.emit s rest, ses'') →
        (∃ o, A = insert o (left ses') ∧ I ses'' s o) ∧ Gives still I ses'' rest (left ses') := by
    intro ses' l tidy ses'' s rest room hs
    have gives := (h ses' l tidy).2
    rw [hs] at gives
    obtain ⟨o, B, eq, answer, behind⟩ := gives room
    refine Classical.epsilon_spec (p := fun B => ∀ ses'' s rest, ses''.store.RoomyUnless still →
      search.step ses' = (.emit s rest, ses'') →
        (∃ o, A = insert o B ∧ I ses'' s o) ∧ Gives still I ses'' rest B) ⟨B, ?_⟩ ses'' s rest room hs
    intro ses₁ s₁ rest₁ room₁ hs₁
    cases hs.symm.trans hs₁
    exact ⟨⟨o, eq, answer⟩, behind⟩
  refine .intro left (fun ses' l tidy => (h ses' l tidy).1) ?_ ?_ ?_ ?_
  · exact fun ses' ses'' s rest l tidy room hs => (spec ses' l tidy ses'' s rest room hs).1
  · exact fun ses' ses'' s rest l tidy room hs => (spec ses' l tidy ses'' s rest room hs).2
  · intro ses' ses'' rest l tidy room hs
    have gives := (h ses' l tidy).2
    rw [hs] at gives
    exact gives room
  · intro ses' ses'' l tidy room hs
    have gives := (h ses' l tidy).2
    rw [hs] at gives
    exact gives room

theorem step (h : Gives still I ses search A) (l : ses.Later ses') (tidy : ses'.store.TidyUnless still) :
    Goes still ses' (search.step ses').2 ∧ ((search.step ses').2.store.RoomyUnless still →
      Step.Gives I (Gives still I) A (search.step ses')) := by
  obtain ⟨B, goes, emit, behind, goOn, done⟩ := h
  refine ⟨goes ses' l tidy, fun room => ?_⟩
  match hs : search.step ses' with
  | (.emit s rest, ses'') =>
    rw [hs] at room
    obtain ⟨o, eq, answer⟩ := emit ses' ses'' s rest l tidy room hs
    exact ⟨o, B ses', eq, answer, behind ses' ses'' s rest l tidy room hs⟩
  | (.continue rest, ses'') =>
    rw [hs] at room
    exact goOn ses' ses'' rest l tidy room hs
  | (.exhausted, ses'') =>
    rw [hs] at room
    exact done ses' ses'' l tidy room hs

theorem later (h : Gives still I ses search A) (l : ses.Later ses') :
    Gives still I ses' search A := by
  obtain ⟨B, goes, emit, behind, goOn, done⟩ := h
  exact .intro B (fun ses₁ l₁ => goes ses₁ (l.trans l₁))
    (fun ses₁ ses₂ s rest l₁ => emit ses₁ ses₂ s rest (l.trans l₁))
    (fun ses₁ ses₂ s rest l₁ => behind ses₁ ses₂ s rest (l.trans l₁))
    (fun ses₁ ses₂ rest l₁ => goOn ses₁ ses₂ rest (l.trans l₁))
    (fun ses₁ ses₂ l₁ => done ses₁ ses₂ (l.trans l₁))

theorem congr (h : Gives still I ses search A) (eq : A = B) : Gives still I ses search B := eq ▸ h

/-- Outcomes may be read in another way. -/
theorem map (f : O → O') (hI : ∀ ses s, ∀ o ∈ A, I ses s o → I' ses s (f o)) (weak : still' → still)
    (h : Gives still I ses search A) : Gives still' I' ses search (f '' A) := by
  induction h with
  | @intro ses search A B goes emit behind goOn done ihBehind ihGoOn =>
    refine .intro (fun ses' => f '' B ses') ?_ ?_ ?_ ?_ ?_
    · exact fun ses' l tidy => ⟨(goes ses' l (tidy.imp weak)).later,
        fun q => (goes ses' l (tidy.imp weak)).keeps (weak q)⟩
    · intro ses' ses'' s rest l tidy room hs
      obtain ⟨o, eq, answer⟩ := emit ses' ses'' s rest l (tidy.imp weak) (room.imp weak) hs
      exact ⟨f o, by rw [eq, Set.image_insert_eq],
        hI ses'' s o (eq ▸ Set.mem_insert o _) answer⟩
    · intro ses' ses'' s rest l tidy room hs
      obtain ⟨o, eq, -⟩ := emit ses' ses'' s rest l (tidy.imp weak) (room.imp weak) hs
      exact ihBehind ses' ses'' s rest l (tidy.imp weak) (room.imp weak) hs fun ses s o mem =>
        hI ses s o (eq ▸ Set.mem_insert_of_mem _ mem)
    · exact fun ses' ses'' rest l tidy room hs =>
        ihGoOn ses' ses'' rest l (tidy.imp weak) (room.imp weak) hs hI
    · exact fun ses' ses'' l tidy room hs => by
        rw [done ses' ses'' l (tidy.imp weak) (room.imp weak) hs, Set.image_empty]

/-- An answer may be seen to do more for its outcome. -/
theorem imp {I' : Session → Subst → O → Prop} (hI : ∀ ses s, ∀ o ∈ A, I ses s o → I' ses s o)
    (h : Gives still I ses search A) : Gives still I' ses search A :=
  (h.map id hI id).congr (Set.image_id A)

theorem empty : Gives still I ses .empty (∅ : Set O) :=
  of_step fun ses' _ _ => ⟨.refl ses', fun _ => rfl⟩

theorem unit {o : O} (hs : ∀ ses', ses.Later ses' → I ses' s o) :
    Gives still I ses (unit s) {o} :=
  of_step fun ses' l _ => ⟨.refl ses', fun _ =>
    ⟨o, ∅, (insert_empty_eq o).symm, hs ses' l, .empty⟩⟩

theorem suspend {act : SessionM Search} (h : Provides still I ses act A) :
    Gives still I ses (.suspend act) A := of_step h

theorem apply {goal : Goal} (h : Provides still I ses (goal.apply s) A) :
    Gives still I ses (.apply goal s) A := of_step h

/-- A search that is empty has no outcomes. -/
theorem eq_empty (h : Gives still I ses search A) (tidy : ses.store.TidyUnless still) (room : ses.store.RoomyUnless still)
    (none : search.isEmpty = true) : A = ∅ := by
  cases search with
  | empty => exact (h.step (.refl ses) tidy).2 room
  | _ => cases none

/-- The outcomes only need to be the same in sessions that are tidy and have room. -/
theorem congr_of (h : Gives still I ses search A)
    (eq : ∀ ses', ses.Later ses' → ses'.store.TidyUnless still → ses'.store.RoomyUnless still → A = B) :
    Gives still I ses search B := by
  refine of_step fun ses' l tidy => ?_
  obtain ⟨goes, gives⟩ := h.step l tidy
  refine ⟨goes, fun room => ?_⟩
  rw [← eq ses' l tidy (.of_grows goes.later.grows.store room)]
  exact gives room

/-! ## Forks -/

end Gives

/-- A search follows another one: a step leads from the one to the other, in a later session. -/
def Follows (still : Prop) (y x : Session × Search) : Prop :=
  ∃ ses', x.1.Later ses' ∧ ses'.store.TidyUnless still ∧ y.1.store.RoomyUnless still ∧
    ((∃ s, x.2.step ses' = (.emit s y.2, y.1)) ∨ x.2.step ses' = (.continue y.2, y.1))

section

variable {α : Type*} {r : α → α → Prop} {x y : α}

/-- A relation, only from where it does not lead on for ever. -/
def Ending (r : α → α → Prop) (y x : α) : Prop := r y x ∧ Acc r x

instance : Std.Irrefl (Ending r) where
  irrefl x h := by
    obtain ⟨follows, ends⟩ := h
    induction ends with
    | intro x _ ih => exact ih x follows follows

theorem acc_ending (h : Acc r x) : Acc (Ending r) x := Subrelation.accessible (fun h => h.1) h

/-- Of those that wait, the first has been replaced by one that it leads to. -/
theorem cutExpand_snoc {rest : List α} (h : r y x) : Relation.CutExpand r
    (rest ++ [y] : List α) ((x :: rest : List α) : Multiset α) := by
  refine ⟨{y}, x, fun z hz => Multiset.mem_singleton.mp hz ▸ h, ?_⟩
  simp only [← Multiset.coe_add, ← Multiset.cons_coe, ← Multiset.singleton_add, Multiset.coe_nil]
  abel

/-- Of those that wait, the first has come to its end. -/
theorem cutExpand_tail (x : α) (rest : List α) : Relation.CutExpand r
    (rest : Multiset α) ((x :: rest : List α) : Multiset α) := by
  refine ⟨0, x, nofun, ?_⟩
  rw [← Multiset.cons_coe, ← Multiset.singleton_add, add_zero, add_comm]

end

section

variable {β : Type*} {L : Session → Session → Prop} [Session.Course L]
  {G : Session → Search → β → Prop} {R : Session × Search → Session × Search → Prop}
  {P : Session → List (Search × β) → Prop}
  (later : ∀ {a b x m}, G a x m → L a b → G b x m)
  (ends : ∀ {a x m}, G a x m → Acc R (a, x))
  (back : ∀ {a b x y}, L a b → R y (b, x) → R y (a, x))
  (nil : ∀ ses, P ses [])
  (cons : ∀ ses b rest, G ses b.1 b.2 → (∀ c ∈ rest, G ses c.1 c.2) →
    (∀ ses', L ses ses' → P ses' rest) →
    (∀ ses' next m, L ses ses' → R (ses', next) (ses, b.1) → G ses' next m →
      P ses' (rest ++ [(next, m)])) → P ses (b :: rest))

open Session (Course)

include later ends back nil cons

/-- The induction behind `fork_induction`, on the searches of the branches since they were last looked at. -/
theorem fork_induction_of_acc {waiting : Multiset (Session × Search)}
    (acc : Acc (Relation.CutExpand (Ending R)) waiting) :
    ∀ {branches : List ((Session × Search) × β)} {ses : Session},
      (branches.map Prod.fst : Multiset (Session × Search)) = waiting →
      (∀ b ∈ branches, L b.1.1 ses ∧ G b.1.1 b.1.2 b.2) →
      P ses (branches.map fun b => (b.1.2, b.2)) := by
  induction acc with
  | intro waiting _ ih =>
    intro branches ses eq h
    cases branches with
    | nil => exact nil ses
    | cons b rest =>
      rw [List.forall_mem_cons] at h
      obtain ⟨⟨earlier, first⟩, others⟩ := h
      have others' {ses'} (l : L ses ses') : ∀ c ∈ rest, L c.1.1 ses' ∧ G c.1.1 c.1.2 c.2 :=
        fun c hc => ⟨Course.trans (others c hc).1 l, (others c hc).2⟩
      refine cons ses (b.1.2, b.2) _ (later first earlier)
        (List.forall_mem_map.mpr fun c hc => later (others c hc).2 (others c hc).1)
        (fun ses' l => ih _ (eq ▸ cutExpand_tail b.1 _) rfl (others' l)) fun ses' next m l leads good => ?_
      have all : ∀ c ∈ rest ++ [((ses', next), m)], L c.1.1 ses' ∧ G c.1.1 c.1.2 c.2 :=
        List.forall_mem_append.mpr
          ⟨others' l, List.forall_mem_singleton.mpr ⟨Course.refl ses', good⟩⟩
      have replaced : Relation.CutExpand (Ending R)
          ((rest ++ [((ses', next), m)]).map Prod.fst : Multiset (Session × Search)) waiting := by
        rw [← eq, List.map_append]
        exact cutExpand_snoc ⟨back earlier leads, ends first⟩
      have shown := ih _ replaced rfl all
      rw [List.map_append] at shown
      exact shown

/-- Induction on the branches of a fork that are taken in turn. It may be used that what is to be shown
    holds of the branches behind the first one, and of these with a search behind them that the first one
    has led to. -/
theorem fork_induction {branches : List (Search × β)} (h : ∀ b ∈ branches, G ses b.1 b.2) :
    P ses branches := by
  let marked : List ((Session × Search) × β) := branches.map fun b => ((ses, b.1), b.2)
  have all : ∀ b ∈ marked, L b.1.1 ses ∧ G b.1.1 b.1.2 b.2 :=
    List.forall_mem_map.mpr fun b hb => ⟨Course.refl ses, h b hb⟩
  have acc : Acc (Relation.CutExpand (Ending R)) (marked.map Prod.fst : Multiset _) := by
    refine Relation.acc_of_singleton fun x hx => (acc_ending ?_).cutExpand
    obtain ⟨b, hb, rfl⟩ := List.mem_map.mp (Multiset.mem_coe.mp hx)
    exact ends (all b hb).2
  have shown := fork_induction_of_acc (G := G) (R := R) later ends back nil cons acc rfl all
  rwa [List.map_map, show (fun b => (b.1.2, b.2)) ∘ (fun b : Search × β => ((ses, b.1), b.2)) = id from rfl,
    List.map_id] at shown

end

namespace Gives

theorem ends (h : Gives still I ses search A) : Acc (Follows still) (ses, search) := by
  induction h with
  | intro B goes emit behind goOn done ihBehind ihGoOn =>
    refine .intro _ fun y ⟨ses', l, tidy, room, step⟩ => ?_
    rcases step with ⟨s, hs⟩ | hs
    · exact ihBehind ses' y.1 s y.2 l tidy room hs
    · exact ihGoOn ses' y.1 y.2 l tidy room hs

/-- The outcomes of some branches together. -/
abbrev outcomes (branches : List (Search × Set O)) : Set O := ⋃ b ∈ branches, b.2

theorem outcomes_cons (b : Search × Set O) (rest : List (Search × Set O)) :
    outcomes (b :: rest) = b.2 ∪ outcomes rest := by
  ext o
  simp [outcomes]

theorem outcomes_concat (rest : List (Search × Set O)) (next : Search) (B : Set O) :
    outcomes (rest ++ [(next, B)]) = B ∪ outcomes rest := by
  ext o
  simp [outcomes, or_and_right, exists_or, or_comm]

theorem ofBranches {branches : List (Search × Set O)}
    (hf : Gives still I ses (.fork (branches.map Prod.fst)) (outcomes branches))
    (h : ∀ b ∈ branches, Gives still I ses b.1 b.2) :
    Gives still I ses (ofBranches (branches.map Prod.fst)) (outcomes branches) := by
  match branches with
  | [] => exact empty.congr (by simp [outcomes])
  | [b] => exact (h b (List.mem_singleton_self b)).congr (by simp [outcomes])
  | _ :: _ :: _ => exact hf

/-- Branches that are taken in turn have their outcomes together. -/
theorem fork {branches : List (Search × Set O)} (h : ∀ b ∈ branches, Gives still I ses b.1 b.2) :
    Gives still I ses (.fork (branches.map Prod.fst)) (⋃ b ∈ branches, b.2) := by
  refine fork_induction (G := Gives still I) (L := Session.Later) (R := Follows still)
    (P := fun ses bs => Gives still I ses (.fork (bs.map Prod.fst)) (outcomes bs)) later ends
    (fun l ⟨ses', l', tidy, room, step⟩ => ⟨ses', l.trans l', tidy, room, step⟩) ?nil ?cons h
  case nil =>
    exact fun ses => of_step fun ses' _ _ =>
      ⟨.refl ses', fun _ => show outcomes [] = ∅ by simp [outcomes]⟩
  case cons =>
    intro ses b rest first others alone behind
    have alone {ses'} (l : ses.Later ses') : Gives still I ses'
        (Search.ofBranches (rest.map Prod.fst)) (outcomes rest) :=
      ofBranches (alone ses' l) fun c hc => (others c hc).later l
    refine of_step fun ses' l tidy => ?_
    obtain ⟨goes, gives⟩ := first.step l tidy
    rw [List.map_cons, step_fork_cons, outcomes_cons]
    match hs : b.1.step ses' with
    | (.exhausted, ses'') =>
      rw [hs] at goes gives
      refine ⟨goes, fun room => ?_⟩
      rw [show b.2 = ∅ from gives room, Set.empty_union]
      exact alone (l.trans goes.later)
    | (.continue next, ses'') =>
      rw [hs] at goes gives
      refine ⟨goes, fun room => ?_⟩
      have last := behind ses'' next _ (l.trans goes.later) ⟨ses', l, tidy, room, .inr hs⟩ (gives room)
      rw [outcomes_concat, List.map_append] at last
      exact last
    | (.emit s next, ses'') =>
      rw [hs] at goes gives
      refine ⟨goes, fun room => ?_⟩
      obtain ⟨o, C, eq, answer, later⟩ := gives room
      refine ⟨o, C ∪ outcomes rest, by rw [eq, Set.insert_union], answer, ?_⟩
      have l' := l.trans goes.later
      unfold requeue
      split
      · rename_i none
        rw [later.eq_empty (goes.later.tidyUnless tidy room) room none, Set.empty_union]
        exact alone l'
      · have each : ∀ c ∈ rest ++ [(next, C)], Gives still I ses'' c.1 c.2 :=
          List.forall_mem_append.mpr
            ⟨fun c hc => (others c hc).later l', List.forall_mem_singleton.mpr later⟩
        have last := ofBranches (behind ses'' next C l' ⟨ses', l, tidy, room, .inl ⟨s, hs⟩⟩ later) each
        rw [outcomes_concat, List.map_append] at last
        exact last

theorem plus {a b : Search} (ha : Gives still I ses a A) (hb : Gives still I ses b B) :
    Gives still I ses (plus a b) (A ∪ B) := by
  have both : Gives still I ses (.fork [a, b]) (A ∪ B) := by
    have each : ∀ c ∈ [(a, A), (b, B)], Gives still I ses c.1 c.2 := by
      simp only [List.mem_cons, List.not_mem_nil, or_false, forall_eq_or_imp, forall_eq]
      exact ⟨ha, hb⟩
    exact (fork each).congr (by simp)
  unfold Search.plus
  split
  · refine hb.congr_of fun ses' l tidy room => ?_
    rw [(ha.later l).eq_empty tidy room rfl, Set.empty_union]
  · refine ha.congr_of fun ses' l tidy room => ?_
    rw [(hb.later l).eq_empty tidy room rfl, Set.union_empty]
  · exact both

/-- All branches, those that are empty left out. -/
theorem union {branches : List (Search × Set O)} (h : ∀ b ∈ branches, Gives still I ses b.1 b.2) :
    Gives still I ses (union (branches.map Prod.fst)) (⋃ b ∈ branches, b.2) := by
  let kept := branches.filter fun b => !b.1.isEmpty
  have mem : ∀ b ∈ kept, b ∈ branches := fun b hb => (List.mem_filter.mp hb).1
  have eq : (branches.map Prod.fst).filter (!·.isEmpty) = kept.map Prod.fst := by
    rw [List.filter_map]
    rfl
  have all : Gives still I ses (Search.ofBranches (kept.map Prod.fst)) (⋃ b ∈ kept, b.2) := by
    have forked := fork fun b hb => h b (mem b hb)
    generalize kept = kept at mem forked
    match kept with
    | [] => exact empty.congr (by simp)
    | [b] => exact (h b (mem b (List.mem_singleton_self b))).congr (by simp)
    | _ :: _ :: _ => exact forked
  unfold Search.union
  rw [eq]
  refine all.congr_of fun ses' l tidy room => ?_
  ext o
  simp only [Set.mem_iUnion, exists_prop]
  refine ⟨fun ⟨b, hb, ho⟩ => ⟨b, mem b hb, ho⟩, fun ⟨b, hb, ho⟩ => ⟨b, ?_, ho⟩⟩
  refine List.mem_filter.mpr ⟨hb, Bool.not_eq_true' _ ▸ ?_⟩
  by_contra none
  have := ((h b hb).later l).eq_empty tidy room (by simpa using none)
  rw [this] at ho
  exact ho

/-! ## Answers that go on into a goal -/

/-- For every outcome of the inner search, those that the goal has from its answer. -/
theorem bind {inner : Search} {goal : Goal} {C : O → Set O'} (h : Gives still I ses inner A)
    (hg : ∀ o ∈ A, ∀ ses' s, ses.Later ses' → I ses' s o →
      Gives still I' ses' (.apply goal s) (C o)) :
    Gives still I' ses (.bind inner goal) (⋃ o ∈ A, C o) := by
  induction h with
  | @intro ses inner A B goes emit behind goOn done ihBehind ihGoOn =>
    refine of_step fun ses' l tidy => ?_
    have goes := goes ses' l tidy
    rw [step_bind]
    match hs : inner.step ses' with
    | (.exhausted, ses'') =>
      rw [hs] at goes
      refine ⟨goes, fun room => ?_⟩
      show _ = ∅
      rw [done ses' ses'' l tidy room hs, Set.biUnion_empty]
    | (.continue rest, ses'') =>
      rw [hs] at goes
      refine ⟨goes, fun room => ihGoOn ses' ses'' rest l tidy room hs ?_⟩
      exact fun o mem ses₁ s l₁ => hg o mem ses₁ s ((l.trans goes.later).trans l₁)
    | (.emit s rest, ses'') =>
      rw [hs] at goes
      refine ⟨goes, fun room => ?_⟩
      obtain ⟨o, eq, answer⟩ := emit ses' ses'' s rest l tidy room hs
      have fed := hg o (eq ▸ Set.mem_insert o _) ses'' s (l.trans goes.later) answer
      have later := ihBehind ses' ses'' s rest l tidy room hs fun o mem ses₁ s l₁ =>
        hg o (eq ▸ Set.mem_insert_of_mem _ mem) ses₁ s ((l.trans goes.later).trans l₁)
      show Gives still I' ses'' (feed s rest goal) _
      rw [eq, Set.biUnion_insert]
      unfold feed
      split
      · rename_i none
        refine fed.congr_of fun ses₁ l₁ tidy₁ room₁ => ?_
        have behind := (behind ses' ses'' s rest l tidy room hs).later l₁
        rw [behind.eq_empty tidy₁ room₁ none, Set.biUnion_empty, Set.union_empty]
      · exact fed.plus later

end Gives

/-! ## Pulling answers -/

section

variable {search : Search}

/-- A search that makes no variables steps in any session. -/
theorem Gives.step_still (h : Gives True I ses search A) (l : ses.Later ses') :
    ses'.Keeps (search.step ses').2 ∧ Step.Gives I (Gives True I) A (search.step ses') := by
  obtain ⟨goes, gives⟩ := h.step l (Store.tidyUnless_true _)
  exact ⟨goes.keeps trivial, gives (Store.roomyUnless_true _)⟩

theorem Gives.pull {turns : Nat} {rest : Search} (h : Gives True I ses search A)
    (pulled : pull Search.turn turns search ses = (.result s rest, ses')) :
    ses.Keeps ses' ∧ ∃ o B, A = insert o B ∧ I ses' s o ∧ Gives True I ses' rest B := by
  induction turns generalizing ses search with
  | zero => cases pulled
  | succ turns ih =>
    have count := Session.count_keeps Counters.countStep ses
    obtain ⟨keeps, gives⟩ := h.step_still count.later
    rw [pull_succ, turn_eq] at pulled
    match hs : search.step (Session.count Counters.countStep ses).2 with
    | (.emit t next, ses₁) =>
      rw [hs] at pulled keeps gives
      cases pulled
      exact ⟨count.trans keeps, gives⟩
    | (.continue next, ses₁) =>
      rw [hs] at pulled keeps gives
      obtain ⟨keeps', answer⟩ := ih gives pulled
      exact ⟨(count.trans keeps).trans keeps', answer⟩
    | (.exhausted, ses₁) =>
      rw [hs] at pulled
      cases pulled

/-- Every answer is one for an outcome. -/
theorem Gives.answer (h : Gives True I ses search A) (answer : Answer ses search s ses') :
    ses.Keeps ses' ∧ ∃ o ∈ A, I ses' s o := by
  induction answer generalizing A with
  | here pulled =>
    obtain ⟨keeps, o, B, eq, answer, -⟩ := h.pull pulled
    exact ⟨keeps, o, eq ▸ Set.mem_insert o B, answer⟩
  | later pulled _ ih =>
    obtain ⟨keeps, o, B, eq, -, behind⟩ := h.pull pulled
    obtain ⟨keeps', o', mem, answer⟩ := ih behind
    exact ⟨keeps.trans keeps', o', eq ▸ Set.mem_insert_of_mem o mem, answer⟩

/-- Every outcome has an answer. -/
theorem Gives.exists_answer (h : Gives True I ses search A) {o : O} (ho : o ∈ A) :
    ∃ s ses', Answer ses search s ses' ∧ I ses' s o := by
  have tidy := Store.tidyUnless_true
  have room := Store.roomyUnless_true
  induction h with
  | @intro ses search A B goes emit behind goOn done ihBehind ihGoOn =>
    have count := Session.count_keeps Counters.countStep ses
    have turn := turn_eq search ses
    match hs : search.step (Session.count Counters.countStep ses).2 with
    | (.emit s rest, ses₁) =>
      rw [hs] at turn
      have pulled : Regraft.pull Search.turn 1 search ses = (.result s rest, ses₁) := by
        rw [pull_succ, turn]
      obtain ⟨o', rfl, answer⟩ := emit _ ses₁ s rest count.later (tidy _) (room _) hs
      rcases Set.mem_insert_iff.mp ho with rfl | ho
      · exact ⟨s, ses₁, .here pulled, answer⟩
      · obtain ⟨s', ses', answer, hI⟩ := ihBehind _ ses₁ s rest count.later (tidy _) (room _) hs ho
        exact ⟨s', ses', .later pulled answer, hI⟩
    | (.continue rest, ses₁) =>
      rw [hs] at turn
      obtain ⟨s', ses', answer, hI⟩ := ihGoOn _ ses₁ rest count.later (tidy _) (room _) hs ho
      exact ⟨s', ses', answer.working turn, hI⟩
    | (.exhausted, ses₁) =>
      rw [done _ ses₁ count.later (tidy _) (room _) hs] at ho
      cases ho

end

end Search

end Regraft
