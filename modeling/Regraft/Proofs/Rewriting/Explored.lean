import Regraft.Proofs.Rewriting.Fixpoint
import Regraft.Proofs.Rewriting.Run
import Regraft.Proofs.Rewriting.Steps
import Regraft.Proofs.Search.Process

/-
  The run over fixpoints as a depth first search. A term is visited once, by a trail that repeats no tree;
  a visit is on the path or over, and when it is over the trees one step from it are visited themselves
  unless the step limit cuts them off (`Explored`). A turn keeps this (`Explored.turn`), and the run
  comes back from every visit (`Explored.leaves`).
-/

namespace Regraft.Fixpoint

open Process (Runs)

/-- A term that is expanded, its tree, and the trees that led to it, the last one first. -/
structure Visit where
  term : TermId
  tree : Tree
  behind : List Tree

/-- A tree one step from a visit is visited, or comes too deep. -/
def Known (visits : List Visit) (f : Fixpoint) (v : Visit) (y : Tree) : Prop :=
  y = v.tree ∨ (∃ u ∈ visits, u.tree = y) ∨ f.tooDeep (v.behind.length + 1) = true ∧ f.limitHit = true

/-- What is known of a visit while its walk goes on. -/
structure Open (K : Scope) (next : Tree → Set Tree) (visits : List Visit) (f : Fixpoint) (ses : Session)
    (v : Visit) (frame : Frame) : Prop where
  visit : v ∈ visits
  term : frame.term = v.term
  depth : frame.depth = v.behind.length
  walk : ∃ found ⊆ next v.tree, frame.successors.Completes K (next v.tree) ses found ∧
    (∀ y ∈ found, Known visits f v y) ∧ (frame.moved = true ↔ ∃ y ∈ found, y ≠ v.tree)

/-- What is known of a visit whose walk has come to its end. -/
structure Over (next : Tree → Set Tree) (rs : List Reduction) (visits : List Visit) (f : Fixpoint)
    (v : Visit) : Prop where
  known : ∀ y ∈ next v.tree, Known visits f v y
  found : Normal next v.tree → v.term ∈ rs.map Reduction.term

/-- What holds of a visit all the time. -/
structure Sound (next : Tree → Set Tree) (x : Tree) (visits : List Visit) (f : Fixpoint) (ses : Session)
    (v : Visit) : Prop where
  holds : Holds (· = v.tree) ses v.term
  trail : Trail next x (v.tree :: v.behind)
  nodup : (v.tree :: v.behind).Nodup
  earlier : ∀ y ∈ v.behind, ∃ u ∈ visits, u.tree = y
  shallow : f.tooDeep v.behind.length = false

/-- Some trail is one step longer than the step limit allows. -/
def Overlong (next : Tree → Set Tree) (x : Tree) (limit : Option Nat) : Prop :=
  ∃ l trees, limit = some l ∧ Trail next x trees ∧ trees.length = l + 2

/-- What a run has found out: its visits, and the fixpoints among them. -/
structure Explored (K : Scope) (rule : Rule) (limit : Option Nat) (next : Tree → Set Tree) (x : Tree)
    (rs : List Reduction) (visits : List Visit) (ses : Session) (f : Fixpoint) : Prop where
  ok : K.ok ses
  rule : f.rule = rule
  limited : f.stepLimit = limit
  expanded : f.expanded = visits.map Visit.term
  yielded : ∀ t, t ∈ f.yielded ↔ t ∈ rs.map Reduction.term
  root : ∃ v ∈ visits, v.tree = x
  once : ∀ u ∈ visits, ∀ v ∈ visits, u.tree = v.tree → u = v
  sound : ∀ v ∈ visits, Sound next x visits f ses v
  path : ∀ frame ∈ f.path, ∃ v, Open K next visits f ses v frame
  ended : ∀ v ∈ visits, (∃ frame ∈ f.path, frame.term = v.term) ∨ Over next rs visits f v
  found : ∀ r ∈ rs, ∃ v ∈ visits, r = ⟨v.term, v.behind.length⟩ ∧ Normal next v.tree
  distinct : (rs.map Reduction.term).Nodup
  cut : f.limitHit = true → Overlong next x limit

variable {K : Scope} {rule : Rule} {limit : Option Nat} {next : Tree → Set Tree} {x y : Tree}
  {rs : List Reduction} {visits visits' : List Visit} {ses ses' : Session} {f f' : Fixpoint} {v : Visit}
  {frame frame' : Frame} {above : List Frame} {t : TermId} {found : Set Tree}

/-! ## More is known later -/

/-- One state knows what another one knew. -/
structure Extends (visits visits' : List Visit) (f f' : Fixpoint) : Prop where
  visits : visits ⊆ visits'
  limit : f'.stepLimit = f.stepLimit
  cut : f.limitHit = true → f'.limitHit = true

theorem Extends.tooDeep (e : Extends visits visits' f f') (n : Nat) : f'.tooDeep n = f.tooDeep n := by
  unfold Fixpoint.tooDeep
  rw [e.limit]

theorem Known.extends (h : Known visits f v y) (e : Extends visits visits' f f') :
    Known visits' f' v y := by
  rcases h with h | ⟨u, mem, h⟩ | ⟨deep, cut⟩
  · exact .inl h
  · exact .inr (.inl ⟨u, e.visits mem, h⟩)
  · exact .inr (.inr ⟨by rwa [e.tooDeep], e.cut cut⟩)

theorem Open.extends (h : Open K next visits f ses v frame) (e : Extends visits visits' f f')
    (g : ses.Grows ses') : Open K next visits' f' ses' v frame := by
  obtain ⟨found, sub, completes, known, moved⟩ := h.walk
  exact ⟨e.visits h.visit, h.term, h.depth, found, sub, completes.later g,
    fun y mem => (known y mem).extends e, moved⟩

theorem Over.extends (h : Over next rs visits f v) (e : Extends visits visits' f f')
    (more : List Reduction) : Over next (rs ++ more) visits' f' v :=
  ⟨fun y mem => (h.known y mem).extends e, fun normal => by
    rw [List.map_append]
    exact List.mem_append_left _ (h.found normal)⟩

theorem Sound.extends (h : Sound next x visits f ses v) (e : Extends visits visits' f f')
    (g : ses.Grows ses') : Sound next x visits' f' ses' v where
  holds := h.holds.grows g
  trail := h.trail
  nodup := h.nodup
  earlier y mem := (h.earlier y mem).imp fun _ => And.imp_left (e.visits ·)
  shallow := by rw [e.tooDeep, h.shallow]

/-! ## Turns -/

/-- The terms of visits are told by their trees. -/
theorem Explored.term_eq (h : Explored K rule limit next x rs visits ses f) (mem : v ∈ visits)
    (here : Holds (· = v.tree) ses t) : t = v.term := here.term_eq (h.sound v mem).holds

/-- The first frame of the path goes on, perhaps with a new visit in front of it. -/
theorem Explored.advance (h : Explored K rule limit next x rs visits ses f)
    (path : f.path = frame :: above) (g : ses.Grows ses') (ok : K.ok ses')
    (e : Extends visits visits' f f') (rule' : f'.rule = f.rule) (yielded : f'.yielded = f.yielded)
    (expanded : f'.expanded = visits'.map Visit.term) (front : List Frame)
    (path' : f'.path = front ++ above) (same : ∃ fr ∈ front, fr.term = frame.term)
    (opened : ∀ fr ∈ front, ∃ v, Open K next visits' f' ses' v fr)
    (once : ∀ u ∈ visits', ∀ v ∈ visits', u.tree = v.tree → u = v)
    (cut : f'.limitHit = true → Overlong next x limit)
    (new : ∀ v ∈ visits', v ∈ visits ∨
      Sound next x visits' f' ses' v ∧ ∃ frame ∈ f'.path, frame.term = v.term) :
    Explored K rule limit next x rs visits' ses' f' where
  ok := ok
  rule := rule'.trans h.rule
  limited := e.limit.trans h.limited
  expanded := expanded
  yielded t := by rw [yielded, h.yielded]
  root := h.root.imp fun _ => And.imp_left (e.visits ·)
  once := once
  sound v mem := by
    rcases new v mem with mem | ⟨sound, -⟩
    · exact (h.sound v mem).extends e g
    · exact sound
  path fr mem := by
    rw [path'] at mem
    rcases List.mem_append.mp mem with mem | mem
    · exact opened fr mem
    · obtain ⟨v, opened⟩ := h.path fr (path ▸ List.mem_cons_of_mem _ mem)
      exact ⟨v, opened.extends e g⟩
  ended v mem := by
    rcases new v mem with mem | ⟨-, here⟩
    · rcases h.ended v mem with ⟨fr, mem, term⟩ | ended
      · rw [path] at mem
        refine .inl ?_
        rw [path']
        rcases List.mem_cons.mp mem with rfl | mem
        · obtain ⟨fr', mem, term'⟩ := same
          exact ⟨fr', List.mem_append_left _ mem, term'.trans term⟩
        · exact ⟨fr, List.mem_append_right _ mem, term⟩
      · have ended := ended.extends e []
        rw [List.append_nil] at ended
        exact .inr ended
    · exact .inl here
  found r mem := (h.found r mem).imp fun _ => And.imp_left (e.visits ·)
  distinct := h.distinct
  cut := cut

/-- The first frame of the path goes on without a new visit. -/
theorem Explored.stay (h : Explored K rule limit next x rs visits ses f)
    (path : f.path = frame :: above) (g : ses.Grows ses') (ok : K.ok ses') {cut : Bool}
    (le : f.limitHit = true → cut = true) (overlong : cut = true → Overlong next x limit) (same : frame'.term = frame.term)
    (opened : Open K next visits { f with path := frame' :: above, limitHit := cut } ses' v frame') :
    Explored K rule limit next x rs visits ses' { f with path := frame' :: above, limitHit := cut } :=
  h.advance path g ok ⟨fun _ => id, rfl, le⟩ rfl rfl h.expanded [frame'] rfl
    ⟨frame', .head _, same⟩ (List.forall_mem_singleton.mpr ⟨v, opened⟩) h.once overlong
    fun _ => .inl

theorem Explored.contains_iff (h : Explored K rule limit next x rs visits ses f)
    (g : ses.Grows ses') (here : Holds (· = y) ses' t) :
    f.expanded.contains t = true ↔ ∃ u ∈ visits, u.tree = y := by
  rw [List.contains_iff_mem, h.expanded, List.mem_map]
  refine exists_congr fun u => and_congr_right fun mem => ?_
  have held := (h.sound u mem).holds.grows g
  constructor
  · rintro rfl
    exact held.tree.symm.trans here.tree
  · rintro rfl
    exact held.term_eq here

theorem enter_same (f : Fixpoint) (frame : Frame) (above : List Frame) (same : t = frame.term)
    (ses : Session) : f.enter frame above t ses = (.working { f with path := frame :: above }, ses) := by
  rw [enter, if_pos same]
  rfl

theorem enter_deep (frame : Frame) (above : List Frame) (ne : t ≠ frame.term)
    (deep : f.tooDeep (frame.depth + 1) = true) (ses : Session) : f.enter frame above t ses =
      (.working { f with path := { frame with moved := true } :: above, limitHit := true }, ses) := by
  rw [enter, if_neg ne]
  exact congrFun (if_pos deep) ses

theorem enter_again (frame : Frame) (above : List Frame) (ne : t ≠ frame.term)
    (shallow : f.tooDeep (frame.depth + 1) = false) (again : f.expanded.contains t = true) (ses : Session) :
    f.enter frame above t ses =
      (.working { f with path := { frame with moved := true } :: above }, ses) := by
  rw [enter, if_neg ne]
  refine congrFun ((if_neg ?_).trans (if_pos again)) ses
  exact ne_true_of_eq_false shallow

theorem enter_new (frame : Frame) (above : List Frame) (ne : t ≠ frame.term)
    (shallow : f.tooDeep (frame.depth + 1) = false) (new : f.expanded.contains t = false)
    (ses : Session) : f.enter frame above t ses =
      let counted := (Session.count Counters.countFixpointStep ses).2
      (.working { f with
        path := ⟨t, frame.depth + 1, (Walk.start f.rule t counted).1, false⟩ ::
          { frame with moved := true } :: above
        expanded := t :: f.expanded }, (Walk.start f.rule t counted).2) := by
  rw [enter, if_neg ne]
  dsimp only
  rw [shallow, if_neg Bool.false_ne_true, new, if_neg Bool.false_ne_true]
  rfl

theorem enter_grows (f : Fixpoint) (frame : Frame) (above : List Frame) (t : TermId) (ses : Session) :
    ses.Grows (f.enter frame above t ses).2 := by
  unfold enter
  split
  · exact .refl ses
  · dsimp only
    split
    · exact .refl ses
    · split
      · exact .refl ses
      · exact (Session.count_grows Counters.countFixpointStep ses).trans (Walk.start_grows f.rule t _)

/-- What the walk of a visit comes to is the term of a tree one step on. The visit stays open when the
    tree is known by then, and has moved if it is another one. -/
theorem Open.yielded {w : Walk} (opened : Open K next visits f ses v frame) (ok : K.ok ses)
    (turned : frame.successors.turn ses = (.yielded (.ok t) w, ses')) (room : K.room ses') :
    ses.Grows ses' ∧ K.ok ses' ∧ ∃ y ∈ next v.tree, Holds (· = y) ses' t ∧
      ∀ {visits' : List Visit} {f' : Fixpoint} {ses'' : Session} {moved : Bool},
        Extends visits visits' f f' → ses'.Grows ses'' → Known visits' f' v y →
        (moved = true ↔ frame.moved = true ∨ y ≠ v.tree) →
        Open K next visits' f' ses'' v { frame with successors := w, moved := moved } := by
  obtain ⟨found, sub, completes, known, moved⟩ := opened.walk
  obtain ⟨goes, -, member, behind, -, -⟩ := completes
  obtain ⟨g, ok'⟩ := goes ses _ ses' (.refl ses) ok room turned
  have member := member ses t w ses' (.refl ses) ok room turned
  have behind := behind ses t w ses' (.refl ses) ok room turned
  refine ⟨g, ok', ses'.store.tree t, member.tree, ⟨member.valid, member.stored, rfl⟩, ?_⟩
  intro visits' f' ses'' moved' e g' new moves
  refine ⟨e.visits opened.visit, opened.term, opened.depth, _, Set.insert_subset member.tree sub,
    behind.later g', ?_, ?_⟩
  · rintro z (rfl | mem)
    · exact new
    · exact (known z mem).extends e
  · rw [moves, moved, Set.exists_mem_insert, or_comm]

/-- A step from a visit that comes too deep makes a trail that is one step too long. -/
theorem Explored.overlong (h : Explored K rule limit next x rs visits ses f) (mem : v ∈ visits)
    (deep : f.tooDeep (v.behind.length + 1) = true) (step : y ∈ next v.tree) :
    Overlong next x limit := by
  have sound := h.sound v mem
  have shallow := sound.shallow
  rw [tooDeep, h.limited] at deep shallow
  cases limit with
  | none => cases deep
  | some l =>
    have deep := of_decide_eq_true deep
    have shallow := of_decide_eq_false shallow
    refine ⟨l, _, rfl, sound.trail.step step, ?_⟩
    simp only [List.length_cons]
    omega

/-- A term of a tree that has no visit yet is visited, one step from the first visit of the path. -/
theorem Explored.visit (h : Explored K rule limit next x rs visits ses f) (path : f.path = frame :: above)
    (mem : v ∈ visits) (step : y ∈ next v.tree) (new : ¬ ∃ u ∈ visits, u.tree = y)
    (shallow : f.tooDeep (v.behind.length + 1) = false) (g : ses.Grows ses') (ok : K.ok ses')
    (here : Holds (· = y) ses' t) {child fr : Frame} (term : child.term = t) (same : fr.term = frame.term) :
    let u : Visit := ⟨t, y, v.tree :: v.behind⟩
    let f' : Fixpoint := { f with path := child :: fr :: above, expanded := t :: f.expanded }
    Open K next (u :: visits) f' ses' u child → Open K next (u :: visits) f' ses' v fr →
      Explored K rule limit next x rs (u :: visits) ses' f' := by
  intro u f' opened stays
  have sound := h.sound v mem
  have e : Extends visits (u :: visits) f f' := ⟨fun _ => .tail _, rfl, id⟩
  have visited {z : Tree} (mem' : z ∈ v.tree :: v.behind) : ∃ m ∈ visits, m.tree = z := by
    rcases List.mem_cons.mp mem' with rfl | mem'
    · exact ⟨v, mem, rfl⟩
    · exact sound.earlier z mem'
  refine h.advance path g ok e rfl rfl (congrArg (t :: ·) h.expanded) [child, fr] rfl
    ⟨fr, .tail _ (.head _), same⟩ ?_ ?_ h.cut ?_
  · rw [List.forall_mem_cons, List.forall_mem_singleton]
    exact ⟨⟨u, opened⟩, v, stays⟩
  · intro m hm n hn eq
    rcases List.mem_cons.mp hm with rfl | hm <;> rcases List.mem_cons.mp hn with rfl | hn
    · rfl
    · exact absurd ⟨n, hn, eq.symm⟩ new
    · exact absurd ⟨m, hm, eq⟩ new
    · exact h.once m hm n hn eq
  · intro m hm
    rcases List.mem_cons.mp hm with rfl | hm
    · refine .inr ⟨⟨here, sound.trail.step step, List.nodup_cons.mpr ⟨?_, sound.nodup⟩, ?_, ?_⟩,
        child, .head _, term⟩
      · exact fun again => new (visited again)
      · exact fun z behind => (visited behind).imp fun _ => And.imp_left (.tail _)
      · rw [e.tooDeep, List.length_cons, shallow]
    · exact .inl hm

/-- A tree that is one step from the first visit of the path has been found. The path goes on with the
    same visit, or with a new one where the tree has no visit yet. -/
theorem Explored.enter {w : Walk} (h : Explored K rule limit next x rs visits ses f)
    (walks : rule.Walks K next x) (path : f.path = frame :: above) (opened : Open K next visits f ses v frame)
    (turned : frame.successors.turn ses = (.yielded (.ok t) w, ses'))
    (room : K.room (f.enter { frame with successors := w } above t ses').2) :
    ∃ fr, fr.successors = w ∧ fr.term = frame.term ∧ fr.depth = frame.depth ∧
      ((∃ cut, f.enter { frame with successors := w } above t ses' =
          (.working { f with path := fr :: above, limitHit := cut }, ses') ∧
        Explored K rule limit next x rs visits ses' { f with path := fr :: above, limitHit := cut }) ∨
      ∃ child u ses'', f.enter { frame with successors := w } above t ses' =
          (.working { f with path := child :: fr :: above, expanded := t :: f.expanded }, ses'') ∧
        Explored K rule limit next x rs (u :: visits) ses''
          { f with path := child :: fr :: above, expanded := t :: f.expanded } ∧
        child.depth = frame.depth + 1 ∧ f.tooDeep (frame.depth + 1) = false ∧
        Reaches next x u.tree ∧ ∀ m ∈ visits, m.tree ≠ u.tree) := by
  obtain ⟨g, ok, y, mem, here, stays⟩ := opened.yielded h.ok turned (K.earlier (enter_grows ..) room)
  have sound := h.sound v opened.visit
  let moved : Frame := { frame with successors := w, moved := true }
  by_cases same : t = frame.term
  · -- the tree itself
    have eq : y = v.tree := by
      rw [← here.tree, same, opened.term]
      exact (sound.holds.grows g).tree
    refine ⟨{ frame with successors := w }, rfl, rfl, rfl,
      .inl ⟨f.limitHit, enter_same f { frame with successors := w } above same ses', ?_⟩⟩
    exact h.stay path g ok id h.cut rfl (stays ⟨fun _ => id, rfl, id⟩ (.refl ses') (.inl eq)
      (or_iff_left (not_not.mpr eq)).symm)
  have moves : true = true ↔ frame.moved = true ∨ y ≠ v.tree := by
    refine iff_of_true rfl (.inr ?_)
    rintro rfl
    exact same ((here.term_eq (sound.holds.grows g)).trans opened.term.symm)
  refine ⟨moved, rfl, rfl, rfl, ?_⟩
  by_cases deep : f.tooDeep (frame.depth + 1) = true
  · refine .inl ⟨true, enter_deep { frame with successors := w } above same deep ses', ?_⟩
    rw [opened.depth] at deep
    exact h.stay path g ok (fun _ => rfl) (fun _ => h.overlong opened.visit deep mem) rfl
      (stays ⟨fun _ => id, rfl, fun _ => rfl⟩ (.refl ses') (.inr (.inr ⟨deep, rfl⟩)) moves)
  have shallow := eq_false_of_ne_true deep
  by_cases again : f.expanded.contains t = true
  · have visited := (h.contains_iff g here).mp again
    refine .inl ⟨f.limitHit, enter_again { frame with successors := w } above same shallow again ses', ?_⟩
    exact h.stay path g ok id h.cut rfl
      (stays ⟨fun _ => id, rfl, id⟩ (.refl ses') (.inr (.inl visited)) moves)
  · -- a tree without a visit
    have new := mt (h.contains_iff g here).mpr again
    have entered := enter_new { frame with successors := w } above same shallow (eq_false_of_ne_true again) ses'
    rw [entered] at room ⊢
    obtain rfl := h.rule
    dsimp only at room ⊢
    have count := Session.count_grows Counters.countFixpointStep ses'
    have counted := K.count Counters.countFixpointStep ok
    generalize (Session.count Counters.countFixpointStep ses').2 = ses₁ at room count counted ⊢
    have reaches : Reaches next x y := ⟨_, sound.trail.step mem⟩
    obtain ⟨ok', started⟩ := walks y reaches ses₁ t counted (here.grows count) room
    have grows' := count.trans (Walk.start_grows f.rule t ses₁)
    have deepened : frame.depth + 1 = (v.tree :: v.behind).length := by
      rw [opened.depth, List.length_cons]
    refine .inr ⟨⟨t, frame.depth + 1, (Walk.start f.rule t ses₁).1, false⟩, ⟨t, y, v.tree :: v.behind⟩,
      _, rfl, ?_, rfl, shallow, reaches, fun m hm eq => new ⟨m, hm, eq⟩⟩
    refine h.visit path opened.visit mem new (opened.depth ▸ shallow) (g.trans grows') ok'
      (here.grows grows') rfl rfl ?_ ?_
    · exact ⟨.head _, rfl, deepened, ∅, Set.empty_subset _, started, nofun, nofun, nofun⟩
    · exact stays ⟨fun _ => .tail _, rfl, id⟩ grows' (.inr (.inl ⟨_, .head _, rfl⟩)) moves

theorem leave_eq (f : Fixpoint) (frame : Frame) (above : List Frame) (ses : Session) :
    f.leave frame above ses =
      if frame.moved || f.yielded.contains frame.term then (.working { f with path := above }, ses)
      else (.yielded (.ok ⟨frame.term, frame.depth⟩)
          { f with path := above, yielded := frame.term :: f.yielded },
        (Session.count Counters.countFixpoint ses).2) := by
  unfold leave
  dsimp only
  split <;> rfl

theorem turn_cons (path : f.path = frame :: above) (ses : Session) :
    f.turn ses = match frame.successors.turn ses with
      | (.working w, ses') =>
        (.working { f with path := { frame with successors := w } :: above }, ses')
      | (.yielded (.error e) w, ses') =>
        (.yielded (.error e) { f with path := { frame with successors := w } :: above }, ses')
      | (.yielded (.ok next) w, ses') => f.enter { frame with successors := w } above next ses'
      | (.finished, ses') => f.leave frame above ses' := by
  have turn := turn_eq f ses
  rw [path] at turn
  exact turn

/-- The first visit of the path is over, with its fixpoint among the results. -/
theorem Explored.close (h : Explored K rule limit next x rs visits ses f)
    (path : f.path = frame :: above) (opened : Open K next visits f ses v frame) (g : ses.Grows ses')
    (ok : K.ok ses') (e : Extends visits visits f f') (rule' : f'.rule = f.rule)
    (expanded : f'.expanded = f.expanded) (path' : f'.path = above) (more : List Reduction)
    (yielded : ∀ t, t ∈ f'.yielded ↔ t ∈ (rs ++ more).map Reduction.term)
    (ended : Over next (rs ++ more) visits f' v)
    (found : ∀ r ∈ more, r = ⟨v.term, v.behind.length⟩ ∧ Normal next v.tree)
    (distinct : ((rs ++ more).map Reduction.term).Nodup) (cut : f'.limitHit = f.limitHit) :
    Explored K rule limit next x (rs ++ more) visits ses' f' where
  ok := ok
  rule := rule'.trans h.rule
  limited := e.limit.trans h.limited
  expanded := expanded.trans h.expanded
  yielded := yielded
  root := h.root
  once := h.once
  sound m mem := (h.sound m mem).extends e g
  path fr mem := by
    obtain ⟨m, opened⟩ := h.path fr (path ▸ .tail _ (path' ▸ mem))
    exact ⟨m, opened.extends e g⟩
  ended m mem := by
    rcases h.ended m mem with ⟨fr, here, term⟩ | ended'
    · rw [path] at here
      rcases List.mem_cons.mp here with rfl | here
      · -- the visit of this frame, since no term has two visits
        have eq : m.tree = v.tree := by
          rw [← (h.sound m mem).holds.tree, ← term, opened.term, (h.sound v opened.visit).holds.tree]
        obtain rfl := h.once m mem v opened.visit eq
        exact .inr ended
      · exact .inl ⟨fr, path' ▸ here, term⟩
    · exact .inr (ended'.extends e more)
  found r mem := by
    rcases List.mem_append.mp mem with mem | mem
    · exact h.found r mem
    · exact ⟨v, opened.visit, found r mem⟩
  distinct := distinct
  cut hit := h.cut (cut ▸ hit)

/-- A turn leads to a state of the run, with at most one result on the way. -/
def Takes (f f' : Fixpoint) (ses ses' : Session) : List Reduction → Prop
  | [] => f.turn ses = (.working f', ses')
  | [r] => f.turn ses = (.yielded (.ok r) f', ses')
  | _ => False

theorem Takes.runs (h : Takes f f' ses ses' rs) : Runs turn ses f (rs.map .ok) ses' f' := by
  match rs with
  | [] => exact .working h .refl
  | [_] => exact .yielded h .refl
  | _ :: _ :: _ => cases h

/-- The first visit of the path is left. It is a fixpoint if no step leads to another tree. -/
theorem Explored.leave (h : Explored K rule limit next x rs visits ses f)
    (path : f.path = frame :: above) (opened : Open K next visits f ses v frame)
    (turned : frame.successors.turn ses = (.finished, ses')) (room : K.room (f.turn ses).2) :
    ∃ more ses'' f', ses.Grows ses'' ∧ Takes f f' ses ses'' more ∧ f'.path = above ∧
      Explored K rule limit next x (rs ++ more) visits ses'' f' := by
  obtain ⟨found, sub, completes, known, moved⟩ := opened.walk
  obtain ⟨goes, -, -, -, -, all⟩ := completes
  have left : f.turn ses = f.leave frame above ses' := by rw [turn_cons path, turned]
  rw [left, leave_eq] at room
  rw [leave_eq] at left
  have count := Session.count_grows Counters.countFixpoint ses'
  have room' : K.room ses' := by
    split at room
    · exact room
    · exact K.earlier count room
  obtain ⟨g, ok⟩ := goes ses _ ses' (.refl ses) h.ok room' turned
  have all := all ses ses' (.refl ses) h.ok room' turned
  have normal : Normal next v.tree ↔ frame.moved = false := by
    rw [← Bool.not_eq_true, moved]
    constructor
    · rintro normal ⟨z, mem, ne⟩
      exact ne (normal z (sub mem))
    · exact fun none z mem => of_not_not fun ne => none ⟨z, all mem, ne⟩
  by_cases stay : (frame.moved || f.yielded.contains frame.term) = true
  · -- the term can be rewritten, or it has been found before
    rw [if_pos stay] at left
    rw [Bool.or_eq_true, List.contains_iff_mem] at stay
    have e : Extends visits visits f { f with path := above } := ⟨fun _ => id, rfl, id⟩
    refine ⟨[], ses', _, g, left, rfl, ?_⟩
    refine h.close path opened g ok e rfl rfl rfl [] (by rw [List.append_nil]; exact h.yielded)
      ⟨fun z mem => (known z (all mem)).extends e, fun here => ?_⟩ nofun
      (by rw [List.append_nil]; exact h.distinct) rfl
    rw [List.append_nil, ← h.yielded, ← opened.term]
    exact stay.resolve_left (ne_true_of_eq_false (normal.mp here))
  · rw [if_neg stay] at left
    rw [Bool.or_eq_true, List.contains_iff_mem, not_or] at stay
    have here := normal.mpr (eq_false_of_ne_true stay.1)
    have e : Extends visits visits f
        { f with path := above, yielded := frame.term :: f.yielded } := ⟨fun _ => id, rfl, id⟩
    let r : Reduction := ⟨frame.term, frame.depth⟩
    have map : (rs ++ [r]).map Reduction.term = rs.map Reduction.term ++ [frame.term] := List.map_append
    refine ⟨[r], _, _, g.trans count, left, rfl, ?_⟩
    refine h.close path opened (g.trans count) (K.count _ ok) e rfl rfl rfl _ (fun t => ?_)
      ⟨fun z mem => (known z (all mem)).extends e, fun _ => ?_⟩ (fun r mem => ?_) ?_ rfl
    · rw [map, List.mem_append, List.mem_cons, h.yielded, List.mem_singleton, or_comm]
    · rw [map, ← opened.term]
      exact List.mem_append_right _ (.head _)
    · obtain rfl := List.mem_singleton.mp mem
      exact ⟨congrArg₂ _ opened.term opened.depth, here⟩
    · rw [map, ← List.concat_eq_append]
      exact List.Nodup.concat ((h.yielded _).not.mp stay.2) h.distinct

/-- The walk of the first visit goes on without a result. -/
theorem Explored.working {w : Walk} (h : Explored K rule limit next x rs visits ses f)
    (path : f.path = frame :: above) (opened : Open K next visits f ses v frame)
    (turned : frame.successors.turn ses = (.working w, ses')) (room : K.room ses') :
    Explored K rule limit next x rs visits ses'
      { f with path := { frame with successors := w } :: above } := by
  obtain ⟨found, sub, completes, known, moved⟩ := opened.walk
  obtain ⟨goes, working, -, -, -, -⟩ := completes
  obtain ⟨g, ok⟩ := goes ses _ ses' (.refl ses) h.ok room turned
  have working := working ses w ses' (.refl ses) h.ok room turned
  exact h.stay path g ok id h.cut rfl ⟨opened.visit, opened.term, opened.depth, found, sub, working,
    fun z mem => (known z mem).extends ⟨fun _ => id, rfl, id⟩, moved⟩

/-- What a turn of a run comes to. -/
def Finds (K : Scope) (rule : Rule) (limit : Option Nat) (next : Tree → Set Tree) (x : Tree)
    (rs : List Reduction) : FixpointTurn × Session → Prop
  | (.working f, ses) => ∃ visits, Explored K rule limit next x rs visits ses f
  | (.yielded (.ok r) f, ses) => ∃ visits, Explored K rule limit next x (rs ++ [r]) visits ses f
  | (.yielded (.error _) _, _) => False
  | (.finished, _) => True

/-- A turn finds out more, and reports no error. -/
theorem Explored.turn (h : Explored K rule limit next x rs visits ses f) (walks : rule.Walks K next x)
    (room : K.room (f.turn ses).2) : Finds K rule limit next x rs (f.turn ses) := by
  match path : f.path with
  | [] =>
    rw [turn_eq, path]
    trivial
  | frame :: above =>
    obtain ⟨v, opened⟩ := h.path frame (path ▸ .head _)
    have turn := turn_cons path ses
    match turned : frame.successors.turn ses with
    | (.working w, ses') =>
      rw [turned] at turn
      rw [turn] at room ⊢
      exact ⟨visits, h.working path opened turned room⟩
    | (.yielded (.error e) w, ses') =>
      rw [turned] at turn
      rw [turn] at room
      obtain ⟨_, -, ⟨-, -, -, -, noError, -⟩, -⟩ := opened.walk
      exact absurd turned (noError ses e w ses' (.refl ses) h.ok room)
    | (.yielded (.ok t) w, ses') =>
      rw [turned] at turn
      dsimp only at turn
      rw [turn] at room ⊢
      obtain ⟨fr, -, -, -, ⟨cut, entered, explored⟩ | ⟨child, u, ses₁, entered, explored, -⟩⟩ :=
        h.enter walks path opened turned room
      · rw [entered]
        exact ⟨visits, explored⟩
      · rw [entered]
        exact ⟨u :: visits, explored⟩
    | (.finished, ses') =>
      obtain ⟨more, ses'', f', -, takes, -, explored⟩ := h.leave path opened turned room
      match more with
      | [] =>
        rw [show f.turn ses = _ from takes]
        rw [List.append_nil] at explored
        exact ⟨visits, explored⟩
      | [r] =>
        rw [show f.turn ses = _ from takes]
        exact ⟨visits, explored⟩
      | _ :: _ :: _ => cases takes

/-! ## The run comes back -/

/-- The visits to come fit into a number, since the depth of the path is bounded or since few trees are
    left. -/
def Fits (next : Tree → Set Tree) (x : Tree) (limit : Option Nat) (n : Nat) (visits : List Visit)
    (depth : Nat) : Prop :=
  (∃ l, limit = some l ∧ l ≤ n + depth) ∨
    ∃ left : Finset Tree, left.card ≤ n ∧ ∀ y, Reaches next x y → (∃ v ∈ visits, v.tree = y) ∨ y ∈ left

theorem Fits.mono {n depth : Nat} (h : Fits next x limit n visits depth) (sub : visits ⊆ visits') :
    Fits next x limit n visits' depth := by
  rcases h with h | ⟨left, le, rest⟩
  · exact .inl h
  · exact .inr ⟨left, le, fun y reaches => (rest y reaches).imp_left fun ⟨v, mem, eq⟩ => ⟨v, sub mem, eq⟩⟩

/-- Fewer visits are to come behind a new one, which is deeper. -/
theorem Fits.deeper {n depth : Nat} (h : Fits next x limit n visits depth) (limited : f.stepLimit = limit)
    (shallow : f.tooDeep (depth + 1) = false) (reaches : Reaches next x v.tree)
    (new : ∀ m ∈ visits, m.tree ≠ v.tree) :
    ∃ m < n, Fits next x limit m (v :: visits) (depth + 1) := by
  classical
  rcases h with ⟨l, rfl, le⟩ | ⟨left, le, rest⟩
  · rw [tooDeep, limited] at shallow
    have within := of_decide_eq_false shallow
    exact ⟨n - 1, by omega, .inl ⟨l, rfl, by omega⟩⟩
  · have mem : v.tree ∈ left := (rest _ reaches).resolve_left fun ⟨m, hm, eq⟩ => new m hm eq
    have card := Finset.card_erase_lt_of_mem mem
    refine ⟨(left.erase v.tree).card, Nat.lt_of_lt_of_le card le, .inr ⟨_, Nat.le_refl _, fun y hy => ?_⟩⟩
    by_cases eq : v.tree = y
    · exact .inl ⟨v, .head _, eq⟩
    · rcases rest y hy with ⟨m, hm, eq⟩ | mem
      · exact .inl ⟨m, .tail _ hm, eq⟩
      · exact .inr (Finset.mem_erase.mpr ⟨Ne.symm eq, mem⟩)

/-- There is room after any number of turns. -/
def Spacious (K : Scope) (ses : Session) (f : Fixpoint) : Prop :=
  ∀ turns, K.room (Process.after turn turns f ses).2

theorem Spacious.later {as : List (Except RewriteError Reduction)} (h : Spacious K ses f)
    (run : Runs turn ses f as ses' f') : Spacious K ses' f' := by
  obtain ⟨turns, eq⟩ := run.exists_after
  exact fun more => eq more ▸ h (turns + more)

/-- There is room behind a turn. -/
theorem Spacious.turn (h : Spacious K ses f) : K.room (f.turn ses).2 := by
  have room := h 1
  rw [Process.after_succ] at room
  generalize f.turn ses = r at room ⊢
  obtain ⟨out, ses'⟩ := r
  cases out <;> exact room

/-- A run comes to the frames above those it starts with. -/
def Leaves (K : Scope) (rule : Rule) (limit : Option Nat) (next : Tree → Set Tree) (x : Tree)
    (above : List Frame) (rs : List Reduction) (visits : List Visit) (ses : Session) (f : Fixpoint) : Prop :=
  ∃ more visits' ses' f', ses.Grows ses' ∧ Runs turn ses f (more.map .ok) ses' f' ∧ f'.path = above ∧
    visits ⊆ visits' ∧ Explored K rule limit next x (rs ++ more) visits' ses' f'

theorem Leaves.behind {more : List Reduction}
    (h : Leaves K rule limit next x above (rs ++ more) visits' ses' f')
    (g : ses.Grows ses') (run : Runs Fixpoint.turn ses f (more.map .ok) ses' f') (sub : visits ⊆ visits') :
    Leaves K rule limit next x above rs visits ses f := by
  obtain ⟨more', visits₁, ses₁, f₁, g', run', path, sub', explored⟩ := h
  refine ⟨more ++ more', visits₁, ses₁, f₁, g.trans g', ?_, path, fun _ mem => sub' (sub mem), ?_⟩
  · rw [List.map_append]
    exact run.trans run'
  · rwa [← List.append_assoc]

/-- The run leaves a visit whose walk completes, if it leaves those that may be entered from there. -/
theorem Explored.leaves_of_completes {n : Nat} {w : Walk} {ses₀ : Session} (walks : rule.Walks K next x)
    (deeper : ∀ m < n, ∀ frame above rs visits ses f, Explored K rule limit next x rs visits ses f →
      f.path = frame :: above → Fits next x limit m visits frame.depth → Spacious K ses f →
        Leaves K rule limit next x above rs visits ses f)
    {A : Set Tree} (completes : w.Completes K A ses₀ found) (g : ses₀.Grows ses)
    (here : frame.successors = w) (h : Explored K rule limit next x rs visits ses f)
    (path : f.path = frame :: above) (fits : Fits next x limit n visits frame.depth)
    (space : Spacious K ses f) : Leaves K rule limit next x above rs visits ses f := by
  induction completes generalizing frame rs visits ses f with
  | @intro ses₀ found w goes working member behind noError all ihWorking ihBehind =>
    obtain ⟨v, opened⟩ := h.path frame (path ▸ .head _)
    have turn := turn_cons path ses
    have room := space.turn
    match turned : frame.successors.turn ses with
    | (.working w', ses') =>
      rw [turned] at turn
      have run : Runs Fixpoint.turn ses f (([] : List Reduction).map .ok) ses' _ := .working turn .refl
      rw [turn] at room
      obtain ⟨g', -⟩ := goes ses _ ses' g h.ok room (here ▸ turned)
      refine .behind ?_ g' run fun _ => id
      rw [List.append_nil]
      exact ihWorking ses w' ses' g h.ok room (here ▸ turned) (.refl ses') rfl
        (h.working path opened turned room) rfl fits (space.later run)
    | (.yielded (.error e) w', ses') =>
      rw [turned] at turn
      rw [turn] at room
      exact absurd (here ▸ turned) (noError ses e w' ses' g h.ok room)
    | (.finished, ses') =>
      obtain ⟨more, ses'', f', g'', takes, left, explored⟩ := h.leave path opened turned room
      exact ⟨more, visits, ses'', f', g'', takes.runs, left, fun _ => id, explored⟩
    | (.yielded (.ok t) w', ses') =>
      rw [turned] at turn
      dsimp only at turn
      rw [turn] at room
      have g₁ := enter_grows f { frame with successors := w' } above t ses'
      have room' := K.earlier g₁ room
      obtain ⟨g', -⟩ := goes ses _ ses' g h.ok room' (here ▸ turned)
      have behind := @ihBehind ses t w' ses' g h.ok room' (here ▸ turned)
      obtain ⟨fr, rfl, -, depth, ⟨cut, entered, explored⟩ |
        ⟨child, u, ses₁, entered, explored, deep, shallow, reaches, new⟩⟩ :=
        h.enter walks path opened turned room
      · -- the tree has been visited, or is not visited at all
        rw [entered] at turn
        have run : Runs Fixpoint.turn ses f (([] : List Reduction).map .ok) ses' _ := .working turn .refl
        refine .behind ?_ g' run fun _ => id
        rw [List.append_nil]
        exact behind (.refl ses') rfl explored rfl (depth ▸ fits) (space.later run)
      · -- the run leaves the new visit first
        rw [entered] at turn g₁
        have run : Runs Fixpoint.turn ses f (([] : List Reduction).map .ok) ses₁ _ := .working turn .refl
        refine .behind ?_ (g'.trans g₁) run (List.subset_cons_self u visits)
        rw [List.append_nil]
        obtain ⟨m, lt, deeperFits⟩ := fits.deeper h.limited shallow reaches new
        obtain ⟨more, visits₂, ses₂, f₂, g₂, run₂, path₂, sub₂, explored₂⟩ :=
          deeper m lt child _ rs _ ses₁ _ explored rfl (deep ▸ deeperFits) (space.later run)
        refine .behind ?_ g₂ run₂ sub₂
        exact behind (g₁.trans g₂) rfl explored₂ path₂
          (depth ▸ fits.mono fun _ mem => sub₂ (.tail _ mem)) ((space.later run).later run₂)

/-- The run leaves every visit, and all visits it makes on the way. -/
theorem Explored.leaves (walks : rule.Walks K next x) {n : Nat}
    (h : Explored K rule limit next x rs visits ses f) (path : f.path = frame :: above)
    (fits : Fits next x limit n visits frame.depth) (space : Spacious K ses f) :
    Leaves K rule limit next x above rs visits ses f := by
  induction n using Nat.strong_induction_on generalizing rs visits ses f frame above with
  | _ n ih =>
    obtain ⟨v, opened⟩ := h.path frame (path ▸ .head _)
    obtain ⟨found, -, completes, -⟩ := opened.walk
    exact h.leaves_of_completes walks
      (fun m lt frame above rs visits ses f h path fits space => ih m lt h path fits space)
      completes (.refl ses) rfl path fits space

/-! ## From the start to the end -/

theorem Explored.start (walks : rule.Walks K next x) (ok : K.ok ses) (here : Holds (· = x) ses t)
    (limit : Option Nat) (room : K.room (start rule limit t ses).2) :
    Explored K rule limit next x [] [⟨t, x, []⟩] (start rule limit t ses).2
      (start rule limit t ses).1 := by
  obtain ⟨ok', completes⟩ := walks x .refl ses t ok here room
  have g := Walk.start_grows rule t ses
  have shallow : (Fixpoint.start rule limit t ses).1.tooDeep 0 = false := by
    cases limit <;> rfl
  refine ⟨ok', rfl, rfl, rfl, fun _ => .rfl, ⟨_, .head _, rfl⟩, ?_, ?_, ?_, ?_, nofun, .nil, nofun⟩
  · intro u hu v hv _
    rw [List.mem_singleton.mp hu, List.mem_singleton.mp hv]
  · exact List.forall_mem_singleton.mpr
      ⟨here.grows g, .start, List.nodup_singleton x, nofun, shallow⟩
  · exact List.forall_mem_singleton.mpr ⟨_, .head _, rfl, rfl, ∅, Set.empty_subset _, completes,
      nofun, nofun, nofun⟩
  · exact List.forall_mem_singleton.mpr (.inl ⟨_, .head _, rfl⟩)

/-- The run comes to the end of its path. -/
theorem exists_explored {n : Nat} (walks : rule.Walks K next x) (ok : K.ok ses)
    (here : Holds (· = x) ses t) (fits : Fits next x limit n [⟨t, x, []⟩] 0)
    (space : Spacious K (start rule limit t ses).2 (start rule limit t ses).1) :
    ∃ rs visits ses' f', Runs turn (start rule limit t ses).2 (start rule limit t ses).1
        (rs.map .ok) ses' f' ∧ f'.path = [] ∧ Explored K rule limit next x rs visits ses' f' := by
  have started := Explored.start walks ok here limit (space 0)
  obtain ⟨rs, visits, ses', f', -, run, path, -, explored⟩ :=
    started.leaves walks rfl fits space
  exact ⟨rs, visits, ses', f', run, path, explored⟩

end Regraft.Fixpoint
