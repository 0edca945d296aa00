import Mathlib.Data.Countable.Basic
import Mathlib.Data.Nat.Pairing
import Mathlib.Logic.Equiv.Sum
import Regraft.Proofs.Search.Meets

/-
  How a search comes by its answers. A derivation is a finite path through the unfolding of a search to
  an answer: an answer that is derived in two ways has two derivations. A step neither loses a derivation
  nor makes one (`step_conserves`): it gives out one answer, and with it one derivation of it.
-/

namespace Regraft

/-! ## Steps of forks and goals -/

namespace Step

/-- What a step of a fork comes to where its first branch comes to this. -/
def forked (others : List Search) : Step → Step
  | .emit a rest => .emit a (Search.requeue rest others)
  | .continue rest => .continue (.fork (others ++ [rest]))
  | .exhausted => .continue (Search.ofBranches others)

/-- What a step comes to that sends answers on into a goal. -/
def bound (goal : Goal) : Step → Step
  | .emit a rest => .continue (Search.feed a rest goal)
  | .continue rest => .continue (.bind rest goal)
  | .exhausted => .exhausted

end Step

namespace Search

theorem step_fork_eq (b : Search) (others : List Search) (ses : Session) :
    (fork (b :: others)).step ses = ((b.step ses).1.forked others, (b.step ses).2) := by
  rw [step_fork_cons]
  generalize b.step ses = r
  obtain ⟨out, ses'⟩ := r
  cases out <;> rfl

theorem step_bind_eq (inner : Search) (goal : Goal) (ses : Session) :
    (bind inner goal).step ses = ((inner.step ses).1.bound goal, (inner.step ses).2) := by
  rw [step_bind]
  generalize inner.step ses = r
  obtain ⟨out, ses'⟩ := r
  cases out <;> rfl

/-! ## Derivations -/

/-- The ways in which a search comes by an answer, where goals are unfolded in one session. -/
inductive Derivation (ses : Session) : Search → Subst → Type
  | here (a : Subst) (rest : Search) : Derivation ses (.emit a rest) a
  | later (b : Subst) {rest : Search} {a : Subst} (d : Derivation ses rest a) :
      Derivation ses (.emit b rest) a
  | first {b : Search} (bs : List Search) {a : Subst} (d : Derivation ses b a) :
      Derivation ses (.fork (b :: bs)) a
  | others (b : Search) {bs : List Search} {a : Subst} (d : Derivation ses (.fork bs) a) :
      Derivation ses (.fork (b :: bs)) a
  | bind {inner : Search} {goal : Goal} {c a : Subst} (d : Derivation ses inner c)
      (e : Derivation ses (.apply goal c) a) : Derivation ses (.bind inner goal) a
  | apply {goal : Goal} {s a : Subst} (d : Derivation ses (goal.apply s ses).1 a) :
      Derivation ses (.apply goal s) a
  | suspend {setUp : Session → Search × Session} {a : Subst} (d : Derivation ses (setUp ses).1 a) :
      Derivation ses (.suspend setUp) a

namespace Derivation

variable {ses : Session} {search inner rest : Search} {b : Search} {bs cs : List Search} {goal : Goal}
  {a c s : Subst}

/-! ## There are not too many -/

/-- A number that tells the derivations of all answers of a search apart. -/
def code {search : Search} {a : Subst} : Derivation ses search a → Nat
  | here _ _ => 0
  | later _ d => d.code + 1
  | first _ d => 2 * d.code
  | others _ d => 2 * d.code + 1
  | bind d e => Nat.pair d.code e.code
  | apply d => d.code
  | suspend d => d.code

theorem code_inj (d : Derivation ses search a) (e : Derivation ses search c) (h : d.code = e.code) :
    a = c ∧ HEq d e := by
  induction d generalizing c with
  | here a rest => cases e with
    | here => exact ⟨rfl, .rfl⟩
    | later => cases h
  | later b d ih => cases e with
    | here => cases h
    | later _ e =>
      obtain ⟨rfl, h⟩ := ih e (Nat.succ.inj h)
      exact ⟨rfl, by rw [eq_of_heq h]⟩
  | first bs d ih => cases e with
    | first _ e =>
      obtain ⟨rfl, h⟩ := ih e (by simp only [code] at h; omega)
      exact ⟨rfl, by rw [eq_of_heq h]⟩
    | others _ e => simp only [code] at h; omega
  | others b d ih => cases e with
    | first _ e => simp only [code] at h; omega
    | others _ e =>
      obtain ⟨rfl, h⟩ := ih e (by simp only [code] at h; omega)
      exact ⟨rfl, by rw [eq_of_heq h]⟩
  | bind d e ihd ihe => cases e with
    | bind d' e' =>
      obtain ⟨hd, he⟩ := Nat.pair_eq_pair.mp h
      obtain ⟨rfl, hd⟩ := ihd d' hd
      obtain ⟨rfl, he⟩ := ihe e' he
      exact ⟨rfl, by rw [eq_of_heq hd, eq_of_heq he]⟩
  | apply d ih => cases e with
    | apply e =>
      obtain ⟨rfl, h⟩ := ih e h
      exact ⟨rfl, by rw [eq_of_heq h]⟩
  | suspend d ih => cases e with
    | suspend e =>
      obtain ⟨rfl, h⟩ := ih e h
      exact ⟨rfl, by rw [eq_of_heq h]⟩

instance : Countable (Derivation ses search a) :=
  ⟨code, fun d e h => eq_of_heq (code_inj d e h).2⟩

/-! ## By the form of the search -/

instance : IsEmpty (Derivation ses .empty a) := ⟨nofun⟩

instance : IsEmpty (Derivation ses (.fork []) a) := ⟨nofun⟩

def emitEquiv : Derivation ses (.emit c rest) a ≃ PLift (c = a) ⊕ Derivation ses rest a where
  toFun
    | here _ _ => .inl ⟨rfl⟩
    | later _ d => .inr d
  invFun
    | .inl ⟨rfl⟩ => here _ _
    | .inr d => later _ d
  left_inv d := by cases d <;> rfl
  right_inv d := by rcases d with ⟨⟨rfl⟩⟩ | d <;> rfl

def forkEquiv : Derivation ses (.fork (b :: bs)) a ≃ Derivation ses b a ⊕ Derivation ses (.fork bs) a where
  toFun
    | first _ d => .inl d
    | others _ d => .inr d
  invFun
    | .inl d => first _ d
    | .inr d => others _ d
  left_inv d := by cases d <;> rfl
  right_inv d := by cases d <;> rfl

def bindEquiv : Derivation ses (.bind inner goal) a ≃
    Σ c, Derivation ses inner c × Derivation ses (.apply goal c) a where
  toFun | bind d e => ⟨_, d, e⟩
  invFun p := bind p.2.1 p.2.2
  left_inv d := by cases d; rfl
  right_inv _ := rfl

def applyEquiv : Derivation ses (.apply goal s) a ≃ Derivation ses (goal.apply s ses).1 a where
  toFun | apply d => d
  invFun := apply
  left_inv d := by cases d; rfl
  right_inv _ := rfl

def suspendEquiv {setUp : Session → Search × Session} :
    Derivation ses (.suspend setUp) a ≃ Derivation ses (setUp ses).1 a where
  toFun | suspend d => d
  invFun := suspend
  left_inv d := by cases d; rfl
  right_inv _ := rfl

/-! ## Forks -/

def forkAppend : (bs : List Search) → Derivation ses (.fork (bs ++ cs)) a ≃
    Derivation ses (.fork bs) a ⊕ Derivation ses (.fork cs) a
  | [] => (Equiv.emptySum ..).symm
  | _ :: bs => forkEquiv.trans (((Equiv.refl _).sumCongr (forkAppend bs)).trans
      ((Equiv.sumAssoc ..).symm.trans (forkEquiv.symm.sumCongr (.refl _))))

def forkSingle : Derivation ses (.fork [b]) a ≃ Derivation ses b a := forkEquiv.trans (Equiv.sumEmpty ..)

theorem of_isEmpty {b : Search} (h : b.isEmpty = true) : IsEmpty (Derivation ses b a) := by
  cases b with
  | empty => infer_instance
  | _ => cases h

def ofBranchesEquiv : (bs : List Search) → Derivation ses (ofBranches bs) a ≃ Derivation ses (.fork bs) a
  | [] => Equiv.equivOfIsEmpty (Derivation ses .empty a) _
  | [_] => forkSingle.symm
  | _ :: _ :: _ => .refl _

theorem plus_conserves (x y : Search) :
    Nonempty (Derivation ses (plus x y) a ≃ Derivation ses x a ⊕ Derivation ses y a) := by
  unfold plus
  split
  · exact ⟨(Equiv.emptySum ..).symm⟩
  · exact ⟨(Equiv.sumEmpty ..).symm⟩
  · exact ⟨forkEquiv.trans ((Equiv.refl _).sumCongr forkSingle)⟩

theorem requeue_conserves : Nonempty (Derivation ses (requeue rest bs) a ≃
    Derivation ses rest a ⊕ Derivation ses (.fork bs) a) := by
  unfold requeue
  refine ⟨(ofBranchesEquiv _).trans ?_⟩
  split
  · rename_i none
    have : IsEmpty (Derivation ses rest a) := of_isEmpty none
    exact (Equiv.emptySum ..).symm
  · exact (forkAppend bs).trans ((Equiv.sumComm ..).trans (forkSingle.sumCongr (.refl _)))

/-- An answer that has just come, or one of those behind it. -/
theorem feed_conserves : Nonempty (Derivation ses (feed c rest goal) a ≃
    Derivation ses (.apply goal c) a ⊕ Derivation ses (.bind rest goal) a) := by
  unfold feed
  split
  · rename_i none
    have : IsEmpty (Derivation ses (.bind rest goal) a) :=
      ⟨fun d => (of_isEmpty none).elim (bindEquiv d).2.1⟩
    exact ⟨(Equiv.sumEmpty ..).symm⟩
  · exact plus_conserves ..

/-! ## Steps -/

/-- What a step of a search leaves of its derivations: the answer that is given out counts for one. -/
def Left (ses : Session) : Step → Subst → Type
  | .emit c rest, a => PLift (c = a) ⊕ Derivation ses rest a
  | .continue rest, a => Derivation ses rest a
  | .exhausted, _ => Empty

instance : IsEmpty (Left ses .exhausted a) := inferInstanceAs (IsEmpty Empty)

/-- Answers that go through a goal go through it from the first answer or from a later one. -/
def bindSplit (split : ∀ b, Derivation ses inner b ≃ PLift (c = b) ⊕ Derivation ses rest b) :
    Derivation ses (.bind inner goal) a ≃
      Derivation ses (.apply goal c) a ⊕ Derivation ses (.bind rest goal) a :=
  calc Derivation ses (.bind inner goal) a
    _ ≃ Σ b, Derivation ses inner b × Derivation ses (.apply goal b) a := bindEquiv
    _ ≃ Σ b, PLift (c = b) × Derivation ses (.apply goal b) a ⊕
          Derivation ses rest b × Derivation ses (.apply goal b) a :=
        Equiv.sigmaCongrRight fun b => ((split b).prodCongr (.refl _)).trans (Equiv.sumProdDistrib ..)
    _ ≃ (Σ b, PLift (c = b) × Derivation ses (.apply goal b) a) ⊕
          Σ b, Derivation ses rest b × Derivation ses (.apply goal b) a := Equiv.sigmaSumDistrib ..
    _ ≃ Derivation ses (.apply goal c) a ⊕ Derivation ses (.bind rest goal) a :=
        Equiv.sumCongr
          { toFun := fun ⟨_, ⟨rfl⟩, d⟩ => d
            invFun := fun d => ⟨c, ⟨rfl⟩, d⟩
            left_inv := fun ⟨_, ⟨rfl⟩, _⟩ => rfl
            right_inv := fun _ => rfl }
          bindEquiv.symm

mutual

/-- A step loses no derivation and makes none. -/
theorem step_conserves (ses : Session) (a : Subst) : (search : Search) →
    Nonempty (Derivation ses search a ≃ Left ses (search.step ses).1 a)
  | .empty => ⟨Equiv.equivOfIsEmpty _ (Left ses .exhausted a)⟩
  | .emit _ _ => ⟨emitEquiv⟩
  | .fork branches => by
    rw [step]
    exact stepFork_conserves ses a branches
  | .bind inner goal => by
    have split := fun b => (step_conserves ses b inner).some
    rw [step_bind_eq]
    cases out : (inner.step ses).1 with
    | emit c rest =>
      rw [out] at split
      obtain ⟨fed⟩ : Nonempty (Derivation ses (feed c rest goal) a ≃ _) := feed_conserves
      exact ⟨(bindSplit split).trans fed.symm⟩
    | «continue» rest =>
      rw [out] at split
      exact ⟨bindEquiv.trans ((Equiv.sigmaCongrRight fun b =>
        (split b).prodCongr (.refl _)).trans bindEquiv.symm)⟩
    | exhausted =>
      rw [out] at split
      have : IsEmpty (Derivation ses (.bind inner goal) a) :=
        ⟨fun d => (split _ (bindEquiv d).2.1).elim⟩
      exact ⟨Equiv.equivOfIsEmpty _ (Left ses .exhausted a)⟩
  | .apply _ _ => ⟨applyEquiv⟩
  | .suspend _ => ⟨suspendEquiv⟩

theorem stepFork_conserves (ses : Session) (a : Subst) : (branches : List Search) →
    Nonempty (Derivation ses (.fork branches) a ≃ Left ses (stepFork branches ses).1 a)
  | [] => ⟨Equiv.equivOfIsEmpty _ (Left ses .exhausted a)⟩
  | b :: bs => by
    obtain ⟨split⟩ := step_conserves ses a b
    have parts := forkEquiv.trans (split.sumCongr (.refl (Derivation ses (.fork bs) a)))
    have forked : stepFork (b :: bs) ses = ((b.step ses).1.forked bs, (b.step ses).2) := by
      rw [← step_fork_eq, step]
    rw [forked]
    cases out : (b.step ses).1 with
    | emit c rest =>
      rw [out] at parts
      obtain ⟨queued⟩ : Nonempty (Derivation ses (requeue rest bs) a ≃ _) := requeue_conserves
      exact ⟨parts.trans ((Equiv.sumAssoc ..).trans ((Equiv.refl _).sumCongr queued.symm))⟩
    | «continue» rest =>
      rw [out] at parts
      exact ⟨parts.trans ((Equiv.sumComm ..).trans
        (((Equiv.refl _).sumCongr forkSingle.symm).trans (forkAppend bs).symm))⟩
    | exhausted =>
      rw [out] at parts
      exact ⟨parts.trans ((Equiv.emptySum ..).trans (ofBranchesEquiv bs).symm)⟩

end

end Derivation

end Search

end Regraft
