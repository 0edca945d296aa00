import Regraft.Proofs.Match.Instances
import Regraft.Proofs.Rewriting.Stepping

/-
  Where the identities apply. The rule of all identities is made of seven patterns, one for each identity
  and one more for a product inside a longer one (`Script.Rule.identities_ofPatterns`). One of them matches
  a plain ground tree just if the tree is a sum with a zero among its operands, a product with a one or with
  two equal operands among them, a difference from zero, a quotient by one, or negated twice
  (`Tree.exists_identity_iff`). Operands are those of the whole chain, however it is nested.
-/

namespace Regraft

open Regraft.Tree (Pattern)

namespace Tree

variable {F : Facts} {op : String} {t u w : Tree} {xs ys : List Tree} {attrs : Attrs}
  {θ : UInt32 → Tree} {x : Float}

theorem Equal.size_eq (h : Equal F t u) : t.size = u.size := by
  induction h with
  | refl => rfl
  | symm _ ih => exact ih.symm
  | trans _ _ ih ih' => exact ih.trans ih'
  | const => rfl
  | operand before after _ ih =>
    rw [size_app, size_app, List.map_append, List.map_append, List.map_cons, List.map_cons, ih]
  | permute comm h => rw [size_app, size_app, (h.map size).sum_eq]
  | regroup chain x y z =>
    simp only [size_app, List.map_cons, List.map_nil, List.sum_cons, List.sum_nil]
    omega

/-! ## Chains in two parts -/

/-- A tree whose chain is made of two parts, in any order, is equal to the pair of the parts. -/
theorem Plain.equal_pair (chain : F.isChain op = true) (ht : Plain F t)
    (perm : (items op t).Perm (xs ++ ys)) (hx : xs ≠ []) (hy : ys ≠ []) :
    Equal F (.app op [nested op xs, nested op ys] .unspecified) t :=
  (nested_append chain hx hy).trans ((nested_perm chain perm.symm).trans (ht.equal_nested chain).symm)

/-- What is equal to a pair has the chains of both parts as its chain. -/
theorem Equal.items_pair (chain : F.isChain op = true) (h : Equal F (.app op [u, w] attrs) t) :
    IsApp op t ∧ F.Pairs (Alike F) op (items op u ++ items op w) (items op t) := by
  refine ⟨h.alike.isApp_iff.mp rfl, ?_⟩
  have pairs := h.alike.items chain
  rwa [items_app_self, List.flatMap_cons, List.flatMap_singleton] at pairs

/-! ## Numbers -/

/-- The tree is a constant with the value of a scalar. -/
def HasValue (x : Float) : Tree → Prop
  | leaf l => l.valueEq (.const (.scalar x)) = true
  | _ => False

/-- The leaf of a scalar. -/
abbrev number (x : Float) : Tree := leaf (.const (.scalar x))

theorem plain_number (x : Float) : Plain F (number x) := .leaf rfl

/-- The scalar has its own value, which not-a-number has not. -/
def Ordinary (x : Float) : Prop := (number x).HasValue x

theorem hasValue_iff (ordinary : Ordinary x) (ht : Plain F t) :
    t.HasValue x ↔ Alike F (number x) t := by
  constructor
  · intro value
    cases t with
    | leaf l =>
      refine .leaf (Leaf.Same.symm (Leaf.same_of_valueEq ?_ (fun c eq => ?_) value))
      · exact fun c eq => over_leaf.mp (eq ▸ ht)
      · cases eq
        rfl
    | _ => cases value
  · intro alike
    cases alike with
    | leaf same =>
      rcases same.symm.eq_or_valueEq with rfl | value
      · exact ordinary
      · exact value

theorem HasValue.equal (h : t.HasValue x) (ordinary : Ordinary x) (ht : Plain F t) :
    Equal F (number x) t := ((hasValue_iff ordinary ht).mp h).equal (plain_number x) ht

/-! ## Instances of pairs -/

/-- A tree is equal to a chain with a number just if the number is among the operands. -/
theorem exists_equal_number_iff (chain : F.isChain op = true) (ordinary : Ordinary x)
    (ht : Plain F t) :
    (∃ θ, Equal F ((app op [.var 1, number x] .unspecified).subst θ) t) ↔
      t.IsApp op ∧ ∃ u ∈ t.items op, u.HasValue x := by
  constructor
  · rintro ⟨θ, equal⟩
    obtain ⟨isApp, pairs⟩ := Equal.items_pair (u := θ 1) chain equal
    refine ⟨isApp, ?_⟩
    have value : ∀ u w, Alike F u w ∧ w ∈ items op t → u = number x → w.HasValue x := by
      rintro _ w ⟨alike, mem⟩ rfl
      exact (hasValue_iff ordinary (ht.of_mem_items mem)).mpr alike
    refine (pairs.imp_mem (T := fun u w => Alike F u w ∧ w ∈ items op t) fun u _ w mem alike =>
      ⟨alike, mem⟩).exists_mem value ⟨_, List.mem_append_right _ (.head _), rfl⟩
  · rintro ⟨isApp, u, mem, value⟩
    obtain ⟨before, behind, eq⟩ := List.append_of_mem mem
    have two := (ht.items_length chain).2 isApp
    have perm : (items op t).Perm ((before ++ behind) ++ [u]) := by
      rw [eq]
      exact List.perm_middle.trans (List.perm_append_singleton u _).symm
    have ne : before ++ behind ≠ [] := by
      intro none
      rw [none] at perm
      have := perm.length_eq
      rw [List.nil_append, List.length_singleton] at this
      omega
    have pair := ht.equal_pair chain perm ne (List.cons_ne_nil u [])
    refine ⟨fun _ => nested op (before ++ behind), ?_⟩
    exact (value.equal ordinary (ht.of_mem_items mem)).second.trans pair

theorem Alike.pair_of_ordered (ordered : F.isCommutative op = false)
    (h : Alike F t (.app op [u, w] attrs)) :
    ∃ u' w' a, t = .app op [u', w'] a ∧ Alike F u' u ∧ Alike F w' w := by
  obtain ⟨ws, a, rfl, alike⟩ := h.operands_of_ordered ordered
  match ws, alike with
  | [u', w'], .cons first (.cons second .nil) => exact ⟨u', w', a, rfl, first, second⟩

theorem Alike.single_of_ordered (ordered : F.isCommutative op = false)
    (h : Alike F t (.app op [u] attrs)) : ∃ u' a, t = .app op [u'] a ∧ Alike F u' u := by
  obtain ⟨ws, a, rfl, alike⟩ := h.operands_of_ordered ordered
  match ws, alike with
  | [u'], .cons first .nil => exact ⟨u', a, rfl, first⟩

/-- A tree is equal to an ordered pair with a number just if the number is its second operand. -/
theorem exists_equal_ordered_iff (ordered : F.isCommutative op = false) (ordinary : Ordinary x)
    (ht : Plain F t) :
    (∃ θ, Equal F ((app op [.var 1, number x] .unspecified).subst θ) t) ↔
      ∃ u w a, t = .app op [u, w] a ∧ w.HasValue x := by
  constructor
  · rintro ⟨θ, equal⟩
    have alike : Alike F t (.app op [θ 1, number x] .unspecified) := equal.alike.symm
    obtain ⟨u, w, a, rfl, -, second⟩ := alike.pair_of_ordered ordered
    have plain := (plain_app.mp ht).2 w (by simp)
    exact ⟨u, w, a, rfl, (hasValue_iff ordinary plain).mpr second.symm⟩
  · rintro ⟨u, w, a, rfl, value⟩
    obtain rfl := (plain_app.mp ht).1.1
    exact ⟨fun _ => u, (value.equal ordinary ((plain_app.mp ht).2 w (by simp))).second⟩

/-- A tree is equal to what is applied twice just if it is. -/
theorem exists_equal_twice_iff (ordered : F.isCommutative op = false) (ht : Plain F t) :
    (∃ θ, Equal F ((app op [.app op [.var 1] .unspecified] .unspecified).subst θ) t) ↔
      ∃ u a b, t = .app op [.app op [u] a] b := by
  constructor
  · rintro ⟨θ, equal⟩
    have alike : Alike F t (.app op [.app op [θ 1] .unspecified] .unspecified) := equal.alike.symm
    obtain ⟨_, b, rfl, inner⟩ := alike.single_of_ordered ordered
    obtain ⟨u, a, rfl, -⟩ := inner.single_of_ordered ordered
    exact ⟨u, a, b, rfl⟩
  · rintro ⟨u, a, b, rfl⟩
    obtain rfl := (plain_app.mp ht).1.1
    obtain rfl := (plain_app.mp ((plain_app.mp ht).2 _ (.head _))).1.1
    exact ⟨fun _ => u, .refl _⟩

/-! ## Instances of squares -/

/-- Two operands, in different places, are equal. -/
def Repeats (F : Facts) (ts : List Tree) : Prop :=
  ∃ (i j : Nat) (u w : Tree), i ≠ j ∧ ts[i]? = some u ∧ ts[j]? = some w ∧ Equal F u w

theorem repeats_iff : Repeats F xs ↔ ¬ xs.Pairwise fun u w => ¬ Equal F u w := by
  rw [List.pairwise_iff_getElem]
  constructor
  · rintro ⟨i, j, u, w, ne, hi, hj, equal⟩ none
    obtain ⟨ltI, rfl⟩ := List.getElem?_eq_some_iff.mp hi
    obtain ⟨ltJ, rfl⟩ := List.getElem?_eq_some_iff.mp hj
    rcases Nat.lt_or_gt_of_ne ne with lt | gt
    · exact none i j ltI ltJ lt equal
    · exact none j i ltJ ltI gt equal.symm
  · intro some
    by_contra none
    refine some fun i j hi hj lt equal => none ⟨i, j, _, _, Nat.ne_of_lt lt, ?_, ?_, equal⟩
    · exact List.getElem?_eq_getElem hi
    · exact List.getElem?_eq_getElem hj

/-- Repeating does not depend on the order. -/
theorem Repeats.perm (h : Repeats F xs) (perm : xs.Perm ys) : Repeats F ys := by
  rw [repeats_iff] at h ⊢
  exact fun none => h ((perm.pairwise_iff fun no equal => no equal.symm).mpr none)

/-- Operands that repeat can be taken out of the list. -/
theorem Repeats.exists_perm (h : Repeats F xs) :
    ∃ u w rest, Equal F u w ∧ xs.Perm ([u, w] ++ rest) := by
  obtain ⟨i, j, u, w, ne, hi, hj, equal⟩ := h
  obtain ⟨lt, rfl⟩ := List.getElem?_eq_some_iff.mp hi
  have mem : w ∈ xs.eraseIdx i := List.mem_eraseIdx_iff_getElem?.mpr ⟨j, ne.symm, hj⟩
  obtain ⟨before, behind, eq⟩ := List.append_of_mem mem
  refine ⟨xs[i], w, before ++ behind, equal, ?_⟩
  have perm : (xs[i] :: (before ++ w :: behind)).Perm xs := eq ▸ List.getElem_cons_eraseIdx_perm lt
  exact perm.symm.trans (List.perm_middle.cons _)

/-- Operands that pair up with those of a part that stands there twice repeat. -/
theorem repeats_of_pairs {zs : List Tree} (ne : xs ≠ []) (plain : ∀ t ∈ ys, Plain F t)
    (h : F.Pairs (Alike F) op (xs ++ (xs ++ zs)) ys) : Repeats F ys := by
  obtain ⟨us, arranged, alike⟩ := h.symm (T := fun t u => Alike F t u) fun _ _ => .symm
  obtain ⟨x, rest, rfl⟩ := List.exists_cons_of_ne_nil ne
  -- The first operand and the first one behind the first copy are alike.
  have length := alike.length_eq
  rw [List.length_append, List.length_append, List.length_cons] at length
  have first : (x :: rest ++ (x :: rest ++ zs))[0]? = some x := rfl
  have second : (x :: rest ++ (x :: rest ++ zs))[rest.length + 1]? = some x := by simp
  obtain ⟨lt, first⟩ := List.getElem?_eq_some_iff.mp first
  obtain ⟨lt', second⟩ := List.getElem?_eq_some_iff.mp second
  have here := alike.get (by omega) lt
  have there := alike.get (by omega) lt'
  rw [List.get_eq_getElem, List.get_eq_getElem] at here there
  rw [first] at here
  rw [second] at there
  have repeats : Repeats F us := by
    refine ⟨0, rest.length + 1, _, _, (Nat.succ_ne_zero _).symm,
      List.getElem?_eq_getElem (by omega), List.getElem?_eq_getElem (by omega), ?_⟩
    refine (here.trans there.symm).equal ?_ ?_
    · exact plain _ (arranged.perm.mem_iff.mpr (List.getElem_mem _))
    · exact plain _ (arranged.perm.mem_iff.mpr (List.getElem_mem _))
  exact repeats.perm arranged.perm.symm

/-- A tree is equal to the product of something with itself, or of that with something else, just if two
    of its operands are equal. -/
theorem exists_equal_double_iff (chain : F.isChain op = true) (ht : Plain F t) :
    ((∃ θ, Equal F ((app op [.var 1, .var 1] .unspecified).subst θ) t) ∨
        ∃ θ, Equal F ((app op [.app op [.var 1, .var 1] .unspecified, .var 2] .unspecified).subst θ) t) ↔
      t.IsApp op ∧ Repeats F (t.items op) := by
  have plain : ∀ u ∈ t.items op, Plain F u := fun u mem => ht.of_mem_items mem
  constructor
  · rintro (⟨θ, equal⟩ | ⟨θ, equal⟩)
    · have instanced : Plain F (.app op [θ 1, θ 1] .unspecified) := equal.plain_iff.mpr ht
      have ne := ((plain_app.mp instanced).2 (θ 1) (.head _)).items_ne_nil chain
      obtain ⟨isApp, pairs⟩ := Equal.items_pair (u := θ 1) chain equal
      rw [← List.append_nil (items op (θ 1) ++ _), List.append_assoc] at pairs
      exact ⟨isApp, repeats_of_pairs ne plain pairs⟩
    · have instanced : Plain F (.app op [.app op [θ 1, θ 1] .unspecified, θ 2] .unspecified) :=
        equal.plain_iff.mpr ht
      have both := (plain_app.mp instanced).2 _ (.head _)
      have ne := ((plain_app.mp both).2 (θ 1) (.head _)).items_ne_nil chain
      obtain ⟨isApp, pairs⟩ :=
        Equal.items_pair (u := .app op [θ 1, θ 1] .unspecified) chain equal
      rw [items_app_self, List.flatMap_cons, List.flatMap_singleton, List.append_assoc] at pairs
      exact ⟨isApp, repeats_of_pairs ne plain pairs⟩
  · rintro ⟨isApp, repeats⟩
    obtain ⟨u, w, rest, equal, perm⟩ := repeats.exists_perm
    cases rest with
    | nil =>
      have perm : (t.items op).Perm ([u] ++ [w]) := perm
      have pair : Equal F (.app op [u, w] .unspecified) t :=
        ht.equal_pair chain perm (List.cons_ne_nil _ _) (List.cons_ne_nil _ _)
      exact .inl ⟨fun _ => u, equal.second.trans pair⟩
    | cons v rest =>
      have pair : Equal F (.app op [.app op [u, w] .unspecified, nested op (v :: rest)] .unspecified) t :=
        ht.equal_pair chain perm (List.cons_ne_nil _ _) (List.cons_ne_nil _ _)
      refine .inr ⟨fun n => if n = 1 then u else nested op (v :: rest), ?_⟩
      exact equal.second.first.trans pair

/-! ## Where the identities apply -/

/-- One of the identities can be used on a tree itself. Sums and products count with all operands of
    their chains. -/
inductive Cancels (F : Facts) : Tree → Prop
  | addZero {t u : Tree} (sum : t.IsApp "add") (mem : u ∈ t.items "add") (zero : u.HasValue 0.0) :
      Cancels F t
  | mulOne {t u : Tree} (product : t.IsApp "mul") (mem : u ∈ t.items "mul") (one : u.HasValue 1.0) :
      Cancels F t
  | subZero {t u : Tree} {attrs : Attrs} (zero : u.HasValue 0.0) : Cancels F (.app "sub" [t, u] attrs)
  | divOne {t u : Tree} {attrs : Attrs} (one : u.HasValue 1.0) : Cancels F (.app "div" [t, u] attrs)
  | negNeg {t : Tree} {a b : Attrs} : Cancels F (.app "neg" [.app "neg" [t] a] b)
  | mulSelf {t : Tree} (product : t.IsApp "mul") (repeats : Repeats F (t.items "mul")) : Cancels F t

namespace Pattern

/-- What `x` combined with a number by an operator becomes is `x`. -/
def neutral (op : String) (x : Float) : Pattern :=
  ⟨0, .app op [.var 1, number x] .unspecified, .var 1⟩

def negNeg : Pattern :=
  ⟨0, .app "neg" [.app "neg" [.var 1] .unspecified] .unspecified, .var 1⟩

def mulSelf : Pattern :=
  ⟨0, .app "mul" [.var 1, .var 1] .unspecified, .app "square" [.var 1] .unspecified⟩

/-- The patterns of the identities. The variable 0 is the witness, 1 is `x`, and 2 is the rest of a
    product. -/
inductive IsIdentity : Pattern → Prop
  | addZero : IsIdentity (neutral "add" 0.0)
  | mulOne : IsIdentity (neutral "mul" 1.0)
  | subZero : IsIdentity (neutral "sub" 0.0)
  | divOne : IsIdentity (neutral "div" 1.0)
  | negNeg : IsIdentity negNeg
  | mulSelf : IsIdentity mulSelf
  | mulSelfBeside : IsIdentity (mulSelf.beside "mul" 2)

end Pattern

end Tree

/-- The facts that sums and products commute and associate. -/
abbrev Facts.standard : Facts := Session.standard.facts

namespace Tree

open Pattern (IsIdentity)

variable {p : Pattern} {σ : UInt32 → Tree}

namespace Pattern.IsIdentity

theorem own (h : IsIdentity p) : ¬ p.lhs.HasVar p.witness := by
  cases h <;> simp [neutral, Pattern.negNeg, Pattern.mulSelf, beside]

theorem hasVar (h : IsIdentity p) {v : UInt32} (hv : p.rhs.HasVar v) : p.lhs.HasVar v := by
  cases h <;> simpa [neutral, Pattern.negNeg, Pattern.mulSelf, beside] using hv

theorem plain (h : IsIdentity p) : Plain .standard p.lhs ∧ Plain .standard p.rhs := by
  have var : ∀ v, Plain .standard (.var v) := .var
  have alone : ∀ {op : String} {t : Tree}, Facts.standard.isChain op = false → Plain .standard t →
      Plain .standard (.app op [t] .unspecified) := fun single ht =>
    plain_app.mpr ⟨⟨rfl, fun chain => absurd (single.symm.trans chain) Bool.false_ne_true⟩,
      List.forall_mem_singleton.mpr ht⟩
  have number : ∀ op x, Plain .standard (neutral op x).lhs := fun op x =>
    plain_pair rfl (var 1) (plain_number x)
  have product : Plain .standard Pattern.mulSelf.lhs := plain_pair rfl (var 1) (var 1)
  have square : Plain .standard Pattern.mulSelf.rhs := alone rfl (var 1)
  cases h with
  | negNeg => exact ⟨alone rfl (alone rfl (var 1)), var 1⟩
  | mulSelf => exact ⟨product, square⟩
  | mulSelfBeside => exact ⟨plain_pair rfl product (var 2), plain_pair rfl square (var 2)⟩
  | _ => exact ⟨number _ _, var 1⟩

/-- The pattern is used where the tree is equal to an instance of it. -/
theorem exists_binds_iff (h : IsIdentity p) (ht : Plain .standard t) (ground : t.Ground) :
    (∃ σ, p.Binds .standard t σ) ↔ ∃ θ, Equal .standard (p.lhs.subst θ) t := by
  rw [← exists_matches_iff ht ground h.plain.1]
  exact ⟨fun ⟨_, τ, matched, _⟩ => ⟨τ, matched⟩, fun ⟨_, matched⟩ => ⟨_, .of_matches matched h.own⟩⟩

/-- The witness is not in the replacement. -/
theorem subst_andThen (h : IsIdentity p) {τ : UInt32 → Tree} (matched : Matches F [(t, p.lhs)] τ) :
    p.rhs.subst (andThen τ (only p.witness t)) = p.rhs.subst τ := subst_congr fun _ hv =>
  (matched.ground (List.mem_singleton_self _) (h.hasVar hv)).subst _

/-- What an identity makes of a tree is smaller. -/
theorem shrinks (h : IsIdentity p) (ht : Plain .standard t) (bound : p.Binds .standard t σ) :
    Plain .standard (p.rhs.subst σ) ∧ (p.rhs.subst σ).size < t.size := by
  obtain ⟨τ, matched, -, rfl⟩ := bound
  have equal : Equal .standard (p.lhs.subst τ) t :=
    matched.equal (List.forall_mem_singleton.mpr ⟨ht, h.plain.1⟩) _ (.head _)
  rw [h.subst_andThen matched]
  constructor
  · exact over_subst h.plain.2 fun v hv => (equal.plain_iff.mpr ht).of_subst (h.hasVar hv)
  · have pos : 0 < (τ 1).size := by
      cases τ 1 <;> exact Nat.succ_pos _
    rw [← equal.size_eq]
    cases h <;> simp [neutral, Pattern.negNeg, Pattern.mulSelf, beside, size_app] <;> omega

end Pattern.IsIdentity

/-- An identity can be used on a tree just if the tree has what it cancels. -/
theorem exists_identity_iff (ht : Plain .standard t) (ground : t.Ground) :
    (∃ p, IsIdentity p ∧ ∃ σ, p.Binds .standard t σ) ↔ Cancels .standard t := by
  have add : Facts.standard.isChain "add" = true := rfl
  have mul : Facts.standard.isChain "mul" = true := rfl
  have zero : Ordinary 0.0 := by
    show Leaf.valueEq _ _ = true
    decide +kernel
  have one : Ordinary 1.0 := by
    show Leaf.valueEq _ _ = true
    decide +kernel
  constructor
  · rintro ⟨p, identity, bound⟩
    rw [identity.exists_binds_iff ht ground] at bound
    cases identity with
    | addZero =>
      obtain ⟨sum, u, mem, value⟩ := (exists_equal_number_iff add zero ht).mp bound
      exact .addZero sum mem value
    | mulOne =>
      obtain ⟨product, u, mem, value⟩ := (exists_equal_number_iff mul one ht).mp bound
      exact .mulOne product mem value
    | subZero =>
      obtain ⟨u, w, a, rfl, value⟩ := (exists_equal_ordered_iff rfl zero ht).mp bound
      exact .subZero value
    | divOne =>
      obtain ⟨u, w, a, rfl, value⟩ := (exists_equal_ordered_iff rfl one ht).mp bound
      exact .divOne value
    | negNeg =>
      obtain ⟨u, a, b, rfl⟩ := (exists_equal_twice_iff rfl ht).mp bound
      exact .negNeg
    | mulSelf =>
      obtain ⟨product, repeats⟩ := (exists_equal_double_iff mul ht).mp (.inl bound)
      exact .mulSelf product repeats
    | mulSelfBeside =>
      obtain ⟨product, repeats⟩ := (exists_equal_double_iff mul ht).mp (.inr bound)
      exact .mulSelf product repeats
  · intro cancels
    have used {p : Pattern} (identity : IsIdentity p)
        (equal : ∃ θ, Equal .standard (p.lhs.subst θ) t) :
        ∃ p, IsIdentity p ∧ ∃ σ, p.Binds .standard t σ :=
      ⟨p, identity, (identity.exists_binds_iff ht ground).mpr equal⟩
    cases cancels with
    | addZero sum mem value =>
      exact used .addZero ((exists_equal_number_iff add zero ht).mpr ⟨sum, _, mem, value⟩)
    | mulOne product mem value =>
      exact used .mulOne ((exists_equal_number_iff mul one ht).mpr ⟨product, _, mem, value⟩)
    | subZero value =>
      exact used .subZero ((exists_equal_ordered_iff rfl zero ht).mpr ⟨_, _, _, rfl, value⟩)
    | divOne value =>
      exact used .divOne ((exists_equal_ordered_iff rfl one ht).mpr ⟨_, _, _, rfl, value⟩)
    | negNeg => exact used .negNeg ((exists_equal_twice_iff rfl ht).mpr ⟨_, _, _, rfl⟩)
    | mulSelf product repeats =>
      rcases (exists_equal_double_iff mul ht).mpr ⟨product, repeats⟩ with equal | equal
      · exact used .mulSelf equal
      · exact used .mulSelfBeside equal

end Tree

/-! ## The rule of all identities -/

open Regraft.Tree.Pattern (IsIdentity)

namespace Script

variable {base : Session} {lhs rhs : Template} {p : Pattern}

namespace Rule

/-- The rules of the identities, each with its patterns. -/
def identityPatterns : List (Regraft.Rule × Set Pattern) := [
  (addZero.build [], {Pattern.neutral "add" 0.0}),
  (mulOne.build [], {Pattern.neutral "mul" 1.0}),
  (subZero.build [], {Pattern.neutral "sub" 0.0}),
  (divOne.build [], {Pattern.neutral "div" 1.0}),
  (negNeg.build [], {Pattern.negNeg}),
  (mulSelf.build [], {Pattern.mulSelf, Pattern.mulSelf.beside "mul" 2})]

theorem build_identities : identities.build [] =
    Regraft.Rule.any "identities" (identityPatterns.map Prod.fst) := by
  rw [identities, Rule.build]
  rfl

end Rule

end Script

end Regraft
