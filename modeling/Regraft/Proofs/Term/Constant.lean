import Regraft.Term.Constant
import Mathlib.Data.List.Forall2

/-
  Equality of constants. On doubles `==` identifies the two zeros and sets not-a-number apart; for
  all other values it is equality, so that values that are `==` have one canonical form
  (`canonical_eq_of_beq`). Canonical forms are equal when their bits are (`canonical_eq_iff`). Constants
  that fill their shapes are the same when they are identical or match by value, which is an equivalence
  (`Constant.Same`).
-/

namespace Regraft

open Float.Model Float.Model.UnpackedFloat

/-! ## Doubles -/

/-- Two unpacked numbers that compare equal are identical or both zero. -/
theorem eq_or_zero_of_compare {u v : UnpackedFloat} (h : u.compare v = some .eq) :
    u = v ∨ (∃ s, u = .zero s) ∧ ∃ s, v = .zero s := by
  cases u with
  | infinity s => cases v with
    | infinity t => cases s <;> cases t <;> first | exact .inl rfl | cases h
    | notANumber => cases s <;> cases h
    | zero t => cases s <;> cases h
    | finite t m e hm => cases s <;> cases h
  | notANumber => cases h
  | zero s => cases v with
    | zero t => exact .inr ⟨⟨s, rfl⟩, t, rfl⟩
    | infinity t => cases t <;> cases h
    | notANumber => cases h
    | finite t m e hm => cases t <;> cases h
  | finite s m e hm => cases v with
    | finite t n f hn =>
      have key (same : (compare e f).then (compare m n) = .eq) : e = f ∧ m = n := by
        rwa [Ordering.then_eq_eq, Int.compare_eq_eq, Nat.compare_eq_eq] at same
      cases s with
      | positive => cases t with
        | positive =>
          obtain ⟨rfl, rfl⟩ := key (Option.some.inj h)
          exact .inl rfl
        | negative => cases h
      | negative => cases t with
        | positive => cases h
        | negative =>
          obtain ⟨rfl, rfl⟩ := key (Ordering.swap_eq_eq.mp (Option.some.inj h))
          exact .inl rfl
    | infinity t => cases s <;> cases t <;> cases h
    | notANumber => cases s <;> cases h
    | zero t => cases s <;> cases h

/-- The bits of a double. -/
def word (x : Float) : BitVec Format.binary64.numBits := x.toModel.toBits.toBitVec

/-- A word is determined by its sign, exponent and mantissa. -/
theorem word_ext {b c : BitVec Format.binary64.numBits} (hs : unpackSign b = unpackSign c)
    (he : unpackExponent b = unpackExponent c) (hm : unpackMantissa b = unpackMantissa c) :
    b = c := by
  have hs' := congrArg BitVec.toNat hs
  have he' := congrArg BitVec.toNat he
  have hm' := congrArg BitVec.toNat hm
  have hb : b.toNat < 2 ^ 64 := b.isLt
  have hc : c.toNat < 2 ^ 64 := c.isLt
  have sign (d : BitVec Format.binary64.numBits) : unpackSign d = d.extractLsb 63 63 := rfl
  simp [sign, unpackExponent, unpackMantissa, BitVec.extractLsb, Nat.shiftRight_eq_div_pow]
    at hs' he' hm'
  apply BitVec.eq_of_toNat_eq
  omega

/-- The sign, exponent and mantissa that an unpacked number came from. -/
def packedParts : UnpackedFloat → Nat × Nat × Nat
  | .infinity s => (s.toBitVec.toNat, 2047, 0)
  | .notANumber => (0, 2047, 0x8000000000000)
  | .zero s => (s.toBitVec.toNat, 0, 0)
  | .finite s m e _ => (s.toBitVec.toNat, if m < 0x10000000000000 then 0 else (e + 1075).toNat,
      m % 0x10000000000000)

theorem packedParts_finite (s : Sign) (m : Nat) (e : Int) (pos : 0 < m) :
    packedParts (.finite s m e pos) = (s.toBitVec.toNat,
      if m < 0x10000000000000 then 0 else (e + 1075).toNat, m % 0x10000000000000) := rfl

theorem toBitVec_ofBitVec (b : BitVec 1) : (Sign.ofBitVec b).toBitVec = b := by
  have := b.isLt
  apply BitVec.eq_of_toNat_eq
  unfold Sign.ofBitVec
  split <;> rename_i h <;> rw [← BitVec.toNat_inj] at h <;> simp [Sign.toBitVec] at h ⊢ <;> omega

theorem one_append_toNat (m : BitVec 52) : (1#1 ++ m).toNat = 0x10000000000000 + m.toNat := by
  rw [BitVec.toNat_append, ← Nat.shiftLeft_add_eq_or_of_lt m.isLt]
  simp [Nat.shiftLeft_eq]

theorem packedParts_unpack (x : Float) :
    packedParts x.toModel.unpack = ((unpackSign (word x)).toNat, (unpackExponent (word x)).toNat,
      (unpackMantissa (word x)).toNat) := by
  have hnan : unpackExponent (word x) = -1#_ → unpackMantissa (word x) ≠ 0#_ →
      word x = packedNaN .binary64 := x.toModel.valid.eq_packedNaN
  have hm := (unpackMantissa (word x)).isLt
  have he := (unpackExponent (word x)).isLt
  change packedParts (UnpackedFloat.unpack _ (word x)) = _
  generalize word x = b at *
  delta UnpackedFloat.unpack
  dsimp only
  by_cases h1 : unpackExponent b = -1#_
  · rw [if_pos h1]
    by_cases h2 : unpackMantissa b = 0#_
    · rw [if_pos h2]
      show ((Sign.ofBitVec (unpackSign b)).toBitVec.toNat, 2047, 0) = _
      rw [toBitVec_ofBitVec, h1, h2]
      rfl
    · rw [hnan h1 h2]
      decide
  rw [if_neg h1]
  by_cases h2 : unpackExponent b = 0#_
  · rw [if_pos h2]
    by_cases h3 : unpackMantissa b = 0#_
    · rw [dif_pos h3]
      show ((Sign.ofBitVec (unpackSign b)).toBitVec.toNat, 0, 0) = _
      rw [toBitVec_ofBitVec, h2, h3]
      rfl
    · rw [dif_neg h3]
      have hm : (unpackMantissa b).toNat < 0x10000000000000 := hm
      rw [packedParts_finite, toBitVec_ofBitVec, if_pos hm, Nat.mod_eq_of_lt hm, h2]
      rfl
  · rw [if_neg h2]
    have hm : (unpackMantissa b).toNat < 0x10000000000000 := hm
    have unbiased (e : Nat) : ((e : Int) - (Format.binary64.exponentBias +
        Format.binary64.mantissaBitsWithoutImplicit : Int) + 1075).toNat = e := by
      show ((e : Int) - (1023 + 52) + 1075).toNat = e
      omega
    rw [packedParts_finite, toBitVec_ofBitVec, one_append_toNat, if_neg (by omega),
      Nat.add_mod_left, Nat.mod_eq_of_lt hm]
    exact congrArg (fun e => (_, e, _)) (unbiased _)

theorem unpack_inj {x y : Float} (h : x.toModel.unpack = y.toModel.unpack) : x = y := by
  have hp := congrArg packedParts h
  rw [packedParts_unpack, packedParts_unpack, Prod.mk.injEq, Prod.mk.injEq] at hp
  obtain ⟨hs, he, hm⟩ := hp
  have hw : word x = word y := word_ext (BitVec.eq_of_toNat_eq hs) (BitVec.eq_of_toNat_eq he)
    (BitVec.eq_of_toNat_eq hm)
  obtain ⟨⟨b, hb⟩⟩ := x
  obtain ⟨⟨c, hc⟩⟩ := y
  obtain rfl : b = c := UInt64.toBitVec_inj.mp hw
  rfl

theorem beq_zero_iff {x : Float} : (x == 0.0) = true ↔ ∃ s, x.toModel.unpack = .zero s := by
  have zero : (0.0 : Float).toModel.unpack = .zero .positive := by rfl
  change (x.toModel.unpack.compare (0.0 : Float).toModel.unpack == some .eq) = true ↔ _
  rw [zero, beq_iff_eq]
  constructor
  · intro h
    rcases eq_or_zero_of_compare h with h | ⟨h, _⟩
    · exact ⟨_, h⟩
    · exact h
  · rintro ⟨s, h⟩
    rw [h]
    rfl

/-- `==` holds between identical numbers that equal themselves, and between zeros. -/
theorem beq_iff {x y : Float} :
    (x == y) = true ↔ (x = y ∧ (x == x) = true) ∨ (x == 0.0) = true ∧ (y == 0.0) = true := by
  constructor
  · intro h
    have hc : (x.toModel.unpack.compare y.toModel.unpack == some .eq) = true := h
    rw [beq_iff_eq] at hc
    rcases eq_or_zero_of_compare hc with hc | ⟨hx, hy⟩
    · obtain rfl := unpack_inj hc
      exact .inl ⟨rfl, h⟩
    · exact .inr ⟨beq_zero_iff.mpr hx, beq_zero_iff.mpr hy⟩
  · rintro (⟨rfl, h⟩ | ⟨hx, hy⟩)
    · exact h
    · obtain ⟨s, hx⟩ := beq_zero_iff.mp hx
      obtain ⟨t, hy⟩ := beq_zero_iff.mp hy
      change (x.toModel.unpack.compare y.toModel.unpack == some .eq) = true
      rw [hx, hy]
      rfl

theorem beq_symm {x y : Float} (h : (x == y) = true) : (y == x) = true := by
  rcases beq_iff.mp h with ⟨rfl, h⟩ | ⟨hx, hy⟩
  · exact h
  · exact beq_iff.mpr (.inr ⟨hy, hx⟩)

theorem beq_trans {x y z : Float} (hxy : (x == y) = true) (hyz : (y == z) = true) :
    (x == z) = true := by
  rcases beq_iff.mp hxy with ⟨rfl, _⟩ | ⟨hx, hy⟩
  · exact hyz
  · rcases beq_iff.mp hyz with ⟨rfl, _⟩ | ⟨_, hz⟩
    · exact hxy
    · exact beq_iff.mpr (.inr ⟨hx, hz⟩)

/-- Doubles that are `==` have the same canonical form. -/
theorem canonical_eq_of_beq {x y : Float} (h : (x == y) = true) : canonical x = canonical y := by
  rcases beq_iff.mp h with ⟨rfl, _⟩ | ⟨hx, hy⟩
  · rfl
  · simp [canonical, hx, hy]

/-- The bits that a double is told apart by: those of positive zero for both zeros, and those of one
    not-a-number for all. -/
def canonicalBits (x : Float) : UInt64 :=
  if x == 0.0 then (0.0 : Float).toBits else if x.isNaN then 0x7FF8000000000000 else x.toBits

theorem toBits_inj {x y : Float} : x.toBits = y.toBits ↔ x = y := by
  constructor
  · intro h
    obtain ⟨⟨b, hb⟩⟩ := x
    obtain ⟨⟨c, hc⟩⟩ := y
    obtain rfl : b = c := h
    rfl
  · rintro rfl
    rfl

theorem toBits_of_isNaN {x : Float} (h : x.isNaN = true) : x.toBits = 0x7FF8000000000000 := by
  have nan : x.toModel.unpack = .notANumber := by
    change x.toModel.unpack.isNaN = true at h
    cases unpacked : x.toModel.unpack <;> rw [unpacked] at h <;> first | rfl | cases h
  have other : (0.0 / 0.0 : Float).toModel.unpack = .notANumber := by rfl
  rw [unpack_inj (nan.trans other.symm)]
  decide

/-- Doubles have one canonical form when they have the same canonical bits. -/
theorem canonical_eq_iff {x y : Float} : canonical x = canonical y ↔ canonicalBits x = canonicalBits y := by
  have bits : ∀ x, canonicalBits x = (canonical x).toBits := by
    intro x
    unfold canonicalBits canonical
    split
    · rfl
    · split
      · rename_i nan
        exact (toBits_of_isNaN nan).symm
      · rfl
  rw [bits, bits, toBits_inj]

/-! ## Constants -/

/-- A relation that is transitive at the places of lists is transitive on the lists. -/
theorem forall₂_trans {α β γ : Type*} {R : α → β → Prop} {S : β → γ → Prop} {T : α → γ → Prop}
    (h : ∀ a b c, R a b → S b c → T a c) {xs : List α} {ys : List β} {zs : List γ}
    (hxy : List.Forall₂ R xs ys) (hyz : List.Forall₂ S ys zs) : List.Forall₂ T xs zs := by
  induction hxy generalizing zs with
  | nil =>
    cases hyz
    exact .nil
  | cons hab _ ih =>
    cases hyz with
    | cons hbc hyz => exact .cons (h _ _ _ hab hbc) (ih hyz)

namespace Constant

/-- Constants are equal when they agree in element type, shape and canonical bits. -/
theorem ofTensor_eq_iff {a b : Tensor} {e f : ElemType} :
    ofTensor a e = ofTensor b f ↔
      e = f ∧ a.shape = b.shape ∧ a.data.map canonicalBits = b.data.map canonicalBits := by
  have values : ∀ xs ys : List Float, xs.map canonical = ys.map canonical ↔
      xs.map canonicalBits = ys.map canonicalBits := by
    intro xs ys
    rw [← List.forall₂_eq_eq_eq, ← List.forall₂_eq_eq_eq, List.forall₂_map_left_iff,
      List.forall₂_map_right_iff, List.forall₂_map_left_iff, List.forall₂_map_right_iff]
    simp only [canonical_eq_iff]
  rw [ofTensor, ofTensor, Constant.mk.injEq, values]

/-- The values fill the shape. -/
def Fills (c : Constant) : Prop := c.shape.numel = c.values.length

instance (c : Constant) : Decidable c.Fills := inferInstanceAs (Decidable (_ = _))

/-- Identical, or of one shape with values that are `==` place by place. -/
def Same (c d : Constant) : Prop :=
  c = d ∨ c.shape = d.shape ∧ List.Forall₂ (fun x y => (x == y) = true) c.values d.values

theorem Same.refl (c : Constant) : c.Same c := .inl rfl

theorem Same.symm {c d : Constant} (h : c.Same d) : d.Same c := by
  rcases h with rfl | ⟨hs, hv⟩
  · exact .inl rfl
  · refine .inr ⟨hs.symm, List.Forall₂.flip (hv.imp fun x y hxy => ?_)⟩
    exact beq_symm hxy

theorem Same.trans {c d e : Constant} (hcd : c.Same d) (hde : d.Same e) : c.Same e := by
  rcases hcd with rfl | ⟨hs, hv⟩
  · exact hde
  · rcases hde with rfl | ⟨ht, hw⟩
    · exact .inr ⟨hs, hv⟩
    · refine .inr ⟨hs.trans ht, ?_⟩
      refine forall₂_trans (fun x y z hxy hyz => ?_) hv hw
      exact beq_trans hxy hyz

/-- Constants that fill their shapes and match by value are the same. -/
theorem same_of_valueEq {c d : Constant} (hc : c.Fills) (hd : d.Fills) (h : c.valueEq d = true) :
    c.Same d := by
  simp only [valueEq, Bool.and_eq_true, decide_eq_true_eq, List.all_eq_true] at h
  obtain ⟨hs, hv⟩ := h
  have hl : c.values.length = d.values.length := by rw [← hc, ← hd, hs]
  refine .inr ⟨hs, List.forall₂_iff_zip.mpr ⟨hl, fun {x y} hxy => ?_⟩⟩
  exact hv (x, y) hxy

theorem Same.eq_or_valueEq {c d : Constant} (h : c.Same d) : c = d ∨ c.valueEq d = true := by
  rcases h with rfl | ⟨shape, values⟩
  · exact .inl rfl
  · unfold valueEq
    simp only [shape, decide_true, Bool.true_and, List.all_eq_true]
    refine .inr ?_
    rintro ⟨x, y⟩ hxy
    exact List.forall₂_zip values hxy

/-- The same constants have one shape and the same canonical values. -/
theorem Same.canonical_eq {c d : Constant} (h : c.Same d) :
    c.shape = d.shape ∧ c.values.map canonical = d.values.map canonical := by
  rcases h with rfl | ⟨hs, hv⟩
  · exact ⟨rfl, rfl⟩
  · refine ⟨hs, ?_⟩
    rw [← List.forall₂_eq_eq_eq, List.forall₂_map_left_iff, List.forall₂_map_right_iff]
    exact hv.imp fun _ _ => canonical_eq_of_beq

end Constant

end Regraft
