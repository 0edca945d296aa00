/-
  The decimal of fewest digits that reads back as a given double.
  A finite double is `mantissa * 2 ^ exponent`; the reals that round to it form an interval, closed
  exactly when the mantissa is even. `shortest` tries the decimal grids from one digit to seventeen
  and takes the first that has a point in the interval, the nearer one of two.
-/

namespace Regraft.Decimal

/-- The magnitude `mantissa * 2 ^ exponent` of a finite double. -/
structure Magnitude where
  mantissa : Nat
  exponent : Int
  /-- The next smaller double is only half as far away as the next larger one. -/
  tightBelow : Bool
deriving DecidableEq, Repr

/-- Read the magnitude off the bit pattern of a finite double. -/
def Magnitude.ofBits (bits : UInt64) : Magnitude :=
  let biased := ((bits >>> 52) &&& 0x7FF).toNat
  let fraction := (bits &&& 0xFFFFFFFFFFFFF).toNat
  if biased = 0 then ⟨fraction, -1074, false⟩
  else ⟨0x10000000000000 + fraction, (biased : Int) - 1075, fraction = 0 ∧ 1 < biased⟩

/-- The decimal `digits * 10 ^ exponent`. -/
structure Numeral where
  digits : Nat
  exponent : Int
deriving DecidableEq, Repr

/-- Which of two equally near decimals is taken. -/
inductive Tie
  | even
  | up
deriving DecidableEq, Repr

/-- The grid of multiples of `10 ^ exponent`, seen from quarter units of a magnitude:
    `d` on the grid and `n` quarter units compare as `d * gridUnit` and `n * quarterUnit`. -/
structure Grid where
  exponent : Int
  gridUnit : Nat
  quarterUnit : Nat

def Magnitude.grid (x : Magnitude) (exponent : Int) : Grid :=
  let quarter := x.exponent - 2
  { exponent
    gridUnit := Nat.pow 10 exponent.toNat * Nat.pow 2 (-quarter).toNat
    quarterUnit := Nat.pow 2 quarter.toNat * Nat.pow 10 (-exponent).toNat }

/-- The multiple `d` of the grid lies among the reals that round to `x`. -/
def Magnitude.readsBack (x : Magnitude) (g : Grid) (d : Nat) : Bool :=
  let low := (4 * x.mantissa - if x.tightBelow then 1 else 2) * g.quarterUnit
  let high := (4 * x.mantissa + 2) * g.quarterUnit
  let point := d * g.gridUnit
  if x.mantissa % 2 = 0 then low ≤ point && point ≤ high else low < point && point < high

/-- The better of the two neighbours of `x` on a grid, if one of them reads back. -/
def Magnitude.onGrid (x : Magnitude) (tie : Tie) (g : Grid) : Option Nat :=
  let value := 4 * x.mantissa * g.quarterUnit
  let below := value / g.gridUnit
  match x.readsBack g below, x.readsBack g (below + 1) with
  | false, false => none
  | true, false => some below
  | false, true => some (below + 1)
  | true, true =>
    let middle := (2 * below + 1) * g.gridUnit
    if 2 * value < middle then some below
    else if middle < 2 * value then some (below + 1)
    else match tie with
      | .up => some (below + 1)
      | .even => some (below + below % 2)

/-- `x < 10 ^ k`. -/
def Magnitude.below (x : Magnitude) (k : Int) : Bool :=
  4 * x.mantissa * (x.grid k).quarterUnit < (x.grid k).gridUnit

/-- The number of digits before the point: the least `k` with `x < 10 ^ k`. The binary logarithm
    gives it up to one, since `log 2 / log 10` is close to `30103 / 100000`. -/
def Magnitude.scale (x : Magnitude) : Int :=
  let guess := ((x.mantissa.log2 : Int) + x.exponent) * 30103 / 100000 + 1
  ([guess - 1, guess, guess + 1].find? x.below).getD (guess + 2)

/-- Move trailing zeros of the digits into the exponent, at most `fuel` of them. -/
def strip : Nat → Numeral → Numeral
  | 0, d => d
  | fuel + 1, d =>
    if d.digits ≠ 0 ∧ d.digits % 10 = 0 then strip fuel ⟨d.digits / 10, d.exponent + 1⟩ else d

/-- The decimal with fewest digits that reads back as `x`, the nearest to `x` of those.
    Seventeen digits are always enough; the last branch is the exact value. -/
def Magnitude.shortest (x : Magnitude) (tie : Tie) : Numeral :=
  if x.mantissa = 0 then ⟨0, 0⟩ else
  let k := x.scale
  let found := (List.range 17).findSome? fun (n : Nat) =>
    let g := x.grid (k - (n + 1))
    (x.onGrid tie g).map fun d => Numeral.mk d g.exponent
  match found with
  | some d => strip 18 d
  | none =>
    if 0 ≤ x.exponent then ⟨x.mantissa * Nat.pow 2 x.exponent.toNat, 0⟩
    else ⟨x.mantissa * Nat.pow 5 (-x.exponent).toNat, x.exponent⟩

/-- `num / den` rounded to the nearest natural, ties to the even one. -/
def roundDiv (num den : Nat) : Nat :=
  let q := num / den
  let r := num % den
  if 2 * r < den then q
  else if den < 2 * r then q + 1
  else q + q % 2

end Regraft.Decimal
