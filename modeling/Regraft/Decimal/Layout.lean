import Regraft.Decimal.Shortest

/-
  Writing a double as text: the shortest digits laid out by a format's decisions, or a fixed
  number of places.
-/

namespace Regraft.Decimal

/-- What a number format decides once the digits are known. -/
structure Layout where
  /-- Written without an exponent when the leading digit stands for this power of ten. -/
  positional : Int → Bool
  /-- Whole numbers are written with `.0`. -/
  pointZero : Bool
  /-- Exponents from zero up carry a plus sign. -/
  plus : Bool
  tie : Tie
  nan : String
  infinity : String

/-- Decimal digits of a natural, most significant first. -/
def digitChars (n : Nat) : List Char := Nat.toDigits 10 n

/-- The digits with the point in place: `point` digits stand before it. -/
def placePoint (pointZero : Bool) (digits : List Char) (point : Int) : List Char :=
  if point ≤ 0 then '0' :: '.' :: (List.replicate (-point).toNat '0' ++ digits)
  else
    let whole := digits.take point.toNat
    let rest := digits.drop point.toNat
    let padded := whole ++ List.replicate (point.toNat - digits.length) '0'
    match rest with
    | [] => if pointZero then padded ++ ['.', '0'] else padded
    | _ => padded ++ '.' :: rest

/-- Decimal text of an integer. -/
def intChars (n : Int) : List Char :=
  if n < 0 then '-' :: digitChars n.natAbs else digitChars n.natAbs

/-- One digit, the point and the others when there are any, and the power of ten. -/
def scientific (plus : Bool) (digits : List Char) (power : Int) : List Char :=
  let head := digits.take 1
  let fraction := match digits.drop 1 with
    | [] => []
    | rest => '.' :: rest
  let sign := if plus ∧ 0 ≤ power then ['+'] else []
  head ++ fraction ++ 'e' :: sign ++ intChars power

/-- The text of a non-negative decimal. -/
def Layout.decimal (l : Layout) (d : Numeral) : List Char :=
  if d.digits = 0 then if l.pointZero then ['0', '.', '0'] else ['0'] else
  let digits := digitChars d.digits
  let power := d.exponent + digits.length - 1
  if l.positional power then placePoint l.pointZero digits (power + 1)
  else scientific l.plus digits power

/-- The sign bit is set. -/
def negative (x : Float) : Bool := x.toBits >>> 63 = 1

/-- A minus sign for the values whose sign bit is set. -/
def signed (x : Float) (text : List Char) : String :=
  String.ofList (if negative x then '-' :: text else text)

/-- The text of a double in a layout. -/
def Layout.render (l : Layout) (x : Float) : String :=
  if x.isNaN then l.nan
  else if x.isInf then signed x l.infinity.toList
  else signed x (l.decimal ((Magnitude.ofBits x.toBits).shortest l.tie))

/-- The text of a double with `places` digits after the point; the exact value is rounded and a
    tie goes to the even digit. -/
def fixed (places : Nat) (x : Float) : String :=
  if x.isNaN then "NaN"
  else if x.isInf then signed x "inf".toList
  else
    let m := Magnitude.ofBits x.toBits
    let scaled := m.mantissa * Nat.pow 2 m.exponent.toNat * Nat.pow 10 places
    let units := roundDiv scaled (Nat.pow 2 (-m.exponent).toNat)
    let digits := digitChars units
    let padded := List.replicate (places + 1 - digits.length) '0' ++ digits
    let whole := padded.take (padded.length - places)
    let rest := padded.drop (padded.length - places)
    signed x (if places = 0 then whole else whole ++ '.' :: rest)

end Regraft.Decimal
