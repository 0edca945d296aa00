import Regraft.Decimal.Layout

/-
  How numbers stand in texts: alone, or in a list.
-/

namespace Regraft

/-- A single number has no point unless it needs one, and never an exponent. -/
def plainNumber : Decimal.Layout where
  positional _ := true
  pointZero := false
  plus := false
  tie := .up
  nan := "NaN"
  infinity := "inf"

/-- Numbers in a list always show a point or an exponent. -/
def listedNumber : Decimal.Layout where
  positional e := -4 ≤ e && e < 16
  pointZero := true
  plus := false
  tie := .up
  nan := "NaN"
  infinity := "inf"

end Regraft
