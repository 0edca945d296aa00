import Regraft.Script.Build

/-
  A library of rules: elementary identities of arithmetic, and the change from centred to
  standardised variables in normal densities. The identities take operands of one shape for granted.
-/

namespace Regraft.Script

namespace Template

def add (a b : Template) : Template := op "add" [a, b]

def sub (a b : Template) : Template := op "sub" [a, b]

def mul (a b : Template) : Template := op "mul" [a, b]

def div (a b : Template) : Template := op "div" [a, b]

def neg (a : Template) : Template := op "neg" [a]

def square (a : Template) : Template := op "square" [a]

end Template

namespace Rule

open Template

/-- `x + 0` is `x`. -/
def addZero : Rule := pattern "add_zero" ["x"] (add (ref "x") (number 0.0)) (ref "x")

/-- `x * 1` is `x`. -/
def mulOne : Rule := pattern "mul_one" ["x"] (mul (ref "x") (number 1.0)) (ref "x")

/-- `x - 0` is `x`. -/
def subZero : Rule := pattern "sub_zero" ["x"] (sub (ref "x") (number 0.0)) (ref "x")

/-- `x / 1` is `x`. -/
def divOne : Rule := pattern "div_one" ["x"] (div (ref "x") (number 1.0)) (ref "x")

/-- `-(-x)` is `x`. -/
def negNeg : Rule := pattern "neg_neg" ["x"] (neg (neg (ref "x"))) (ref "x")

/-- `x * x` is the square of `x`, also inside a longer product. -/
def mulSelf : Rule :=
  patternInChain "mul_self" ["x"] (mul (ref "x") (ref "x")) (square (ref "x"))

/-- The six identities, in the order in which they are tried. -/
def identityRules : List Rule := [addZero, mulOne, subZero, divOne, negNeg, mulSelf]

def identities : Rule := any "identities" identityRules

/-- The density term of `x` around `mu` with width `tau`, for which `x` is drawn standard. -/
def standardizePrior : Rule :=
  pattern "standardize_prior" [] (square (div (sub (ref "x") (ref "mu")) (ref "tau")))
    (square (ref "x"))

/-- The density term of `y` around `x`, with `x` shifted and scaled to `mu + tau * x`. -/
def shiftChild : Rule :=
  pattern "shift_child" []
    (square (div (sub (ref "y") (ref "x")) (ref "sigma")))
    (square (div (sub (ref "y") (add (ref "mu") (mul (ref "tau") (ref "x")))) (ref "sigma")))

/-- Standardise the variable of a normal hierarchy. Its own density term and that of its child
    change in one step, since changing one alone gives another model. The child is another variable. -/
def recenterNormal : Rule :=
  correlated "recenter_normal" ["x", "mu", "tau", "y", "sigma"] [standardizePrior, shiftChild]
    (.neq (ref "y") (ref "x"))

/-- All rules of the library by name. -/
def library : List (String × Rule) := [
  ("add_zero", addZero),
  ("mul_one", mulOne),
  ("sub_zero", subZero),
  ("div_one", divOne),
  ("neg_neg", negNeg),
  ("mul_self", mulSelf),
  ("identities", identities),
  ("recenter_normal", recenterNormal)]

end Rule

end Regraft.Script
