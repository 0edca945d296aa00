import Regraft.Tensor.Basic
import Regraft.Tensor.ElemType
import Regraft.Term.Attrs

/-
  Scripts: terms, goals and rules written down with names for their variables. A script says what is
  built each time a rule is used; the names that a rule lists stand for new variables every time.
-/

namespace Regraft.Script

/-- A term to be built. -/
inductive Template
  /-- What the name is bound to. -/
  | ref (name : String)
  | number (x : Float)
  | constant (value : Tensor) (elem : ElemType)
  | input (name : String)
  /-- The variable of an index. -/
  | var (index : UInt32)
  /-- The variable that the session knows by a name. -/
  | named (name : String)
  /-- A new variable. -/
  | fresh
  /-- An application of an exported operator name. -/
  | op (raw : String) (args : List Template)
  /-- An application whose operator is taken as it is. -/
  | tagged (tag : String) (args : List Template) (attrs : Attrs)
deriving Inhabited

mutual

/-- A goal to be built. -/
inductive Goal
  | succeed
  | fail
  | never
  | eq (a b : Template)
  | neq (a b : Template)
  /-- Equal modulo the facts of the session. -/
  | modulo (a b : Template)
  /-- The first is recorded as rewritten to the second. -/
  | site (a b : Template)
  | conj (goals : List Goal)
  | disj (goals : List Goal)
  /-- The term is one of `x`, `x + 1`, `x + 2` and so on. -/
  | countFrom (a : Template) (x : Float)
  /-- Built each time it is applied, with new variables for the names. -/
  | defer (vars : List String) (body : Goal)
  /-- The rule takes the first term to the second. -/
  | relate (rule : Rule) (a b : Template)
  /-- The rule takes the first term to the second at one position. -/
  | anywhere (rule : Rule) (a b : Template)
  /-- The rules, each at one position of the result of the one before. -/
  | sites (rules : List Rule) (a b : Template)

/-- A rule to be built. All but `any` list the names of the variables made anew at each use. -/
inductive Rule
  /-- What matches the pattern becomes the replacement; both may mention `witness`, which stands for
      the term that was matched. -/
  | pattern (name : String) (vars : List String) (lhs rhs : Template)
  /-- The same, also in a part of a longer chain. -/
  | patternInChain (name : String) (vars : List String) (lhs rhs : Template)
  /-- Any of the rules. -/
  | any (name : String) (rules : List Rule)
  /-- Several sites at once, under a condition. -/
  | correlated (name : String) (vars : List String) (sites : List Rule) (guard : Goal)
  /-- Whatever the goal says of `input` and `output`. -/
  | relation (name : String) (vars : List String) (goal : Goal)

end

instance : Inhabited Goal := ⟨.succeed⟩

instance : Inhabited Rule := ⟨.any "" []⟩

end Regraft.Script
