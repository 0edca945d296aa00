import Regraft.Rewriting.Rule
import Regraft.Script.Syntax

/-
  Building what scripts describe, in an environment that binds names to terms. A rule keeps the
  environment it was built in.
-/

namespace Regraft.Script

/-- What names stand for, innermost first. -/
abbrev Env := List (String × TermId)

/-- Bind every name to a new variable, in order. -/
def Env.extend (env : Env) : List String → SessionM Env
  | [] => return env
  | name :: rest => do
    let v ← Session.fresh
    extend ((name, v) :: env) rest

namespace Template

mutual

/-- Build a term, operands from left to right before the term itself. A name without a binding
    stands for the variable that the session knows by it. -/
def build (env : Env) : Template → SessionM TermId
  | ref name => match env.lookup name with
    | some t => return t
    | none => Session.named name
  | number x => Session.scalar x
  | constant value elem => Session.onStore (Store.constant (.ofTensor value elem))
  | input name => Session.input name
  | var index => Session.onStore (Store.var index)
  | named name => Session.named name
  | fresh => Session.fresh
  | op raw args => do
    let args ← buildAll env args
    Session.op raw args
  | tagged tag args attrs => do
    let args ← buildAll env args
    Session.tagged tag args attrs

def buildAll (env : Env) : List Template → SessionM (List TermId)
  | [] => return []
  | t :: rest => do
    let t ← build env t
    let ts ← buildAll env rest
    return t :: ts

end

/-- Build a pattern and its replacement among new variables, with a name for the witness. -/
def buildPattern (env : Env) (vars : List String) (lhs rhs : Template) (witness : TermId) :
    SessionM (TermId × TermId) := do
  let env ← env.extend vars
  let env : Env := ("witness", witness) :: env
  let lhs ← lhs.build env
  let rhs ← rhs.build env
  return (lhs, rhs)

end Template

mutual

/-- Build a goal, its terms from left to right. -/
def Goal.build (env : Env) : Goal → SessionM Regraft.Goal
  | .succeed => return .succeed
  | .fail => return .fail
  | .never => return .never
  | .eq a b => do
    let a ← a.build env
    let b ← b.build env
    return .eq a b
  | .neq a b => do
    let a ← a.build env
    let b ← b.build env
    return .neq a b
  | .modulo a b => do
    let a ← a.build env
    let b ← b.build env
    return .modulo a b
  | .site a b => do
    let a ← a.build env
    let b ← b.build env
    return .site a b
  | .conj goals => do
    let goals ← Goal.buildAll env goals
    return .conj goals
  | .disj goals => do
    let goals ← Goal.buildAll env goals
    return .disj goals
  | .countFrom a x => do
    let a ← a.build env
    return .countFrom a x
  | .defer vars body => return .defer (do
    let env ← env.extend vars
    body.build env)
  | .relate rule a b => do
    let a ← a.build env
    let b ← b.build env
    (rule.build env).relate a b
  | .anywhere rule a b => do
    let a ← a.build env
    let b ← b.build env
    return .rewriteAnywhere (rule.build env) a b
  | .sites rules a b => do
    let a ← a.build env
    let b ← b.build env
    return .sites (Rule.buildAll env rules) a b

def Goal.buildAll (env : Env) : List Goal → SessionM (List Regraft.Goal)
  | [] => return []
  | g :: rest => do
    let g ← g.build env
    let gs ← Goal.buildAll env rest
    return g :: gs

/-- Build a rule, which keeps the environment. -/
def Rule.build (env : Env) : Rule → Regraft.Rule
  | .pattern name vars lhs rhs => .pattern name (Template.buildPattern env vars lhs rhs)
  | .patternInChain name vars lhs rhs =>
    .patternInChain name (Template.buildPattern env vars lhs rhs)
  | .any name rules => .any name (Rule.buildAll env rules)
  | .correlated name vars sites guard => .correlated name (do
    let env ← env.extend vars
    let guard ← guard.build env
    return (Rule.buildAll env sites, guard))
  | .relation name vars goal => ⟨name, fun input output => do
    let env ← env.extend vars
    goal.build (("output", output) :: ("input", input) :: env)⟩

def Rule.buildAll (env : Env) : List Rule → List Regraft.Rule
  | [] => []
  | r :: rest => r.build env :: Rule.buildAll env rest

end

end Regraft.Script
