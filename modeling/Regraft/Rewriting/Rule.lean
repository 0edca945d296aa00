import Regraft.Search.Step

/-
  Making rules: from a pattern and its replacement, from alternatives, or from several sites that
  are rewritten together.
-/

namespace Regraft

/-- Every site is rewritten somewhere in the result of the one before; without sites the output is
    the input. -/
def Goal.sitesFrom (input output : TermId) : List Rule → SessionM (List Goal)
  | [] => return []
  | [r] => return [.anywhere r.relate input output]
  | r :: rest => do
    let next ← Session.fresh
    let goals ← sitesFrom next output rest
    return .anywhere r.relate input next :: goals

def Goal.sites (sites : List Rule) (input output : TermId) : Goal :=
  match sites with
  | [] => .eq input output
  | _ => .defer (do
    let goals ← sitesFrom input output sites
    return .conj goals)

/-- Rewriting at one position by a rule. -/
def Goal.rewriteAnywhere (rule : Rule) (input output : TermId) : Goal :=
  .anywhere rule.relate input output

namespace Rule

/-- The pattern matches all of the input. The witness is the input as it was matched. -/
def exactly (input output witness lhs rhs : TermId) : Goal :=
  .conj [.modulo input lhs, .eq witness input, .eq output rhs]

/-- What matches the pattern is rewritten to the replacement. `build` makes both, from a new
    variable that stands for the term that was matched; a replacement that mentions it keeps that term. -/
def pattern (name : String) (build : TermId → SessionM (TermId × TermId)) : Rule where
  name
  relate input output := do
    let witness ← Session.fresh
    let (lhs, rhs) ← build witness
    return exactly input output witness lhs rhs

/-- The operator of a term that commutes and associates. -/
def chainOperator (ses : Session) (t : TermId) : Option String :=
  match ses.store.app? t with
  | some (op, _, _) =>
    if ses.facts.isCommutative op && ses.facts.isAssociative op then some op else none
  | none => none

/-- Like `pattern`, and a pattern whose operator commutes and associates may also match a part of a
    longer chain. The rest of the chain is kept beside the replacement. -/
def patternInChain (name : String) (build : TermId → SessionM (TermId × TermId)) : Rule where
  name
  relate input output := do
    let witness ← Session.fresh
    let (lhs, rhs) ← build witness
    let whole := exactly input output witness lhs rhs
    match chainOperator (← get) lhs with
    | none => return whole
    | some op =>
      let rest ← Session.fresh
      let lhs ← Session.onStore (Store.app op [lhs, rest] .unspecified)
      let rhs ← Session.onStore (Store.app op [rhs, rest] .unspecified)
      return .disj [whole, exactly input output witness lhs rhs]

/-- The goals of rules at one position, in order. -/
def relateAll (input output : TermId) : List Rule → SessionM (List Goal)
  | [] => return []
  | r :: rest => do
    let goal ← r.relate input output
    let goals ← relateAll input output rest
    return goal :: goals

/-- Any of the rules, at the same position. -/
def any (name : String) (rules : List Rule) : Rule where
  name
  relate input output := do
    let goals ← relateAll input output rules
    return .disj goals

/-- Several sites rewritten in one step. `build` makes the rules of the sites, which may share
    variables, and a goal that is required once all sites have matched. -/
def correlated (name : String) (build : SessionM (List Rule × Goal)) : Rule where
  name
  relate input output := do
    let (sites, guard) ← build
    return .conj [.sites sites input output, guard]

end Rule

end Regraft
