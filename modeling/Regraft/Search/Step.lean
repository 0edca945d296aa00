import Regraft.Match.Modulo
import Regraft.Rewriting.Anywhere

/-
  How searches unfold. `Goal.apply` starts a goal, `Search.step` takes a search one notch further.
  A fork steps its first branch and moves it behind the others, so that no branch waits for ever.
-/

namespace Regraft

/-- Apply a goal to a substitution. -/
def Goal.apply : Goal → Subst → SessionM Search
  | run act, s => act s
  | modulo a b, s => Search.modulo a b s
  | anywhere relate input output, s => Search.anywhere relate input output s
  | series branch next, s => fun ses =>
    let (here, ses) := (branch next).apply s ses
    (Search.plus here (.apply (series branch (next + 1)) s), ses)

/-- What one step of a search comes to. -/
inductive Step
  | emit (answer : Subst) (rest : Search)
  | continue (rest : Search)
  | exhausted

namespace Search

/-- The rest of a fork whose first branch has given an answer and goes on as `rest`. -/
def requeue (rest : Search) (others : List Search) : Search :=
  ofBranches (if rest.isEmpty then others else others ++ [rest])

/-- Send an answer on into a goal, beside the answers still to come. -/
def feed (answer : Subst) (rest : Search) (goal : Goal) : Search :=
  if rest.isEmpty then apply goal answer else plus (apply goal answer) (bind rest goal)

mutual

/-- One step of a search. -/
def step : Search → SessionM Step
  | empty => pure .exhausted
  | emit s rest => pure (.emit s rest)
  | fork branches => stepFork branches
  | bind inner goal => fun ses => match inner.step ses with
    | (.emit s rest, ses) => (.continue (feed s rest goal), ses)
    | (.continue rest, ses) => (.continue (bind rest goal), ses)
    | (.exhausted, ses) => (.exhausted, ses)
  | apply goal s => fun ses =>
    let (search, ses) := goal.apply s ses
    (.continue search, ses)
  | suspend setUp => fun ses =>
    let (search, ses) := setUp ses
    (.continue search, ses)

/-- One step of a fork, by its first branch. -/
def stepFork : List Search → SessionM Step
  | [] => pure .exhausted
  | first :: others => fun ses => match first.step ses with
    | (.emit s rest, ses) => (.emit s (requeue rest others), ses)
    | (.continue rest, ses) => (.continue (fork (others ++ [rest])), ses)
    | (.exhausted, ses) => (.continue (ofBranches others), ses)

end

end Search

/-- Build a goal only when it is applied, since building it makes variables. -/
def Goal.defer (build : SessionM Goal) : Goal := run fun s ses =>
  let (goal, ses) := build ses
  goal.apply s ses

end Regraft
