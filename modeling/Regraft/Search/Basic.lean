import Regraft.Session.Basic
import Regraft.Text.Quoted

/-
  Goals and search trees. A goal turns a substitution into a tree of answers that is unfolded step
  by step. The two relations whose recursion runs through stored terms, matching modulo the facts
  and rewriting at some position, are goals of their own: they unfold one layer of a term at a time.
-/

namespace Regraft

mutual

inductive Goal
  /-- Whatever the action yields. -/
  | run (act : Subst → Session → Search × Session)
  /-- Two terms are equal modulo the facts of the session. -/
  | modulo (a b : TermId)
  /-- `output` is `input` with a relation applied at one position. -/
  | anywhere (relate : TermId → TermId → Session → Goal × Session) (input output : TermId)
  /-- One of the infinitely many goals from `next` on. -/
  | series (branch : Nat → Goal) (next : Nat)

inductive Search
  /-- No more answers. -/
  | empty
  /-- An answer, then the rest. -/
  | emit (answer : Subst) (rest : Search)
  /-- All branches, taken in turn. -/
  | fork (branches : List Search)
  /-- Every answer of a search goes on into a goal. -/
  | bind (inner : Search) (goal : Goal)
  /-- A goal that has not been applied yet. -/
  | apply (goal : Goal) (s : Subst)
  /-- A search that has not been set up yet. -/
  | suspend (setUp : Session → Search × Session)

end

instance : Inhabited Search := ⟨.empty⟩

/-- A named relation between an input term and an output term. It makes its variables anew each time
    it is used. -/
structure Rule where
  name : String
  relate : TermId → TermId → SessionM Goal

/-- How a rule is shown. -/
def Rule.text (r : Rule) : String := "Rule \x7b name: " ++ Text.quoted r.name ++ " \x7d"

namespace Search

def isEmpty : Search → Bool
  | empty => true
  | _ => false

/-- Just one answer. -/
def unit (s : Subst) : Search := emit s empty

def ofOption : Option Subst → Search
  | some s => unit s
  | none => empty

/-- Both searches in turn. -/
def plus : Search → Search → Search
  | empty, b => b
  | a, empty => a
  | a, b => fork [a, b]

/-- A list of branches without needless forks. -/
def ofBranches : List Search → Search
  | [] => empty
  | [b] => b
  | bs => fork bs

/-- All branches that are not empty. -/
def union (branches : List Search) : Search := ofBranches (branches.filter (!·.isEmpty))

/-- A search through goals one after the other, from at least one. -/
def through (first : Goal) (rest : List Goal) (s : Subst) : Search :=
  rest.foldl bind (apply first s)

end Search

end Regraft
