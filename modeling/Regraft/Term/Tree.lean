import Regraft.Term.Store
import Regraft.Text.Number

/-
  Terms as trees. `Store.tree` unfolds a stored term; operands are stored before the terms that use
  them, so the place of a term bounds the depth of its tree. Trees are what is printed.
-/

namespace Regraft

inductive Tree
  | var (index : UInt32)
  | leaf (l : Leaf)
  | app (op : String) (args : List Tree) (attrs : Attrs)
  /-- An id that the store does not know. -/
  | unknown (id : TermId)
deriving Repr

namespace Store

/-- Unfold at most `depth` layers. -/
def treeWithin (s : Store) : Nat → TermId → Tree
  | 0, id => .unknown id
  | depth + 1, id => match s.term? id with
    | some (.var i) => .var i
    | some (.leaf l) => .leaf l
    | some (.app op args attrs) => .app op (args.map (s.treeWithin depth)) attrs
    | none => .unknown id

/-- The tree of a term. -/
def tree (s : Store) (id : TermId) : Tree := s.treeWithin (id.index + 1) id

end Store

namespace Tree

def constantText (c : Constant) : String :=
  match c.asScalar? with
  | some x => plainNumber.render x
  | none => "[" ++ " ".intercalate (c.values.map plainNumber.render) ++ "]"

mutual

/-- The text of a tree behind another text. -/
def textAfter (before : String) : Tree → String
  | var i => before ++ "$" ++ i.toNat.repr
  | leaf (.input name) => before ++ name
  | leaf (.const c) => before ++ constantText c
  | app op [] _ => before ++ op
  | app op (t :: ts) _ => textsAfter (before ++ "(" ++ op) (t :: ts) ++ ")"
  | unknown id => before ++ "<unknown term " ++ id.index.repr ++ ">"

/-- The texts of trees behind another text, each after a blank. -/
def textsAfter (before : String) : List Tree → String
  | [] => before
  | t :: rest => textsAfter (textAfter (before ++ " ") t) rest

end

/-- Prefix form: `$3` for a variable, `(add x 0)` for an application, the bare operator when it has
    no operands. -/
def text (t : Tree) : String := textAfter "" t

mutual

theorem textAfter_append (a b : String) (t : Tree) : textAfter (a ++ b) t = a ++ textAfter b t := by
  match t with
  | var _ => simp [textAfter, String.append_assoc]
  | leaf (.input _) => simp [textAfter, String.append_assoc]
  | leaf (.const _) => simp [textAfter, String.append_assoc]
  | app _ [] _ => simp [textAfter, String.append_assoc]
  | app _ (t :: ts) _ =>
    simp only [textAfter, String.append_assoc, textsAfter_append a _ (t :: ts)]
  | unknown _ => simp [textAfter, String.append_assoc]

theorem textsAfter_append (a b : String) (ts : List Tree) :
    textsAfter (a ++ b) ts = a ++ textsAfter b ts := by
  match ts with
  | [] => rfl
  | t :: rest =>
    simp only [textsAfter, String.append_assoc, textAfter_append a _ t, textsAfter_append a _ rest]

end

/-- What stands before a tree has no part in its text. -/
theorem textAfter_eq (before : String) (t : Tree) : textAfter before t = before ++ t.text := by
  simpa [text] using textAfter_append before "" t

end Tree

/-- The text of a stored term. -/
def Store.text (s : Store) (id : TermId) : String := (s.tree id).text

end Regraft
