import Regraft.Search.Basic

/-
  Substitutions and searches written out for inspection. Goals and suspended searches are only
  named.
-/

namespace Regraft

def TermId.text (t : TermId) : String := "TermId(" ++ t.index.repr ++ ")"

namespace Subst

/-- A record of terms with its field names. -/
def pairText (name left right : String) (a b : TermId) : String :=
  name ++ " \x7b " ++ left ++ ": " ++ a.text ++ ", " ++ right ++ ": " ++ b.text ++ " \x7d"

def text (s : Subst) : String :=
  let commas := ", ".intercalate
  let bindings := s.toList.map fun (v, t) => v.toNat.repr ++ ": " ++ t.text
  let constraints := s.constraints.map fun d => pairText "Disequality" "lhs" "rhs" d.lhs d.rhs
  let sites := s.sites.map fun p => pairText "Site" "matched" "replacement" p.matched p.replacement
  "Subst \x7b bindings: \x7b" ++ commas bindings ++ "\x7d, constraints: [" ++ commas constraints ++
    "], sites: [" ++ commas sites ++ "] \x7d"

end Subst

namespace Search

mutual

def text : Search → String
  | empty => "Empty"
  | emit s rest => "Emit(" ++ s.text ++ ", " ++ rest.text ++ ")"
  | fork branches => "Any([" ++ ", ".intercalate (texts branches) ++ "])"
  | bind inner _ => "Bind(" ++ inner.text ++ ", Goal(..))"
  | apply _ s => "Apply(Goal(..), " ++ s.text ++ ")"
  | suspend _ => "Lazy(..)"

def texts : List Search → List String
  | [] => []
  | b :: rest => b.text :: texts rest

end

end Search

end Regraft
