/-
  Names of exported graph nodes, such as `model/Add_3:0`: a path, the operator, a suffix that makes
  the name unique, and the index of an output. Only the operator says what is computed; the output
  index tells values of one node apart.
-/

namespace Regraft

/-- An operator name in normal form and the output index that stood beside it. -/
structure OpName where
  name : String
  output : Option UInt32
deriving DecidableEq, Repr

namespace OpName

/-- Split at the last occurrence of `sep`; `none` when there is none. -/
def splitLast (sep : Char) : List Char → Option (List Char × List Char)
  | [] => none
  | c :: cs => match splitLast sep cs with
    | some (head, tail) => some (c :: head, tail)
    | none => if c = sep then some ([], cs) else none

/-- The part behind the last slash. -/
def lastSegment (cs : List Char) : List Char :=
  match splitLast '/' cs with
  | some (_, tail) => tail
  | none => cs

/-- The value of digits that make a natural below `2 ^ 32`. -/
def digitsValue? (cs : List Char) : Option UInt32 :=
  if cs ≠ [] ∧ cs.all Char.isDigit then
    let n := cs.foldl (fun n c => n * 10 + (c.toNat - '0'.toNat)) 0
    if n < UInt32.size then some (UInt32.ofNat n) else none
  else none

/-- An output index: digits, with a plus sign in front at will. -/
def index? : List Char → Option UInt32
  | '+' :: cs => digitsValue? cs
  | cs => digitsValue? cs

/-- Take an output index off the end of a name. -/
def dropOutput (cs : List Char) : List Char × Option UInt32 :=
  match splitLast ':' cs with
  | some (head, tail) => match index? tail with
    | some n => (head, some n)
    | none => (cs, none)
  | none => (cs, none)

/-- Take a numeric suffix off the end of a name, unless nothing would be left. -/
def dropSuffix (cs : List Char) : List Char :=
  match splitLast '_' cs with
  | some (head, tail) => if head ≠ [] ∧ tail ≠ [] ∧ tail.all Char.isDigit then head else cs
  | none => cs

/-- The operator of an exported node name, in lower case, and its output index. -/
def normalize (raw : String) : OpName :=
  let (base, output) := dropOutput (lastSegment raw.toList)
  ⟨String.ofList ((dropSuffix base).map Char.toLower), output⟩

end OpName

end Regraft
