import Regraft.Json.Reader
import Regraft.Json.Printer

/-
  Settings of a rewriting run and their JSON document. Fields that are left out have defaults.
-/

namespace Regraft

structure Config where
  /-- The most steps along one path. -/
  stepLimit : Option Nat
  /-- The most fixpoints that are collected. -/
  maxResults : Option Nat
  /-- Operators whose operands may be matched in any order. -/
  commutative : List String
  /-- Operators whose nested applications are flattened before matching. -/
  associative : List String
deriving DecidableEq, Repr

namespace Config

def default : Config := ⟨some 64, none, ["add", "mul"], ["add", "mul"]⟩

def fieldNames : List String := ["step_limit", "max_results", "commutative", "associative"]

/-- A field read by `read` when it is there. -/
def field? {α : Type} (fields : List (String × Json)) (name : String) (read : Json → Option α)
    (absent : α) : Option α :=
  match fields.lookup name with
  | none => some absent
  | some j => read j

def ofJson? (j : Json) : Option Config := do
  let fields ← j.record? fieldNames
  let limit := Json.nullable? (Json.natural? UInt64.size)
  let names := Json.list? Json.string?
  let stepLimit ← field? fields "step_limit" limit default.stepLimit
  let maxResults ← field? fields "max_results" limit default.maxResults
  let commutative ← field? fields "commutative" names default.commutative
  let associative ← field? fields "associative" names default.associative
  some ⟨stepLimit, maxResults, commutative, associative⟩

def toJson (c : Config) : Json :=
  let limit := fun (n : Option Nat) => n.elim Json.null fun n => .num (.natural n)
  let names := fun (xs : List String) => Json.arr (xs.map .str)
  .obj [("step_limit", limit c.stepLimit), ("max_results", limit c.maxResults),
    ("commutative", names c.commutative), ("associative", names c.associative)]

def ofText? (text : String) : Option Config := (Json.parse text).bind ofJson?

def toText (c : Config) : String := c.toJson.text

/-- What is said of a text that is no configuration, before the reason. -/
def errorIntroduction : String := "invalid rewrite configuration: "

end Config

end Regraft
