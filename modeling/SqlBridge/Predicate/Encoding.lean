import SqlBridge.Json.Basic
import SqlBridge.Predicate.Basic

/-!
# Predicates in JSON

A predicate is a record whose `type` names its form. Reading admits groups of any number of
children. An array has the form first and then exactly the fields of that form. Inside a predicate a
name may also be given as an object whose only field has that name and holds null or an empty
object, and the form of a group's child may be given by its number.
-/

namespace SqlBridge.Predicate

open Json

mutual

def encode : Predicate → Json
  | .comparison field operator value =>
    .obj [("type", .str "comparison"), ("field", .str field), ("operator", .str operator.name),
      ("value", value.encode)]
  | .pattern field regex caseInsensitive =>
    .obj [("type", .str "pattern"), ("field", .str field), ("regex", .str regex),
      ("caseInsensitive", .bool caseInsensitive)]
  | .group logic children =>
    .obj [("type", .str "group"), ("logic", .str logic.name),
      ("children", .arr (encodeList children))]

def encodeList : List Predicate → List Json
  | [] => []
  | p :: rest => p.encode :: encodeList rest

end

inductive Form where
  | comparison
  | pattern
  | group
deriving DecidableEq, Repr

/-- The form named by the `type` of a predicate. Only a group's child may give its number. -/
def form? (isChild : Bool) : Json → Option Form
  | .str "comparison" => some .comparison
  | .str "pattern" => some .pattern
  | .str "group" => some .group
  | .int i =>
    if !isChild then none
    else if i = 0 then some .comparison
    else if i = 1 then some .pattern
    else if i = 2 then some .group
    else none
  | _ => none

/-- The names of the fields that a form has beside its `type`, in their order. -/
def Form.fields : Form → List String
  | .comparison => ["field", "operator", "value"]
  | .pattern => ["field", "regex", "caseInsensitive"]
  | .group => ["logic", "children"]

def innerName? : Json → Option String
  | .obj [(s, .obj [])] => some s
  | v => v.name?

/-- A value inside a predicate, with the predicates that it lists, if it lists predicates. -/
abbrev Content := Json × Option (List Predicate)

/-- A field of a predicate: its name and its value. -/
abbrev Part := String × Content

def part? {α : Type} (parts : List Part) (name : String)
    (read : Content → Option α) : Option α :=
  match parts.filter (·.1 = name) with
  | [p] => read p.2
  | _ => none

def ofParts? (readValue : Json → Option Value) (isChild : Bool) (parts : List Part) :
    Option Predicate := do
  match ← part? parts "type" fun p => form? isChild p.1 with
  | .comparison =>
    let field ← part? parts "field" fun p => p.1.str?
    let operator ← part? parts "operator" fun p => (innerName? p.1).bind Operator.ofName?
    let value ← part? parts "value" fun p => readValue p.1
    pure (.comparison field operator value)
  | .pattern =>
    let field ← part? parts "field" fun p => p.1.str?
    let regex ← part? parts "regex" fun p => p.1.str?
    let caseInsensitive ← part? parts "caseInsensitive" fun p => p.1.bool?
    pure (.pattern field regex caseInsensitive)
  | .group =>
    let logic ← part? parts "logic" fun p => (innerName? p.1).bind Logic.ofName?
    let children ← part? parts "children" fun p => p.2
    pure (.group logic children)

/-- The parts of an array: its form first, and then each field of that form in its place. -/
def partsInOrder? (isChild : Bool) : List Content → Option (List Part)
  | [] => none
  | type :: values => do
    let form ← form? isChild type.1
    if values.length = form.fields.length then
      pure (("type" :: form.fields).zip (type :: values))
    else none

mutual

/-- Read a predicate, the values in it being read by `readValue`. -/
def decode? (readValue : Json → Option Value) (isChild : Bool) : Json → Option Predicate
  | .obj fields => ofParts? readValue isChild (parts readValue fields)
  | .arr elements =>
    (partsInOrder? isChild (contents readValue elements)).bind (ofParts? readValue isChild)
  | _ => none

def parts (readValue : Json → Option Value) : List (String × Json) → List Part
  | [] => []
  | (name, v) :: rest => (name, v, decodeArray? readValue v) :: parts readValue rest

def contents (readValue : Json → Option Value) : List Json → List Content
  | [] => []
  | v :: rest => (v, decodeArray? readValue v) :: contents readValue rest

def decodeArray? (readValue : Json → Option Value) : Json → Option (List Predicate)
  | .arr elements => decodeList? readValue elements
  | _ => none

def decodeList? (readValue : Json → Option Value) : List Json → Option (List Predicate)
  | [] => some []
  | v :: rest => do
    let p ← decode? readValue true v
    let ps ← decodeList? readValue rest
    pure (p :: ps)

end

/-- The greatest depth of arrays and objects in which a predicate is read. -/
def nestingLimit : Nat := 127

/-- Read a predicate that stands inside `outer` arrays and objects. All of it must denote a value,
parts of other names included, and nothing in it may lie too deep. -/
def decodeWithin? (outer : Nat) (readValue : Json → Option Value) (v : Json) : Option Predicate :=
  if v.isReadable && outer + v.depth ≤ nestingLimit then decode? readValue false v else none

end SqlBridge.Predicate
