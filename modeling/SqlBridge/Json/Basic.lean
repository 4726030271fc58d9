import SqlBridge.Binary64.Basic
import SqlBridge.OrderedMap

/-!
# JSON values

A JSON value whose objects keep their fields in order. An integer and a floating number are told
apart, so `1` and `1.0` stay different through reading and writing. One more constructor stands
for well-formed text that denotes no value: a number beyond the range of the floats, or a string
with half of a surrogate pair. Such text may stand where a reader skips a field and nowhere else.

A record has fields of fixed names. It is read from an object, where a field that repeats is an
error and fields of other names are skipped, or from an array with the values of its first fields in
their order. A map is read from an object of any names: of a repeated name the first place and the
last value count.
-/

namespace SqlBridge

inductive Json where
  | null
  | bool (b : Bool)
  | int (i : Int)
  | float (x : Binary64)
  | str (s : String)
  | arr (elements : List Json)
  | obj (fields : List (String × Json))
  /-- Well-formed text that denotes no value. -/
  | unreadable
deriving Inhabited, Repr

namespace Json

mutual

/-- Whether all of the text denotes a value. -/
def isReadable : Json → Bool
  | .unreadable => false
  | .arr elements => areReadable elements
  | .obj fields => areReadableFields fields
  | _ => true

def areReadable : List Json → Bool
  | [] => true
  | v :: rest => v.isReadable && areReadable rest

def areReadableFields : List (String × Json) → Bool
  | [] => true
  | (_, v) :: rest => v.isReadable && areReadableFields rest

end

mutual

/-- The number of arrays and objects around the innermost value, itself included. -/
def depth : Json → Nat
  | .arr elements => depthOfElements elements + 1
  | .obj fields => depthOfFields fields + 1
  | _ => 0

def depthOfElements : List Json → Nat
  | [] => 0
  | v :: rest => max v.depth (depthOfElements rest)

def depthOfFields : List (String × Json) → Nat
  | [] => 0
  | (_, v) :: rest => max v.depth (depthOfFields rest)

end

/-! ### Records and maps -/

def str? : Json → Option String
  | .str s => some s
  | _ => none

def bool? : Json → Option Bool
  | .bool b => some b
  | _ => none

/-- An integer from zero up to the bound, which is excluded. -/
def natBelow? (bound : Nat) : Json → Option Nat
  | .int i => if 0 ≤ i ∧ i < bound then some i.toNat else none
  | _ => none

def uint64? (v : Json) : Option UInt64 :=
  (v.natBelow? (2 ^ 64)).map UInt64.ofNat

/-- A value that may be null, which is read as none. -/
def nullable? {α : Type} (read : Json → Option α) : Json → Option (Option α)
  | .null => some none
  | v => (read v).map some

/-- A name out of a fixed set: a string, or an object whose only field has that name and holds
null. -/
def name? : Json → Option String
  | .str s => some s
  | .obj [(s, .null)] => some s
  | _ => none

def list? {α : Type} (read : Json → Option α) : Json → Option (List α)
  | .arr elements => elements.mapM read
  | _ => none

/-- The entries of a map, each value read in the same way. -/
def map? {α : Type} (read : Json → Option α) : Json → Option (OrderedMap α)
  | .obj fields =>
    (fields.mapM fun (e : String × Json) => (read e.2).map fun x => (e.1, x)).map OrderedMap.ofList
  | _ => none

abbrev Fields := List (String × Json)

/-- The fields of a record whose fields have these names in this order. An array may leave out the
last ones. -/
def record? (names : List String) : Json → Option Fields
  | .obj fields => some fields
  | .arr elements => if elements.length ≤ names.length then some (names.zip elements) else none
  | _ => none

namespace Fields

/-- Read the field of a name, which must be there once. -/
def required? {α : Type} (fields : Fields) (name : String) (read : Json → Option α) : Option α :=
  match fields.filter (·.1 = name) with
  | [e] => read e.2
  | _ => none

/-- Read the field of a name, which must not repeat; without it the default is taken. -/
def withDefault? {α : Type} (fields : Fields) (name : String) (default : α)
    (read : Json → Option α) : Option α :=
  match fields.filter (·.1 = name) with
  | [] => some default
  | [e] => read e.2
  | _ => none

end Fields

end Json

end SqlBridge
