import SqlBridge.Binary64.Basic
import SqlBridge.Binary64.Printing
import SqlBridge.Json.Basic
import SqlBridge.Json.Parser
import SqlBridge.OrderedMap
import SqlBridge.Text.Quoted

/-!
# Scalar values

The values of columns and parameters. A placeholder stands for a parameter that has not been looked
up yet; it is a value only between reading a literal and binding it, so it cannot be read from JSON
and no document can hold it. Parameters are given as a JSON object of scalars. A name that repeats
keeps its first place and its last value, but each of its values must be a scalar.
-/

namespace SqlBridge

inductive Value where
  | null
  | bool (b : Bool)
  | int (i : Int64)
  | float (x : Binary64)
  | str (s : String)
  | placeholder (name : String)
deriving DecidableEq, Inhabited, Repr

/-- Parameters by name, the name being written without its colon. -/
abbrev Params := OrderedMap Value

namespace Value

/-- In a statement a number is written without an exponent and a whole one without a point, and of
two shortest decimals at the same distance the greater one is taken. -/
def numberLayout : Binary64.Layout where
  positional _ := true
  wholeEnd := ""
  tie := .up

def isNull : Value → Bool
  | .null => true
  | _ => false

def isPlaceholder : Value → Bool
  | .placeholder _ => true
  | _ => false

/-- The value as a statement would write it. -/
def display : Value → String
  | .null => "NULL"
  | .bool b => if b then "true" else "false"
  | .int i => i.toInt.repr
  | .float x => numberLayout.text x
  | .str s => Text.quoted '\'' s
  | .placeholder name => ":" ++ name

/-- The JSON form of every value, in which a placeholder is an object of its own. -/
def encode : Value → Json
  | .null => .null
  | .bool b => .bool b
  | .int i => .int i.toInt
  | .float x => .float x
  | .str s => .str s
  | .placeholder name => .obj [("placeholder", .str name)]

/-- The JSON scalar that equals the value. A placeholder and a number that is not finite have
none. -/
def toJson? : Value → Option Json
  | .null => some .null
  | .bool b => some (.bool b)
  | .int i => some (.int i.toInt)
  | .float x => if x.isFinite then some (.float x) else none
  | .str s => some (.str s)
  | .placeholder _ => none

/-- The value of a JSON scalar. An integer that 64 signed bits do not hold becomes the nearest
float. Arrays and objects, and so placeholders, are refused. -/
def ofJson? : Json → Option Value
  | .null => some .null
  | .bool b => some (.bool b)
  | .int i =>
    if -2 ^ 63 ≤ i ∧ i < 2 ^ 63 then some (.int (.ofInt i)) else some (.float (.ofInt i))
  | .float x => some (.float x)
  | .str s => some (.str s)
  | .arr _ | .obj _ | .unreadable => none

/-- A value with a JSON scalar is read back from it. -/
theorem ofJson?_of_toJson? {v : Value} {j : Json} (h : v.toJson? = some j) :
    ofJson? j = some v := by
  cases v with
  | float x =>
    by_cases hx : x.isFinite
    · simp only [toJson?, hx, if_true, Option.some.injEq] at h
      subst h; rfl
    · simp [toJson?, hx] at h
  | int i =>
    simp only [toJson?, Option.some.injEq] at h
    subst h
    rw [ofJson?, if_pos ⟨i.le_toInt, i.toInt_lt⟩, Int64.ofInt_toInt]
  | placeholder name => simp [toJson?] at h
  | _ => simp only [toJson?, Option.some.injEq] at h; subst h; rfl

end Value

end SqlBridge

namespace SqlBridge.Params

def parse? (text : String) : Option Params :=
  (Json.parse? text).bind (Json.map? Value.ofJson?)

end SqlBridge.Params
