import SqlBridge.Json.Number
import SqlBridge.Text.Basic

/-!
# Reading JSON text

The text is cut into brackets, commas, colons, strings and scalars. A scalar is a maximal run of
characters that are none of the others; it must be a literal or a numeral as a whole. Lexemes are
taken one by one with a stack of the arrays and objects that are still open, so text of any nesting
is read. The text is a value when the last lexeme leaves a complete value and nothing open.
-/

namespace SqlBridge.Json

/-! ### Lexemes -/

/-- A lexeme. A string that denotes nothing, having half of a surrogate pair, holds none. -/
inductive Lexeme where
  | openArray
  | closeArray
  | openObject
  | closeObject
  | comma
  | colon
  | string (s : Option String)
  | scalar (v : Json)

def isSpace (c : Char) : Bool :=
  c = ' ' || c = '\n' || c = '\r' || c = '\t'

def punctuation? : Char → Option Lexeme
  | '[' => some .openArray
  | ']' => some .closeArray
  | '\x7b' => some .openObject
  | '\x7d' => some .closeObject
  | ',' => some .comma
  | ':' => some .colon
  | _ => none

def isScalarChar (c : Char) : Bool :=
  !(isSpace c || (punctuation? c).isSome || c = '"')

/-- The value of a scalar: a literal or a numeral, whose float is found by `float?`. -/
def scalar? (float? : Numeral → Option Binary64) (cs : List Char) : Option Json :=
  if cs = "null".toList then some .null
  else if cs = "true".toList then some (.bool true)
  else if cs = "false".toList then some (.bool false)
  else (Numeral.read? cs).map (Numeral.value float?)

/-- A part of a string: a character, or a code unit given by its number. -/
inductive StringPart where
  | char (c : Char)
  | unit (n : Nat)

def hexValue? (c : Char) : Option Nat :=
  if c.isDigit then some (c.toNat - '0'.toNat)
  else if 'a' ≤ c ∧ c ≤ 'f' then some (c.toNat - 'a'.toNat + 10)
  else if 'A' ≤ c ∧ c ≤ 'F' then some (c.toNat - 'A'.toNat + 10)
  else none

/-- The character that a backslash and a letter stand for. -/
def simpleEscape? : Char → Option Char
  | '"' => some '"'
  | '\\' => some '\\'
  | '/' => some '/'
  | 'b' => some '\x08'
  | 'f' => some '\x0c'
  | 'n' => some '\n'
  | 'r' => some '\r'
  | 't' => some '\t'
  | _ => none

/-- Read a string up to its closing quote, the opening one being consumed: its parts and what
follows. Control characters must be escaped. -/
def readString? : List Char → Option (List StringPart × List Char)
  | [] => none
  | '"' :: rest => some ([], rest)
  | '\\' :: 'u' :: a :: b :: c :: d :: rest => do
    let n := ((← hexValue? a) * 16 + (← hexValue? b)) * 256 + (← hexValue? c) * 16 + (← hexValue? d)
    let (parts, after) ← readString? rest
    pure (.unit n :: parts, after)
  | '\\' :: e :: rest => do
    let c ← simpleEscape? e
    let (parts, after) ← readString? rest
    pure (.char c :: parts, after)
  | c :: rest =>
    if c = '\\' ∨ c.toNat < 0x20 then none
    else do
      let (parts, after) ← readString? rest
      pure (.char c :: parts, after)

/-- The characters of a string's parts: two code units of a surrogate pair are one character, and
half a pair denotes nothing. -/
def joinParts? : List StringPart → Option (List Char)
  | [] => some []
  | .char c :: rest => (joinParts? rest).map (c :: ·)
  | .unit n :: rest =>
    if n < 0xD800 ∨ 0xE000 ≤ n then (joinParts? rest).map (Char.ofNat n :: ·)
    else match rest with
      | .unit m :: rest' =>
        if n < 0xDC00 ∧ 0xDC00 ≤ m ∧ m < 0xE000 then
          (joinParts? rest').map (Char.ofNat (0x10000 + (n - 0xD800) * 0x400 + (m - 0xDC00)) :: ·)
        else none
      | _ => none

theorem length_lt_of_readString? {cs after : List Char} {parts : List StringPart}
    (h : readString? cs = some (parts, after)) : after.length < cs.length := by
  fun_induction readString? cs generalizing parts after <;>
    simp_all [Option.bind_eq_some_iff] <;> grind

def lexemes? (float? : Numeral → Option Binary64) (cs : List Char) : Option (List Lexeme) :=
  match cs with
  | [] => some []
  | c :: rest =>
    if isSpace c then lexemes? float? rest
    else if c = '"' then
      match h : readString? rest with
      | none => none
      | some (parts, after) =>
        have : after.length < rest.length := length_lt_of_readString? h
        (lexemes? float? after).map (.string ((joinParts? parts).map String.ofList) :: ·)
    else match punctuation? c with
      | some lexeme => (lexemes? float? rest).map (lexeme :: ·)
      | none =>
        match scalar? float? (c :: rest.takeWhile isScalarChar) with
        | none => none
        | some v =>
          have : (rest.dropWhile isScalarChar).length ≤ rest.length :=
            Text.length_dropWhile_le isScalarChar rest
          (lexemes? float? (rest.dropWhile isScalarChar)).map (.scalar v :: ·)
termination_by cs.length

/-! ### Values -/

/-- An open array or object, with what it holds so far, last first. An object also keeps the key
whose value is being read. A key that denotes nothing is none. -/
inductive Frame where
  | array (before : List Json)
  | object (before : List (Option String × Json)) (key : Option String)

inductive Expecting where
  /-- A value. -/
  | value
  /-- A value, or the end of the array just opened. -/
  | firstElement
  /-- A key, or the end of the object just opened. -/
  | firstKey
  /-- A key. -/
  | key
  /-- The colon after a key. -/
  | colon
  /-- What follows the complete value `v`. -/
  | after (v : Json)

/-- An object of fields given last first. If a key denotes nothing, neither does the object. -/
def closeFields (before : List (Option String × Json)) : Json :=
  match before.reverse.mapM fun (k, v) => k.map fun k => (k, v) with
  | some fields => .obj fields
  | none => .unreadable

def startValue (stack : List Frame) : Lexeme → Option (List Frame × Expecting)
  | .scalar v => some (stack, .after v)
  | .string s => some (stack, .after (s.elim .unreadable .str))
  | .openArray => some (.array [] :: stack, .firstElement)
  | .openObject => some (.object [] none :: stack, .firstKey)
  | _ => none

def startField (stack : List Frame) : Lexeme → Option (List Frame × Expecting)
  | .string key =>
    match stack with
    | .object before _ :: outer => some (.object before key :: outer, .colon)
    | _ => none
  | _ => none

def step : List Frame × Expecting → Lexeme → Option (List Frame × Expecting)
  | (stack, .value), lexeme => startValue stack lexeme
  | (.array _ :: outer, .firstElement), .closeArray => some (outer, .after (.arr []))
  | (stack, .firstElement), lexeme => startValue stack lexeme
  | (.object _ _ :: outer, .firstKey), .closeObject => some (outer, .after (.obj []))
  | (stack, .firstKey), lexeme => startField stack lexeme
  | (stack, .key), lexeme => startField stack lexeme
  | (stack, .colon), .colon => some (stack, .value)
  | (.array before :: outer, .after v), .comma => some (.array (v :: before) :: outer, .value)
  | (.array before :: outer, .after v), .closeArray =>
    some (outer, .after (.arr (v :: before).reverse))
  | (.object before key :: outer, .after v), .comma =>
    some (.object ((key, v) :: before) none :: outer, .key)
  | (.object before key :: outer, .after v), .closeObject =>
    some (outer, .after (closeFields ((key, v) :: before)))
  | _, _ => none

/-- The value that a text denotes, which may be `unreadable` in parts, the floats in it being found
by `float?`. -/
def parseWith? (float? : Numeral → Option Binary64) (text : String) : Option Json := do
  match ← (← lexemes? float? text.toList).foldlM step ([], .value) with
  | ([], .after v) => some v
  | _ => none

/-- The value that a text denotes. Floats are found by scaling, so one with many digits or a great
exponent may lie beside the nearest. -/
def parse? (text : String) : Option Json :=
  parseWith? Numeral.scaled? text

end SqlBridge.Json
