import SqlBridge.Binary64.Printing
import SqlBridge.Json.Basic

/-!
# JSON text

The compact text has no blanks. The indented text puts each element and each field on a line of its
own, two spaces further in than the brackets around them, and keeps empty brackets together.
-/

namespace SqlBridge.Json

/-- Numbers between `10 ^ (-5)` and `10 ^ 16` are written without an exponent, whole ones end in
`.0`, and of two shortest decimals at the same distance the even one is taken. -/
def numberLayout : Binary64.Layout where
  positional k := decide (-5 ≤ k ∧ k < 16)
  wholeEnd := ".0"
  tie := .toEven

def hexDigit (n : Nat) : Char :=
  Nat.digitChar n

/-- A character of a string: quotes, backslashes and control characters are escaped. -/
def escapeChar (c : Char) : List Char :=
  match c with
  | '"' => ['\\', '"']
  | '\\' => ['\\', '\\']
  | '\x08' => ['\\', 'b']
  | '\x0c' => ['\\', 'f']
  | '\n' => ['\\', 'n']
  | '\r' => ['\\', 'r']
  | '\t' => ['\\', 't']
  | c =>
    if c.toNat < 0x20 then
      ['\\', 'u', '0', '0', hexDigit (c.toNat / 16), hexDigit (c.toNat % 16)]
    else [c]

def stringText (s : String) : String :=
  "\"" ++ String.ofList (s.toList.flatMap escapeChar) ++ "\""

/-- A number. What is not finite has no number in JSON and is written as null. -/
def floatText (x : Binary64) : String :=
  if x.isFinite then numberLayout.text x else "null"

mutual

/-- The text without blanks. -/
def compact : Json → String
  | .null | .unreadable => "null"
  | .bool b => if b then "true" else "false"
  | .int i => i.repr
  | .float x => floatText x
  | .str s => stringText s
  | .arr elements => "[" ++ compactElements elements ++ "]"
  | .obj fields => "\x7b" ++ compactFields fields ++ "\x7d"

def compactElements : List Json → String
  | [] => ""
  | [v] => v.compact
  | v :: rest => v.compact ++ "," ++ compactElements rest

def compactFields : List (String × Json) → String
  | [] => ""
  | [(k, v)] => stringText k ++ ":" ++ v.compact
  | (k, v) :: rest => stringText k ++ ":" ++ v.compact ++ "," ++ compactFields rest

end

/-- A line break and the blanks before a value at the given depth. -/
def newline (depth : Nat) : String :=
  "\n" ++ String.ofList (List.replicate (2 * depth) ' ')

mutual

def indented (depth : Nat) : Json → String
  | .arr [] => "[]"
  | .arr elements => "[" ++ indentedElements (depth + 1) elements ++ newline depth ++ "]"
  | .obj [] => "\x7b\x7d"
  | .obj fields => "\x7b" ++ indentedFields (depth + 1) fields ++ newline depth ++ "\x7d"
  | .null | .unreadable => "null"
  | .bool b => if b then "true" else "false"
  | .int i => i.repr
  | .float x => floatText x
  | .str s => stringText s

def indentedElements (depth : Nat) : List Json → String
  | [] => ""
  | [v] => newline depth ++ v.indented depth
  | v :: rest => newline depth ++ v.indented depth ++ "," ++ indentedElements depth rest

def indentedFields (depth : Nat) : List (String × Json) → String
  | [] => ""
  | [(k, v)] => newline depth ++ stringText k ++ ": " ++ v.indented depth
  | (k, v) :: rest =>
    newline depth ++ stringText k ++ ": " ++ v.indented depth ++ "," ++ indentedFields depth rest

end

def pretty (v : Json) : String :=
  v.indented 0

end SqlBridge.Json
