import SqlBridge.CompileError

/-!
# Literals

What a token says as a value. Quoted text is a string whatever it holds; a bare word is a
placeholder, a keyword or a number if it has the form of one, and otherwise a string too.
Placeholders are then replaced by the parameters they name.
-/

namespace SqlBridge

namespace Literal

def areDigits (cs : List Char) : Bool :=
  !cs.isEmpty && cs.all Char.isDigit

/-- Split off a sign: whether it is a minus, and what follows. -/
def splitSign : List Char → Bool × List Char
  | '-' :: rest => (true, rest)
  | '+' :: rest => (false, rest)
  | cs => (false, cs)

/-- The number that a run of digits denotes: an integer if 64 signed bits hold it, and otherwise
the nearest float. -/
def integer (negative : Bool) (digits : List Char) : Value :=
  let n := Nat.ofDigitChars 10 digits 0
  let i : Int := if negative then -n else n
  if -2 ^ 63 ≤ i ∧ i < 2 ^ 63 then .int (.ofInt i) else .float (.ofDecimal negative n 0)

/-- The value of a word that has the form of a number: digits, perhaps after a sign, perhaps with a
point and more digits. -/
def number? (cs : List Char) : Option Value :=
  let (negative, digits) := splitSign cs
  let whole := digits.takeWhile (· ≠ '.')
  match digits.dropWhile (· ≠ '.') with
  | [] => if areDigits whole then some (integer negative whole) else none
  | _ :: fraction =>
    if areDigits whole && areDigits fraction then
      some (.float (.ofDecimal negative (Nat.ofDigitChars 10 (whole ++ fraction) 0)
        (-(fraction.length : Int))))
    else none

/-- The name of the placeholder that a word is, if it is one: a colon and at least one more
character. -/
def placeholder? (word : String) : Option String :=
  match word.toList with
  | ':' :: c :: rest => some (String.ofList (c :: rest))
  | _ => none

def ofWord (word : String) : Value :=
  match placeholder? word with
  | some name => .placeholder name
  | none =>
    if Text.sameWord word "true" then .bool true
    else if Text.sameWord word "false" then .bool false
    else if Text.sameWord word "null" then .null
    else (number? word.toList).getD (.str word)

end Literal

def Token.literal : Token → Value
  | .quoted text => .str text
  | .identifier name => .str name
  | .word text => Literal.ofWord text
  | token => .str token.display

namespace Params

/-- Replace a placeholder by its parameter, which must not be a placeholder in turn. -/
def bind (params : Params) : Value → Except CompileError Value
  | .placeholder name =>
    match params.get? name with
    | none => .error (.missingBinding name)
    | some value => if value.isPlaceholder then .error (.missingBinding name) else .ok value
  | value => .ok value

def valueOf (params : Params) (token : Token) : Except CompileError Value :=
  params.bind token.literal

/-- The value of an operand of LIMIT or OFFSET: an integer that is not negative. -/
def countOf (params : Params) (token : Token) : Except CompileError UInt64 := do
  match ← params.valueOf token with
  | .int i =>
    if i.toInt < 0 then .error (.malformedClause (.negativeCount i.toInt))
    else .ok (.ofNat i.toInt.toNat)
  | value => .error (.malformedClause (.countNotInteger value))

end Params

end SqlBridge
