import SqlBridge.Binary64.Basic
import SqlBridge.Json.Basic

/-!
# JSON numbers

A numeral without a fraction and without an exponent is an integer if 64 bits hold it, signed or
unsigned; `-0` is the negative zero. Every other numeral is a float, and one beyond the range of the
floats denotes nothing. Which float it is, is a matter of the reader: the nearest one, or the one
that is reached by scaling the first digits, which is close by.
-/

namespace SqlBridge.Json

def digitsValue (digits : List Char) : Nat :=
  Nat.ofDigitChars 10 digits 0

structure Numeral where
  negative : Bool
  whole : List Char
  fraction : Option (List Char)
  exponent : Option Int

/-- Split off an exponent such as `e-7`, which must take up all of the text. -/
def readExponent? (cs : List Char) : Option (Option Int) :=
  match cs with
  | [] => some none
  | c :: rest =>
    if c = 'e' ∨ c = 'E' then
      let (negative, digits) := match rest with
        | '-' :: ds => (true, ds)
        | '+' :: ds => (false, ds)
        | ds => (false, ds)
      if !digits.isEmpty && digits.all Char.isDigit then
        let n : Int := digitsValue digits
        some (some (if negative then -n else n))
      else none
    else none

/-- Read a numeral that takes up all of the text. A whole part of several digits starts with none
that is zero, and a point is followed by a digit. -/
def Numeral.read? (cs : List Char) : Option Numeral := do
  let (negative, cs) := match cs with
    | '-' :: rest => (true, rest)
    | _ => (false, cs)
  let whole := cs.takeWhile Char.isDigit
  if whole.isEmpty || (whole.head? == some '0' && whole.length != 1) then none
  else
    match cs.dropWhile Char.isDigit with
    | '.' :: rest =>
      let fraction := rest.takeWhile Char.isDigit
      if fraction.isEmpty then none
      else do
        let exponent ← readExponent? (rest.dropWhile Char.isDigit)
        pure ⟨negative, whole, some fraction, exponent⟩
    | rest => do
      let exponent ← readExponent? rest
      pure ⟨negative, whole, none, exponent⟩

/-- The float nearest to a numeral, if it is finite. -/
def Numeral.nearest? (n : Numeral) : Option Binary64 :=
  let fraction := n.fraction.getD []
  let x := Binary64.ofDecimal n.negative (digitsValue (n.whole ++ fraction))
    (n.exponent.getD 0 - fraction.length)
  if x.isFinite then some x else none

/-- Append digits to a number as long as 64 bits hold the result. The second component counts the
digits left over. -/
def appendDigits (m : Nat) : List Char → Nat × Nat
  | [] => (m, 0)
  | d :: rest =>
    let next := 10 * m + (d.toNat - '0'.toNat)
    if next < 2 ^ 64 then appendDigits next rest else (m, rest.length + 1)

/-- The float that scaling gives for a numeral, if it is in range. Digits beyond 64 bits count only
as places; those after the point are tried again after those before it. -/
def Numeral.scaled? (n : Numeral) : Option Binary64 :=
  let fraction := n.fraction.getD []
  let (m, wholeLeft) := appendDigits 0 n.whole
  let (m, fractionLeft) := appendDigits m fraction
  Binary64.scaled? n.negative m
    (n.exponent.getD 0 + wholeLeft + fractionLeft - fraction.length)

/-- The integer that a numeral is, if it has neither a fraction nor an exponent and 64 bits hold it.
Zero with a sign is none. -/
def Numeral.integer? (n : Numeral) : Option Int :=
  let m := digitsValue n.whole
  if n.fraction.isSome || n.exponent.isSome then none
  else if n.negative then
    if m ≠ 0 ∧ m ≤ 2 ^ 63 then some (-m) else none
  else if m < 2 ^ 64 then some m else none

/-- The value of a numeral, its float being found by `float?` if it is not an integer. -/
def Numeral.value (float? : Numeral → Option Binary64) (n : Numeral) : Json :=
  match n.integer? with
  | some i => .int i
  | none => (float? n).elim .unreadable .float

end SqlBridge.Json
