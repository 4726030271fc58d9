import SqlBridge.Binary64.Basic

/-!
# Writing numbers

The digits written for a number are the fewest that read back as that number and, among those, the
nearest to it. For one digit, two digits and so on, the two decimals around the number on the grid
of that many digits are tested, in exact arithmetic, against the interval of reals that round to
it; the first grid with a hit decides. A layout says how these digits are put on paper: up to which
magnitudes they stand in their places, whether a whole number keeps a point, and which way ties go.
-/

namespace SqlBridge.Binary64

/-! ### Shortest digits -/

/-- What is chosen of two decimals at the same distance. -/
inductive Tie where
  | toEven
  | up
deriving DecidableEq, Repr

/-- A positive real with the reals that round to it, all as numerators over one denominator. -/
structure Rounded where
  /-- Numerator of the lower end of the interval. -/
  low : Nat
  /-- Numerator of the number itself. -/
  mid : Nat
  /-- Numerator of the upper end of the interval. -/
  high : Nat
  /-- The common denominator. -/
  den : Nat
  /-- Whether the two ends round to the number. -/
  closed : Bool

/-- The interval of the number of a positive rank. Both ends lie half a step away, except below a
power of two, where steps are half as long; they belong to it when the significand is even. -/
def Rounded.ofRank (rank : Nat) : Rounded :=
  let m := significand rank
  let q := exponent rank
  let unit := Nat.pow 2 q.toNat
  let below := if m = 2 ^ 52 ∧ -1074 < q then 1 else 2
  { low := (4 * m - below) * unit
    mid := 4 * m * unit
    high := (4 * m + 2) * unit
    den := 4 * Nat.pow 2 (-q).toNat
    closed := m % 2 = 0 }

def Rounded.inUnits (r : Rounded) (p : Int) : Rounded :=
  let up := Nat.pow 10 (-p).toNat
  { low := r.low * up, mid := r.mid * up, high := r.high * up
    den := r.den * Nat.pow 10 p.toNat, closed := r.closed }

def Rounded.contains (r : Rounded) (d : Nat) : Bool :=
  if r.closed then r.low ≤ d * r.den && d * r.den ≤ r.high
  else r.low < d * r.den && d * r.den < r.high

/-- The whole number of units nearest to the number among its two neighbours that round to it. -/
def Rounded.nearest? (r : Rounded) (tie : Tie) : Option Nat :=
  let d := r.mid / r.den
  let twice := 2 * (r.mid % r.den)
  match r.contains d, r.contains (d + 1) with
  | true, false => some d
  | false, true => some (d + 1)
  | false, false => none
  | true, true =>
    if twice < r.den then some d
    else if r.den < twice then some (d + 1)
    else match tie with
      | .toEven => some (d + d % 2)
      | .up => some (d + 1)

/-- The exponent `k` with `10 ^ k ≤ x < 10 ^ (k + 1)` for the number `x` of the interval. -/
def Rounded.magnitude (r : Rounded) : Int :=
  if r.den ≤ r.mid then ((Nat.toDigits 10 (r.mid / r.den)).length : Int) - 1
  else -((Nat.toDigits 10 ((r.den + r.mid - 1) / r.mid - 1)).length : Int)

structure Decimal where
  digits : Nat
  exponent : Int
deriving DecidableEq, Repr

/-- The same decimal without trailing zeros, where at most `n` are taken off. -/
def Decimal.trim : Nat → Decimal → Decimal
  | 0, d => d
  | n + 1, d =>
    if d.digits ≠ 0 ∧ d.digits % 10 = 0 then Decimal.trim n ⟨d.digits / 10, d.exponent + 1⟩ else d

/-- The shortest decimal that reads back as the number of a positive rank. Seventeen digits always
suffice. -/
def shortest (tie : Tie) (rank : Nat) : Decimal :=
  let r := Rounded.ofRank rank
  let k := r.magnitude
  let found := (List.range 17).findSome? fun (i : Nat) =>
    ((r.inUnits (k - i)).nearest? tie).map fun d => Decimal.mk d (k - i)
  (found.getD ⟨r.mid / r.den, 0⟩).trim 17

/-! ### Layouts -/

structure Layout where
  /-- Whether a number whose first digit counts `10 ^ k` is written without an exponent. -/
  positional : Int → Bool
  /-- What follows a whole number written without an exponent. -/
  wholeEnd : String
  /-- What is chosen of two shortest decimals at the same distance. -/
  tie : Tie

/-- The digits in their places, the first of them counting `10 ^ k`. -/
def Layout.inPlace (l : Layout) (digits : List Char) (k : Int) : String :=
  if k < 0 then "0." ++ String.ofList (List.replicate (-k - 1).toNat '0' ++ digits)
  else
    let whole := k.toNat + 1
    if digits.length ≤ whole then
      String.ofList (digits ++ List.replicate (whole - digits.length) '0') ++ l.wholeEnd
    else String.ofList (digits.take whole) ++ "." ++ String.ofList (digits.drop whole)

/-- The digits with a point after the first one, and the exponent `k` with its sign. -/
def scientific (digits : List Char) (k : Int) : String :=
  let fraction := digits.drop 1
  String.ofList (digits.take 1)
    ++ (if fraction.isEmpty then "" else "." ++ String.ofList fraction)
    ++ (if k < 0 then "e-" else "e+") ++ k.natAbs.repr

def Layout.magnitude (l : Layout) (rank : Nat) : String :=
  if rank = 0 then "0" ++ l.wholeEnd
  else
    let d := shortest l.tie rank
    let digits := Nat.toDigits 10 d.digits
    let k := d.exponent + digits.length - 1
    if l.positional k then l.inPlace digits k else scientific digits k

/-- The text of a number. A zero keeps its sign. -/
def Layout.text (l : Layout) : Binary64 → String
  | .nan => "NaN"
  | .infinity negative => if negative then "-inf" else "inf"
  | .finite negative rank => (if negative then "-" else "") ++ l.magnitude rank

end SqlBridge.Binary64
