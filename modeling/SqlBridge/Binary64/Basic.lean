/-!
# Binary64 numbers

A finite number is kept by its sign and its rank: the number of non-negative finite numbers below
its magnitude. Ranks have no gaps, so every value of the type is a number, neighbours have
neighbouring ranks, and rounding can count instead of packing fields. There is one NaN.

A non-negative ratio is rounded to the nearest number, a tie going to the even significand, and to
infinity from half a step above the largest number. Decimal numerals and integers are rounded
through their exact ratio, so no error is made on the way.

A product or a quotient of two numbers is the exact one rounded once. A number is scaled by a power
of ten in one such operation if that power is a number, and divided by a greater one in several. The
digits, the power and each operation are rounded, so the result may lie some steps beside the number
nearest to the decimal; it is that number where nothing had to be rounded.
-/

-- A power with a literal exponent is the core library's, whatever algebra is imported beside it.
-- For the same reason one with any other exponent is written with `Nat.pow`.
attribute [default_instance 20000] instPowNat

namespace SqlBridge

inductive Binary64 where
  | nan
  | infinity (negative : Bool)
  | finite (negative : Bool) (rank : Fin (2047 * 2 ^ 52))
deriving DecidableEq, Repr

namespace Binary64

def zero (negative : Bool) : Binary64 :=
  .finite negative ⟨0, by decide⟩

instance : Inhabited Binary64 := ⟨zero false⟩

def isFinite : Binary64 → Bool
  | .finite _ _ => true
  | _ => false

/-- The significand `m` of the number of a rank, whose magnitude is `m * 2 ^ q`. -/
def significand (rank : Nat) : Nat :=
  if rank < 2 ^ 52 then rank else 2 ^ 52 + rank % 2 ^ 52

/-- The exponent `q` of the number of a rank, whose magnitude is `m * 2 ^ q`. -/
def exponent (rank : Nat) : Int :=
  if rank < 2 ^ 52 then -1074 else (rank / 2 ^ 52 : Nat) - 1075

def ofRank (negative : Bool) (rank : Nat) : Binary64 :=
  if h : rank < 2047 * 2 ^ 52 then .finite negative ⟨rank, h⟩ else .infinity negative

end Binary64

end SqlBridge

/-! ### Rounding to the nearest number -/

namespace SqlBridge.Binary64

/-- The integer nearest to `num / den`, a tie going to the even one. -/
def divRoundEven (num den : Nat) : Nat :=
  let q := num / den
  let r := num % den
  if 2 * r < den then q else if den < 2 * r then q + 1 else q + q % 2

/-- The exponent `q ≥ -1074` for which `num / den` lies in `[2 ^ 52, 2 ^ 53) * 2 ^ q`, or `-1074`
if the ratio is too small for that. -/
def exponentOfRatio (num den : Nat) : Int :=
  let e : Int := (num.log2 : Int) - den.log2
  let reaches := if 0 ≤ e then den * Nat.pow 2 e.toNat ≤ num else den ≤ num * Nat.pow 2 (-e).toNat
  max (if reaches then e - 52 else e - 53) (-1074)

/-- The rank of the number nearest to `num / den`. A rank beyond the largest number stands for
infinity. -/
def rankOfRatio (num den : Nat) : Nat :=
  if num = 0 then 0
  else
    let q := exponentOfRatio num den
    let m := divRoundEven (num * Nat.pow 2 (-q).toNat) (den * Nat.pow 2 q.toNat)
    (q + 1074).toNat * 2 ^ 52 + m

def ofRatio (negative : Bool) (num den : Nat) : Binary64 :=
  ofRank negative (rankOfRatio num den)

/-- The number nearest to `digits * 10 ^ exponent`. Magnitudes from `10 ^ 310` round to infinity
and those below `10 ^ (-330)` to zero, whatever their digits, so huge powers are never formed. -/
def ofDecimal (negative : Bool) (digits : Nat) (exponent : Int) : Binary64 :=
  if digits = 0 then zero negative
  else
    let size := ((Nat.toDigits 10 digits).length : Int) + exponent
    if 310 < size then .infinity negative
    else if size < -330 then zero negative
    else ofRatio negative (digits * Nat.pow 10 exponent.toNat) (Nat.pow 10 (-exponent).toNat)

/-- The number nearest to an integer. Zero is positive. -/
def ofInt (i : Int) : Binary64 :=
  ofRatio (decide (i < 0)) i.natAbs 1

/-! ### Scaling by powers of ten -/

def numerator (rank : Nat) : Nat :=
  significand rank * Nat.pow 2 (exponent rank).toNat

def denominator (rank : Nat) : Nat :=
  Nat.pow 2 (-exponent rank).toNat

def product (a b : Nat) : Nat :=
  rankOfRatio (numerator a * numerator b) (denominator a * denominator b)

/-- The rank of the quotient of the numbers of two ranks, the second of which is not zero. -/
def quotient (a b : Nat) : Nat :=
  rankOfRatio (numerator a * denominator b) (denominator a * numerator b)

def powerOfTen (k : Nat) : Nat :=
  rankOfRatio (Nat.pow 10 k) 1

/-- The exponent of the greatest power of ten that does not round to infinity. -/
def maxPower : Nat := 308

theorem maxPower_pos : 0 < maxPower := by decide

/-- The rank of the number of a rank divided by `10 ^ k`, the greatest power first. -/
def dividedByPower (rank k : Nat) : Nat :=
  if rank = 0 then 0
  else if _ : k ≤ maxPower then quotient rank (powerOfTen k)
  else dividedByPower (quotient rank (powerOfTen maxPower)) (k - maxPower)
termination_by k
decreasing_by
  have beyond : maxPower < k := Nat.lt_of_not_le ‹_›
  exact Nat.sub_lt (Nat.lt_of_le_of_lt (Nat.zero_le _) beyond) maxPower_pos

/-- The number nearest to `digits`, scaled by `10 ^ exponent`. There is none if that is beyond the
largest number. -/
def scaled? (negative : Bool) (digits : Nat) (exponent : Int) : Option Binary64 :=
  if digits = 0 then some (zero negative)
  else
    let rank := rankOfRatio digits 1
    if exponent < 0 then some (ofRank negative (dividedByPower rank (-exponent).toNat))
    else if maxPower < exponent then none
    else
      let x := ofRank negative (product rank (powerOfTen exponent.toNat))
      if x.isFinite then some x else none

end SqlBridge.Binary64
