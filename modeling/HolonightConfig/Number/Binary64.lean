import HolonightConfig.Text.Bytes
import Mathlib.Algebra.Ring.Int.Defs
import Mathlib.Algebra.Ring.Nat

/-! IEEE 754 binary64 by its bit pattern: the comparisons, the exact conversions to
and from integers, and correctly rounded conversion from and to decimal. -/

structure Binary64 where
  bits : UInt64
  deriving DecidableEq

namespace Binary64
open Text

def signBit : ℕ := 2 ^ 63
def infinityBits : ℕ := 0x7FF0000000000000

def negative (d : Binary64) : Bool := signBit ≤ d.bits.toNat
def magnitude (d : Binary64) : ℕ := d.bits.toNat % signBit
def isNaN (d : Binary64) : Bool := infinityBits < d.magnitude
def isFinite (d : Binary64) : Bool := d.magnitude < infinityBits

/-- Sign and magnitude read as one integer order all numbers; both zeros are 0. -/
def key (d : Binary64) : ℤ := if d.negative then -(d.magnitude : ℤ) else d.magnitude

def eq (a b : Binary64) : Bool := !a.isNaN && !b.isNaN && a.key == b.key
def lt (a b : Binary64) : Bool := !a.isNaN && !b.isNaN && decide (a.key < b.key)

/-- Fraction with the hidden bit, and the power of two it is scaled by. -/
def significand (d : Binary64) : ℕ :=
  if d.magnitude / 2 ^ 52 = 0 then d.magnitude else 2 ^ 52 + d.magnitude % 2 ^ 52
def scale (d : Binary64) : ℤ := max (d.magnitude / 2 ^ 52 : ℕ) 1 - 1075

/-- A finite magnitude as a quotient. -/
def ratio (d : Binary64) : ℕ × ℕ :=
  if 0 ≤ d.scale then (d.significand * 2 ^ d.scale.toNat,1)
  else (d.significand,2 ^ (-d.scale).toNat)

/-- The integer a whole number is, if it has one. -/
def toInteger (d : Binary64) : Option ℤ :=
  if d.isFinite ∧ d.ratio.1 % d.ratio.2 = 0 then
    let n : ℤ := (d.ratio.1 / d.ratio.2 : ℕ)
    some (if d.negative then -n else n)
  else none

def halfEven (num den : ℕ) : ℕ :=
  let q := num / den
  let r := num % den
  if den < 2 * r ∨ (den = 2 * r ∧ q % 2 = 1) then q + 1 else q

def scaled (num den : ℕ) (base : ℕ) (power : ℤ) : ℕ × ℕ :=
  if 0 ≤ power then (num * base ^ power.toNat,den) else (num,den * base ^ (-power).toNat)

/-- Nearest number to a quotient, ties to the even significand. -/
def ofRatio (sign : Bool) (num den : ℕ) : Binary64 :=
  let s := if sign then signBit else 0
  if num = 0 then ⟨s.toUInt64⟩
  else
    let l : ℤ := (Nat.log2 num : ℤ) - Nat.log2 den
    let v := scaled num den 2 (-l)
    let e := if v.2 ≤ v.1 then l else l - 1
    let ulp := max (e - 52) (-1074)
    let w := scaled num den 2 (-ulp)
    let m := (ulp + 1074).toNat * 2 ^ 52 + halfEven w.1 w.2
    ⟨(s + min m infinityBits).toUInt64⟩

def ofInteger (n : ℤ) : Binary64 := ofRatio (n < 0) n.natAbs 1

/-- `mantissa * 10 ^ exponent`; the cut-offs lie far outside the range of binary64. -/
def ofDecimal (sign : Bool) (mantissa : ℕ) (exponent : ℤ) : Binary64 :=
  if 400 < exponent ∧ mantissa ≠ 0 then ⟨((if sign then signBit else 0) + infinityBits).toUInt64⟩
  else if exponent < -400 - (Nat.log2 mantissa : ℤ) then ofRatio sign 0 1
  else
    let v := scaled mantissa 1 10 exponent
    ofRatio sign v.1 v.2

def infinity (sign : Bool) : Binary64 := ⟨((if sign then signBit else 0) + infinityBits).toUInt64⟩
def quietNaN (sign : Bool) : Binary64 := ⟨((if sign then signBit else 0) + infinityBits + 2 ^ 51).toUInt64⟩

/-- Decimal digits of a natural number. -/
def decimal (n : ℕ) : Bytes := (Nat.toDigits 10 n).map (fun c => c.toNat.toUInt8)

def decimalInteger (n : ℤ) : Bytes :=
  if n < 0 then 0x2D :: decimal n.natAbs else decimal n.natAbs

/-- The decimal exponent of the first digit of a nonzero quotient. -/
def leading (num den : ℕ) : ℤ :=
  if den ≤ num then (decimal (num / den)).length - 1
  else
    let j := (decimal (den / num)).length - 1
    if den ≤ num * 10 ^ j then -(j : ℤ) else -(j + 1 : ℤ)

/-- `precision` significant digits of a nonzero quotient and the decimal exponent of
the first one. -/
def significantDigits (precision num den : ℕ) : ℕ × ℤ :=
  let x := leading num den
  let v := scaled num den 10 ((precision : ℤ) - 1 - x)
  let d := halfEven v.1 v.2
  if d = 10 ^ precision then (10 ^ (precision - 1),x + 1) else (d,x)

def trimZeros (digits : Bytes) : Bytes := (digits.reverse.dropWhile (· == 0x30)).reverse

def withFraction (whole fraction : Bytes) : Bytes :=
  if trimZeros fraction = [] then whole else whole ++ 0x2E :: trimZeros fraction

/-- A sign and two digits at least. -/
def exponentText (x : ℤ) : Bytes :=
  let ds := decimal x.natAbs
  (if x < 0 then 0x2D else 0x2B) :: (if ds.length < 2 then 0x30 :: ds else ds)

/-- The general format of C streams: `precision` significant digits, without trailing
zeros, in fixed notation unless the exponent is small or reaches the precision. -/
def general (precision : ℕ) (d : Binary64) : Bytes :=
  let sign : Bytes := if d.negative then [0x2D] else []
  if d.isNaN then sign ++ bytes "nan"
  else if !d.isFinite then sign ++ bytes "inf"
  else if d.magnitude = 0 then sign ++ [0x30]
  else
    let (digits,x) := significantDigits precision d.ratio.1 d.ratio.2
    let ds := decimal digits
    if -4 ≤ x ∧ x < precision then
      if 0 ≤ x then sign ++ withFraction (ds.take (x.toNat + 1)) (ds.drop (x.toNat + 1))
      else sign ++ withFraction [0x30] (List.replicate (-x - 1).toNat 0x30 ++ ds)
    else sign ++ withFraction (ds.take 1) (ds.drop 1) ++ 0x65 :: exponentText x

end Binary64
