/-!
# The parts of a 64-bit float

A finite float is a sign and `mantissa · 2 ^ exponent`.  `Binary64.parts` reads them off the bits, `Binary64.ofParts`
writes them back, and everything that has to be exact on floats (the remainder here, the shortest decimal digits
elsewhere) is integer arithmetic on those parts.

Conversion from an integer rounds to the nearest float, a tie to the even mantissa.  The order is the one of the
values: the two zeros are equal, and a float that is not a number stands in no order with anything.
-/
namespace Splice.Binary64

/-- A finite float: `mantissa · 2 ^ exponent`, negated if `negative`. -/
structure Parts where
  negative : Bool
  mantissa : Nat
  exponent : Int

def fractionBits : Nat := 52

/-- The exponent of the smallest positive float. -/
def minExponent : Int := -1074

def isNegative (x : Float) : Bool := x.toBits ≥ 0x8000000000000000

/-- The least mantissa of full width. -/
def fullMantissa : Nat := 1 <<< fractionBits

/-- The parts of a finite float.  The mantissa has at most 53 bits, and fewer only at the least exponent. -/
def parts (x : Float) : Parts :=
  let bits := x.toBits.toNat
  let fraction := bits % fullMantissa
  let biased := (bits >>> fractionBits) % 2048
  if biased = 0 then ⟨isNegative x, fraction, minExponent⟩
  else ⟨isNegative x, fullMantissa + fraction, minExponent + (biased - 1 : Nat)⟩

/-- The float with these parts, for a mantissa of at most 53 bits and an exponent that is not below the least one.  The
mantissa is first brought as close to 53 bits as the exponent allows. -/
def ofParts (p : Parts) : Float :=
  let spare := fractionBits - p.mantissa.log2
  let shift := min spare (p.exponent - minExponent).toNat
  let mantissa := p.mantissa <<< shift
  let biased := (p.exponent - shift - minExponent).toNat + 1
  let magnitude :=
    if mantissa < fullMantissa then mantissa else (biased <<< fractionBits) + (mantissa - fullMantissa)
  let sign := if p.negative then 1 <<< 63 else 0
  Float.ofBits (UInt64.ofNat (sign + magnitude))

def nan : Float := 0.0 / 0.0

/-- The float nearest to an integer; of two equally near ones the one with the even mantissa. -/
def ofInt64 (n : Int64) : Float :=
  if n < 0 then -(UInt64.ofNat n.toInt.natAbs).toFloat else n.toUInt64.toFloat

/-- The order of two floats; none if one of them is not a number. -/
def order (a b : Float) : Option Ordering :=
  if a < b then some .lt
  else if a == b then some .eq
  else if b < a then some .gt
  else none

/-- The exact remainder of the division toward zero; it has the sign of the dividend.  There is none for an infinite
dividend and a zero divisor, and an infinite divisor leaves the dividend as it is. -/
def rem (a b : Float) : Float :=
  if a.isNaN || b.isNaN || a.isInf || b == 0.0 then nan
  else if b.isInf then a
  else
    let p := parts a
    let q := parts b
    let least := min p.exponent q.exponent
    let dividend := p.mantissa <<< (p.exponent - least).toNat
    let divisor := q.mantissa <<< (q.exponent - least).toNat
    ofParts ⟨p.negative, dividend % divisor, least⟩

end Splice.Binary64
