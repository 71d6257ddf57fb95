import Splice.Number.Shortest
/-!
# Layouts of a decimal number

The digits of a float are the shortest that read back; a `Layout` decides how they are set.  There are two: values are
written positionally whatever their size, literals keep a fraction and use an exponent far away from one.
-/
namespace Splice

structure Layout where
  /-- Whether a whole number keeps the fraction `.0` in positional notation. -/
  keepsFraction : Bool
  /-- Whether an exponent is used if the point stands at this place: place one is after the first digit, and places
  from zero down are left of all digits. -/
  usesExponent : Int → Bool

namespace Layout

/-- Values are written without exponent: `1`, `0.00001`. -/
def value : Layout := ⟨false, fun _ => false⟩

/-- Literals show that they are floats, and use an exponent below `10 ^ -4` and from `10 ^ 16` on: `1.0`, `1e-5`. -/
def literal : Layout := ⟨true, fun point => point < -3 || point > 16⟩

/-- Digits `ds` with the point at place `point`. -/
def positional (layout : Layout) (ds : List Char) (point : Int) : String :=
  if point ≤ 0 then "0." ++ String.ofList (List.replicate (-point).toNat '0' ++ ds)
  else
    let whole := ds.take point.toNat ++ List.replicate (point.toNat - ds.length) '0'
    let fraction := ds.drop point.toNat
    if !fraction.isEmpty then String.ofList (whole ++ '.' :: fraction)
    else if layout.keepsFraction then String.ofList whole ++ ".0"
    else String.ofList whole

/-- Digits `ds` with the point after the first one, times the power of ten that this takes. -/
def withExponent (ds : List Char) (point : Int) : String :=
  let mantissa := match ds with
    | d :: rest@(_ :: _) => d :: '.' :: rest
    | ds => ds
  String.ofList mantissa ++ "e" ++ toString (point - 1)

def textOfDecimal (layout : Layout) (d : Decimal) : String :=
  let ds := Nat.toDigits 10 d.digits
  let point := ds.length + d.exponent
  if layout.usesExponent point then withExponent ds point else positional layout ds point

def text (layout : Layout) (x : Float) : String :=
  if x.isNaN then "NaN"
  else
    let sign := if Binary64.isNegative x then "-" else ""
    if x.isInf then sign ++ "inf"
    else
      let p := Binary64.parts x
      if p.mantissa = 0 then sign ++ (if layout.keepsFraction then "0.0" else "0")
      else sign ++ textOfDecimal layout (Shortest.shortest p.mantissa p.exponent)

end Layout

end Splice
