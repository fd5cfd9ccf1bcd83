import StackLang.Double
import StackLang.Double.Digits

/-!
# Written doubles

Three forms: `text`, which never has an exponent; `literal`, which always shows that the number is
a double and has an exponent far from one; and `oneDecimal`, for percentages. The first two have
the fewest digits that read back.
-/

namespace StackLang.Double

/-! ## Digits and point -/

/-- Digits with a decimal point: the number `0.digits · 10 ^ point`. -/
structure Digits where
  digits : List Char
  point : Int

/-- A decimal's digits without trailing zeros. -/
def Decimal.toDigits (d : Decimal) : Digits :=
  let all := Nat.toDigits 10 d.coefficient
  { digits := (all.reverse.dropWhile (· = '0')).reverse
    point := all.length + d.exponent }

/-- The fewest digits that read as this double, which is finite and not zero. -/
def shortestDigits (d : Double) : Digits :=
  let near := d.fraction = 0 ∧ 1 < d.exponentField
  (Interval.around d.significand d.exponent near).shortest.toDigits

namespace Digits

def zeros (n : Int) : List Char := List.replicate n.toNat '0'

/-- Without an exponent. `whole` is what follows a number without decimals. -/
def positional (d : Digits) (whole : String) : String :=
  if d.point ≤ 0 then "0." ++ String.ofList (zeros (-d.point) ++ d.digits)
  else if d.digits.length ≤ d.point then
    String.ofList (d.digits ++ zeros (d.point - d.digits.length)) ++ whole
  else
    String.ofList (d.digits.take d.point.toNat ++ '.' :: d.digits.drop d.point.toNat)

/-- With an exponent: one digit, the decimals if there are any, `e` and the power of ten. -/
def scientific (d : Digits) : String :=
  let decimals := if d.digits.length ≤ 1 then [] else '.' :: d.digits.drop 1
  String.ofList (d.digits.take 1 ++ decimals) ++ "e" ++ toString (d.point - 1)

end Digits

/-! ## The written forms -/

/-- Writes the sign, and the texts of NaN and the infinities. -/
def signed (d : Double) (zero : String) (nonzero : Digits → String) : String :=
  if d.isNaN then "NaN"
  else
    (if d.isNegative then "-" else "") ++
      if d.isFinite then
        if d.significand = 0 then zero else nonzero d.shortestDigits
      else "inf"

/-- The printed form: no exponent, and no point after a whole number. -/
def text (d : Double) : String := d.signed "0" (·.positional "")

/-- The form of a literal in a listing: a whole number keeps one decimal, and numbers below
`10 ^ -4` or from `10 ^ 16` on have an exponent. -/
def literal (d : Double) : String :=
  d.signed "0.0" fun digits =>
    if -4 < digits.point ∧ digits.point ≤ 16 then digits.positional ".0" else digits.scientific

/-- The quotient `n / d`, rounded to the nearest whole number; half way goes to the even one. -/
def roundHalfEven (n d : Nat) : Nat :=
  let q := n / d
  let r := n % d
  if 2 * r < d then q
  else if d < 2 * r then q + 1
  else q + q % 2

/-- A finite double that is not negative, rounded to one decimal, ties to even. -/
def oneDecimal (d : Double) : String :=
  let tenths :=
    roundHalfEven ((10 * d.significand) <<< d.exponent.toNat) (1 <<< (-d.exponent).toNat)
  toString (tenths / 10) ++ "." ++ toString (tenths % 10)

end StackLang.Double
