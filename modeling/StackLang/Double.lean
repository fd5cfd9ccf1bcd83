/-!
# Double-precision numbers

A `Double` is its 64 bits. Equality is equality of bits, so `-0.0` and `0.0` are two values, and a
literal keeps its bits wherever it is stored. Sums, products and roots round to nearest even;
sign changes, truncation and the floor are defined on the bits themselves.
-/

namespace StackLang

/-- An IEEE 754 double, as its bits. -/
structure Double where
  bits : UInt64
  deriving DecidableEq

namespace Double

def ofFloat (x : Float) : Double := ⟨x.toBits⟩

def toFloat (d : Double) : Float := Float.ofBits d.bits

def zero : Double := ⟨0⟩

def one : Double := ⟨0x3ff0000000000000⟩

def negOne : Double := ⟨0xbff0000000000000⟩

/-! ## Fields

A finite double is `± significand · 2 ^ exponent`. -/

/-- The sign bit is set. -/
def isNegative (d : Double) : Bool := d.bits >>> 63 == 1

def exponentField (d : Double) : Nat := ((d.bits >>> 52) &&& 0x7ff).toNat

def fraction (d : Double) : Nat := (d.bits &&& 0xfffffffffffff).toNat

def isFinite (d : Double) : Bool := d.exponentField != 0x7ff

def isNaN (d : Double) : Bool := d.exponentField == 0x7ff && d.fraction != 0

/-- The whole number that is scaled: the fraction, with its leading one if the double is normal. -/
def significand (d : Double) : Nat :=
  if d.exponentField = 0 then d.fraction else d.fraction + 0x10000000000000

/-- The power of two that the significand is scaled by. -/
def exponent (d : Double) : Int := (max d.exponentField 1 : Nat) - 1075

/-! ## Operations -/

instance : Add Double := ⟨fun a b => ofFloat (a.toFloat + b.toFloat)⟩
instance : Sub Double := ⟨fun a b => ofFloat (a.toFloat - b.toFloat)⟩
instance : Mul Double := ⟨fun a b => ofFloat (a.toFloat * b.toFloat)⟩
instance : Div Double := ⟨fun a b => ofFloat (a.toFloat / b.toFloat)⟩

/-- Negation flips the sign bit, of a NaN too. -/
instance : Neg Double := ⟨fun d => ⟨d.bits ^^^ 0x8000000000000000⟩⟩

def abs (d : Double) : Double := ⟨d.bits &&& 0x7fffffffffffffff⟩

def sqrt (d : Double) : Double := ofFloat d.toFloat.sqrt

/-- Three-way comparison. An unordered pair counts as greater, and the two zeros are equal. -/
def compare (a b : Double) : Ordering :=
  if a.toFloat < b.toFloat then .lt else if a.toFloat == b.toFloat then .eq else .gt

/-- The double nearest to a word, ties to even. -/
def ofWord (n : UInt64) : Double := ofFloat n.toFloat

/-- The double nearest to an int, ties to even. -/
def ofInt (n : Int64) : Double :=
  if n < 0 then -ofWord (0 - n.toUInt64) else ofWord n.toUInt64

/-- The whole part of the magnitude of a finite double. -/
def wholePart (d : Double) : Nat :=
  if 0 ≤ d.exponent then d.significand <<< d.exponent.toNat
  else d.significand >>> (-d.exponent).toNat

/-- The int nearest to `n`: itself inside the 64-bit range, the end of the range outside. -/
def clamp (n : Int) : Int64 :=
  if n < Int64.minValue.toInt then .minValue
  else if Int64.maxValue.toInt < n then .maxValue
  else .ofInt n

/-- Conversion to an int: towards zero, NaN gives 0, and what does not fit gives the end of the
range on its side. -/
def truncate (d : Double) : Int64 :=
  if d.isNaN then 0
  else if d.isFinite then clamp (if d.isNegative then -(d.wholePart : Int) else d.wholePart)
  else if d.isNegative then Int64.minValue else Int64.maxValue

/-- The largest whole double at most `d`. From `2 ^ 52` on every double is whole. -/
def floor (d : Double) : Double :=
  if 0 ≤ d.exponent then d
  else if d.wholePart <<< (-d.exponent).toNat = d.significand then d
  else if d.isNegative then -ofWord (d.wholePart + 1).toUInt64
  else ofWord d.wholePart.toUInt64

end Double

end StackLang
