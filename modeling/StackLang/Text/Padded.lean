/-!
# Columns

Text set in a column of a least width. Text that is wider than its column is left as it is.
-/

namespace StackLang.Text

/-- Sets `s` at the left of a column of `width` characters. -/
def padRight (width : Nat) (s : String) : String :=
  s ++ "".pushn ' ' (width - s.length)

/-- Sets `s` at the right of a column of `width` characters. -/
def padLeft (width : Nat) (s : String) : String :=
  "".pushn ' ' (width - s.length) ++ s

/-- A number with leading zeros, at least `width` digits. -/
def zeroPadded (width : Nat) (n : Nat) : String :=
  let digits := toString n
  "".pushn '0' (width - digits.length) ++ digits

/-- A number in lower-case hexadecimal digits, at least `width` of them. -/
def hex (width : Nat) (n : Nat) : String :=
  let digits := String.ofList (Nat.toDigits 16 n)
  "".pushn '0' (width - digits.length) ++ digits

end StackLang.Text
