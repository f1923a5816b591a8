/-!
# Hexadecimal text

Addresses and words are shown in base sixteen, padded with zeros on the left to a least width.
-/

namespace DisplayList.Text

/-- `digits`, padded with zeros on the left to at least `width` characters. -/
def zeroPadded (width : Nat) (digits : List Char) : String :=
  String.ofList (List.replicate (width - digits.length) '0' ++ digits)

/-- `n` in base sixteen, in lower case, with at least `width` digits. -/
def hex (width n : Nat) : String :=
  zeroPadded width (Nat.toDigits 16 n)

/-- `n` in base sixteen, in upper case, with at least `width` digits. -/
def hexUpper (width n : Nat) : String :=
  zeroPadded width ((Nat.toDigits 16 n).map Char.toUpper)

end DisplayList.Text
