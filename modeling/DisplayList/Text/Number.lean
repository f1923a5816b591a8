/-!
# Reading whole numbers

A number is written with digits of its base, most significant first, after an optional sign. It is
read only if it lies in the range asked for.
-/

namespace DisplayList.Text

/-- The value of a digit of base `base`, letters of either case counting on from nine. -/
def digit? (base : Nat) (c : Char) : Option Nat :=
  let v :=
    if '0' ≤ c && c ≤ '9' then some (c.toNat - '0'.toNat)
    else if 'a' ≤ c && c ≤ 'z' then some (c.toNat - 'a'.toNat + 10)
    else if 'A' ≤ c && c ≤ 'Z' then some (c.toNat - 'A'.toNat + 10)
    else none
  v.filter (· < base)

/-- The value of a text of digits that goes on from the value `acc`. -/
def digitsFrom? (base acc : Nat) : List Char → Option Nat
  | [] => some acc
  | c :: cs => (digit? base c).bind fun d => digitsFrom? base (acc * base + d) cs

/-- The value of a text of one digit or more. -/
def digits? (base : Nat) : List Char → Option Nat
  | [] => none
  | cs => digitsFrom? base 0 cs

/-- Reads a number below `limit` that may have a plus sign. -/
def readNat? (base limit : Nat) (cs : List Char) : Option Nat :=
  let n := match cs with
    | '+' :: cs => digits? base cs
    | cs => digits? base cs
  n.filter (· < limit)

/-- Reads a decimal number from `-limit` up to but not including `limit` that may have a sign. -/
def readInt? (limit : Nat) (cs : List Char) : Option Int :=
  match cs with
  | '-' :: cs => ((digits? 10 cs).filter (· ≤ limit)).map fun n => -(n : Int)
  | cs => (readNat? 10 limit cs).map Int.ofNat

end DisplayList.Text
