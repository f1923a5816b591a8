import DisplayList.Text.Extender
import DisplayList.Text.Hex
import DisplayList.Text.Printable

/-!
# Quoted text

A text in double quotes, in which every character can be read: quotes and backslashes get a
backslash, a few control characters their letter, and what is not printable, or would merge with
the character before it, its code point.
-/

namespace DisplayList.Text

/-- How a character is written inside quotes. -/
def escape (c : Char) : List Char :=
  match c with
  | '\x00' => ['\\', '0']
  | '\t' => ['\\', 't']
  | '\n' => ['\\', 'n']
  | '\r' => ['\\', 'r']
  | '\\' => ['\\', '\\']
  | '"' => ['\\', '"']
  | c =>
    if isExtender c || !isPrintable c then
      ['\\', 'u', '\x7b'] ++ Nat.toDigits 16 c.toNat ++ ['\x7d']
    else
      [c]

/-- A text in double quotes. -/
def quoted (s : String) : String :=
  String.ofList (['"'] ++ s.toList.flatMap escape ++ ['"'])

end DisplayList.Text
