import SplitOrder.Text.Printable

/-!
# Quoted text

A text between double quotes, on one line, in printable characters only. Quotes and backslashes
get a backslash in front, the common controls have a letter each, and every other character that
cannot stand for itself is written as its code point in hexadecimal digits between braces.

* `hexadecimal`, `hexadecimalPadded` — lower-case hexadecimal digits.
* `quoted` — the quoted form.
-/

namespace SplitOrder.Text

/-- The lower-case hexadecimal digits of a number, without leading zeros. -/
def hexadecimal (n : Nat) : String :=
  String.ofList (Nat.toDigits 16 n)

/-- The lower-case hexadecimal digits of a number, with leading zeros up to the given width. -/
def hexadecimalPadded (width n : Nat) : String :=
  let digits := Nat.toDigits 16 n
  String.ofList (List.replicate (width - digits.length) '0' ++ digits)

def escaped (c : Char) : String :=
  if c = '"' then "\\\""
  else if c = '\\' then "\\\\"
  else if c = '\n' then "\\n"
  else if c = '\t' then "\\t"
  else if c = '\r' then "\\r"
  else if c.val = 0 then "\\0"
  else if IsPrintable c then c.toString
  else "\\u\x7b" ++ hexadecimal c.toNat ++ "\x7d"

def quoted (s : String) : String :=
  "\"" ++ String.join (s.toList.map escaped) ++ "\""

end SplitOrder.Text
