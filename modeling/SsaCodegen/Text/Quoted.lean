import SsaCodegen.Text.GraphemeExtend
import SsaCodegen.Text.Unprintable

/-!
# Quoted text

A string constant in program text and in a listing stands between double quotes. Quote, backslash,
tab, newline, carriage return and NUL have two-character escapes. Any other character that has no
glyph, or that would attach to the one before it, is written as its code point in hexadecimal.
The rest, a single quote included, stands for itself.
-/

namespace SsaCodegen.Text

/-- The digits of a number in lower-case hexadecimal, without padding. -/
def hex (n : Nat) : String := String.ofList (Nat.toDigits 16 n)

/-- One character of a quoted text. -/
def escape (c : Char) : String :=
  if c = '"' then "\\\""
  else if c = '\\' then "\\\\"
  else if c = '\t' then "\\t"
  else if c = '\n' then "\\n"
  else if c = '\r' then "\\r"
  else if c = '\x00' then "\\0"
  else if isGraphemeExtend c || isUnprintable c then
    "\\u\x7b" ++ hex c.toNat ++ "\x7d"
  else String.singleton c

/-- A text between double quotes. -/
def quoted (s : String) : String := "\"" ++ String.join (s.toList.map escape) ++ "\""

end SsaCodegen.Text
