import OnePass.Text.Unprintable

/-!
# Quoted text

How a character or a string is shown between quotes: a few characters have a short
escape, the enclosing quote is escaped, and every character that is not shown as it is
becomes its code point in braces. The text in the quotes never holds a line break.
-/

namespace OnePass.Text

/-- The braced hexadecimal escape of a character. -/
def codePointEscape (c : Char) : List Char :=
  ['\\', 'u', '\x7b'] ++ Nat.toDigits 16 c.toNat ++ ['\x7d']

/-- A character as it stands between two marks `quote`. -/
def escaped (quote c : Char) : List Char :=
  if c = '\x00' then ['\\', '0']
  else if c = '\t' then ['\\', 't']
  else if c = '\r' then ['\\', 'r']
  else if c = '\n' then ['\\', 'n']
  else if c = '\\' || c = quote then ['\\', c]
  else if isUnprintable c then codePointEscape c
  else [c]

/-- A character between single quotes. -/
def quotedChar (c : Char) : String :=
  String.ofList (['\''] ++ escaped '\'' c ++ ['\''])

/-- A string between double quotes. -/
def quotedString (s : String) : String :=
  String.ofList (['"'] ++ s.toList.flatMap (escaped '"') ++ ['"'])

end OnePass.Text
