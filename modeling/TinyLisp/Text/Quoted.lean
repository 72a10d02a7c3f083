import TinyLisp.Text.Printable

/-!
# Quoted texts

A text is shown between double quotes on a single line: quotes and backslashes
are escaped, the common control characters have a letter of their own, and every
other hidden character is shown by its code point.
-/

namespace TinyLisp.Quoted

/-- A code point in lower-case hexadecimal, in braces. -/
def codePoint (c : Char) : List Char :=
  ['\\', 'u', '\x7b'] ++ Nat.toDigits 16 c.toNat ++ ['\x7d']

/-- A character as it is shown inside a quoted text. -/
def escape (c : Char) : List Char :=
  if c = '\x00' then ['\\', '0']
  else if c = '\t' then ['\\', 't']
  else if c = '\r' then ['\\', 'r']
  else if c = '\n' then ['\\', 'n']
  else if c = '\\' then ['\\', '\\']
  else if c = '\x22' then ['\\', '\x22']
  else if Printable.isHidden c then codePoint c
  else [c]

/-- A text between double quotes, with all that cannot stand there escaped. -/
def quote (s : String) : String :=
  String.ofList ('\x22' :: s.toList.flatMap escape ++ ['\x22'])

end TinyLisp.Quoted
