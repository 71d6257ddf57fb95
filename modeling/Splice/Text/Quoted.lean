import Splice.Text.Printable
/-!
# Texts in double quotes

`Quoted.text` writes a string so that it can stand in one line: between double quotes, with the quote, the backslash
and the common controls as two-character escapes, and every other character that is not printable as its code point in
hexadecimal.  A single quote stands for itself.
-/
namespace Splice.Quoted

def hex (n : Nat) : List Char := Nat.toDigits 16 n

/-- How one character is written inside quotes. -/
def escape (c : Char) : List Char :=
  if c = '"' then ['\\', '"']
  else if c = '\\' then ['\\', '\\']
  else if c = '\n' then ['\\', 'n']
  else if c = '\r' then ['\\', 'r']
  else if c = '\t' then ['\\', 't']
  else if c = '\x00' then ['\\', '0']
  else if Printable.isPrintable c then [c]
  else ['\\', 'u', '\x7b'] ++ hex c.toNat ++ ['\x7d']

def text (s : String) : String :=
  String.ofList ('"' :: s.toList.flatMap escape ++ ['"'])

end Splice.Quoted
