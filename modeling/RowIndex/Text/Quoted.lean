import RowIndex.Text.Hexadecimal
import RowIndex.Text.Printable

/-! # Quoted texts

A text between double quotes, in which the quote, the backslash and every character that has no
glyph of its own are escaped.

* **`escape`** — the written form of one character.
* **`quote`** — a whole text. -/

namespace RowIndex.Quoted

/-- **The written form of one character.** Line ends, tabs and NUL have short escapes, other hidden
characters their code point in braces; the apostrophe stands as it is. -/
def escape (c : Char) : List Char :=
  if c = '"' then ['\\', '"']
  else if c = '\\' then ['\\', '\\']
  else if c = '\n' then ['\\', 'n']
  else if c = '\r' then ['\\', 'r']
  else if c = '\t' then ['\\', 't']
  else if c = '\x00' then ['\\', '0']
  else if Printable.isPrintable c then [c]
  else ['\\', 'u', '\x7b'] ++ Nat.toDigits 16 c.toNat ++ ['\x7d']

/-- **A text between double quotes.** -/
def quote (text : String) : String :=
  String.ofList ('"' :: text.toList.flatMap escape ++ ['"'])

end RowIndex.Quoted
