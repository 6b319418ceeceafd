import RowStore.Text.Glyph

/-!
# Quoted text

A text shown between double quotes, the way failures show the text of a value or the path of a
file.  Inside the quotes a quote and a backslash stand behind a backslash, the four control
characters with a short name (NUL, tab, line feed, carriage return) are written by it, and every
other character without a glyph of its own is written as `\u` with its code in braces.
-/

namespace RowStore.Text

/-- A character by its code: `\u`, then the lower-case hexadecimal digits between braces. -/
def byCode (c : Char) : List Char :=
  ['\\', 'u', '\x7b'] ++ Nat.toDigits 16 c.toNat ++ ['\x7d']

/-- One character as it stands between the quotes. -/
def quotedChar (c : Char) : List Char :=
  if c = '"' then ['\\', '"']
  else if c = '\\' then ['\\', '\\']
  else if c = '\n' then ['\\', 'n']
  else if c = '\r' then ['\\', 'r']
  else if c = '\t' then ['\\', 't']
  else if c.toNat = 0 then ['\\', '0']
  else if hasGlyph c then [c]
  else byCode c

/-- A text between double quotes. -/
def quoted (s : String) : String :=
  String.ofList ('"' :: s.toList.flatMap quotedChar ++ ['"'])

end RowStore.Text
