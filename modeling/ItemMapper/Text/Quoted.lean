import ItemMapper.Text.Printable

/-!
# Quoted text

Names and strings in messages stand between double quotes.  Quotes, backslashes and the common
control characters are escaped by a backslash, every other character that is not shown as it is
by its code point in braces.
-/

namespace ItemMapper.Text

/-- The code point of a character in lower-case hexadecimal digits. -/
def codePoint (c : Char) : List Char :=
  Nat.toDigits 16 c.toNat

/-- A character as it stands between the quotes. -/
def escape (c : Char) : List Char :=
  if c = '"' then ['\\', '"']
  else if c = '\\' then ['\\', '\\']
  else if c = '\n' then ['\\', 'n']
  else if c = '\r' then ['\\', 'r']
  else if c = '\t' then ['\\', 't']
  else if c = '\x00' then ['\\', '0']
  else if isShown c then [c]
  else ['\\', 'u', '{'] ++ codePoint c ++ ['}']

/-- The text between double quotes, with what is not shown as it is escaped. -/
def quote (text : String) : String :=
  String.ofList (['"'] ++ text.toList.flatMap escape ++ ['"'])

end ItemMapper.Text
