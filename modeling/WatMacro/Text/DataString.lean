import WatMacro.Text.Numeral

/-!
# Data strings

The strings of a data segment. A backslash, a double quote and a newline are written as two
characters, every other ASCII control character as a backslash and two hexadecimal digits, and all
else as itself.
-/

namespace WatMacro.Text.DataString

/-- How one character is written inside a data string. -/
def escape (c : Char) : List Char :=
  if c = '\\' then ['\\', '\\']
  else if c = '\x22' then ['\\', '\x22']
  else if c = '\n' then ['\\', 'n']
  else if c.toNat < 32 ∨ c.toNat = 127 then '\\' :: hexByte c.toNat
  else [c]

/-- Writes the characters of a text inside a data string. -/
def encode (cs : List Char) : List Char :=
  cs.flatMap escape

/-- A zero byte. -/
def zeroByte : List Char := ['\\', '0', '0']

/-- Writes a number of zero bytes. -/
def zeros (count : Nat) : List Char :=
  (List.replicate count zeroByte).flatten

end WatMacro.Text.DataString
