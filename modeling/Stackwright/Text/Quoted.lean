import Stackwright.Text.Unprintable

/-
  Stackwright.Text.Quoted — text and characters between quote marks.

  Inside the quotes, the quote mark itself and the backslash are escaped, five common
  controls have short forms, and every other character that cannot be printed is written
  by its number.
-/

namespace Stackwright.Text

def hexDigits (n : Nat) : List Char := Nat.toDigits 16 n

def escape (quote c : Char) : List Char :=
  if c == quote || c == '\\' then ['\\', c]
  else if c == '\n' then ['\\', 'n']
  else if c == '\r' then ['\\', 'r']
  else if c == '\t' then ['\\', 't']
  else if c.toNat == 0 then ['\\', '0']
  else if c.toNat < 0x20 || Unprintable.contains c.toNat then
    ['\\', 'u', '\x7b'] ++ hexDigits c.toNat ++ ['\x7d']
  else [c]

def quoted (s : String) : String :=
  String.ofList ('"' :: s.toList.flatMap (escape '"') ++ ['"'])

def quotedChar (c : Char) : String := String.ofList ('\'' :: escape '\'' c ++ ['\''])

end Stackwright.Text
