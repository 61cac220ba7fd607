import JsonRecords.Text.Visible

/-!
# Quoted text in messages

Text that appears inside a message stands between quotes, with everything that
is not visible written as an escape.
-/

namespace JsonRecords

namespace Quoted

def hexDigits (n : Nat) : List Char :=
  Nat.toDigits 16 n

def char (c : Char) : List Char :=
  if c = '\x00' then ['\\', '0']
  else if c = '\t' then ['\\', 't']
  else if c = '\n' then ['\\', 'n']
  else if c = '\r' then ['\\', 'r']
  else if c = '"' then ['\\', '"']
  else if c = '\\' then ['\\', '\\']
  else if isVisible c then [c]
  else ['\\', 'u', '\x7b'] ++ hexDigits c.toNat ++ ['\x7d']

def quote (s : String) : String :=
  String.ofList ('"' :: s.toList.flatMap char ++ ['"'])

end Quoted

end JsonRecords
