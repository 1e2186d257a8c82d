import GoSplit.Text
import GoSplit.Text.Visible

/-!
Text in quotes for diagnostics: quotes, backslashes and line control are written with a
backslash, other characters that do not show by themselves by their code.
-/

namespace GoSplit.Text.Quoted

/-- The code of a character in braces. -/
def code (c : Char) : Text := "\\u\x7b".toList ++ Nat.toDigits 16 c.toNat ++ ['\x7d']

def escape (c : Char) : Text :=
  if c = '"' ∨ c = '\\' then ['\\', c]
  else if c = '\n' then ['\\', 'n']
  else if c = '\r' then ['\\', 'r']
  else if c = '\t' then ['\\', 't']
  else if c.toNat = 0 then ['\\', '0']
  else if isVisible c then [c]
  else code c

def encode (t : Text) : Text := '"' :: t.flatMap escape ++ ['"']

end GoSplit.Text.Quoted
