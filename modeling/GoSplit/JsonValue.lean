import GoSplit.Text

/-!
JSON values and their written form: one item or field a line, two blanks deeper with
every level, fields in the order they are given.
-/

namespace GoSplit

inductive JsonValue where
  | null
  | boolean (b : Bool)
  | number (n : Nat)
  | string (t : Text)
  | array (items : List JsonValue)
  | object (fields : List (String × JsonValue))
  deriving Repr

namespace JsonValue

def hexDigit (n : Nat) : Char := Nat.digitChar (n % 16)

def escape (c : Char) : Text :=
  if c = '"' ∨ c = '\\' then ['\\', c]
  else if c = '\n' then ['\\', 'n']
  else if c = '\r' then ['\\', 'r']
  else if c = '\t' then ['\\', 't']
  else if c.toNat = 8 then ['\\', 'b']
  else if c.toNat = 12 then ['\\', 'f']
  else if c.toNat < 0x20 then
    ['\\', 'u', '0', '0', hexDigit (c.toNat / 16), hexDigit c.toNat]
  else [c]

def quote (t : Text) : Text := '"' :: t.flatMap escape ++ ['"']

def lineBreak (depth : Nat) : Text := '\n' :: List.replicate (2 * depth) ' '

/-- Parts between brackets, each on a line of its own. -/
def enclose (depth : Nat) (opening closing : Char) : List Text → Text
  | [] => [opening, closing]
  | parts =>
    opening :: lineBreak (depth + 1)
      ++ Text.joinWith (',' :: lineBreak (depth + 1)) parts
      ++ lineBreak depth ++ [closing]

mutual

def write (depth : Nat) : JsonValue → Text
  | .null => "null".toList
  | .boolean true => "true".toList
  | .boolean false => "false".toList
  | .number n => Text.ofNat n
  | .string t => quote t
  | .array items => enclose depth '[' ']' (writeItems (depth + 1) items)
  | .object fields => enclose depth '\x7b' '\x7d' (writeFields (depth + 1) fields)

def writeItems (depth : Nat) : List JsonValue → List Text
  | [] => []
  | v :: rest => write depth v :: writeItems depth rest

def writeFields (depth : Nat) : List (String × JsonValue) → List Text
  | [] => []
  | (name, v) :: rest =>
    (quote name.toList ++ ':' :: ' ' :: write depth v) :: writeFields depth rest

end

def text (v : JsonValue) : Text := v.write 0

end JsonValue

end GoSplit
