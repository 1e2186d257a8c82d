import GoSplit.Toml

/-!
Strings, numbers, times and keys of TOML. A reader gives what it has read and the
text behind it, or nothing when the text is malformed.
-/

namespace GoSplit.Toml

def skipBlanks (t : Text) : Text := t.dropWhile fun c => c == ' ' || c == '\t'

/-- A line break, alone or after a carriage return. -/
def newline? : Text → Option Text
  | '\n' :: rest => some rest
  | '\r' :: '\n' :: rest => some rest
  | _ => none

/-- Characters that may stand in comments and, apart from their quotes, in strings. -/
def isPlain (c : Char) : Bool :=
  c == '\t' || (0x20 ≤ c.toNat && c.toNat != 0x7F)

/-- Passes over a comment, up to the line break that ends it. -/
def skipComment : Text → Text
  | '#' :: rest => rest.dropWhile isPlain
  | t => t

def hexValue? (c : Char) : Option Nat :=
  if '0' ≤ c ∧ c ≤ '9' then some (c.toNat - '0'.toNat)
  else if 'a' ≤ c ∧ c ≤ 'f' then some (c.toNat - 'a'.toNat + 10)
  else if 'A' ≤ c ∧ c ≤ 'F' then some (c.toNat - 'A'.toNat + 10)
  else none

/-- The code point written with exactly `digits` hexadecimal digits. -/
def codePoint? : (digits : Nat) → (value : Nat) → Text → Option (Char × Text)
  | 0, value, rest =>
    if value.isValidChar then some (Char.ofNat value, rest) else none
  | _ + 1, _, [] => none
  | digits + 1, value, c :: rest =>
    match hexValue? c with
    | some d => codePoint? digits (16 * value + d) rest
    | none => none

/-- The character an escape stands for, read behind the backslash. -/
def escape? : Text → Option (Char × Text)
  | 'b' :: rest => some ('\x08', rest)
  | 't' :: rest => some ('\t', rest)
  | 'n' :: rest => some ('\n', rest)
  | 'f' :: rest => some ('\x0c', rest)
  | 'r' :: rest => some ('\r', rest)
  | '"' :: rest => some ('"', rest)
  | '\\' :: rest => some ('\\', rest)
  | 'u' :: rest => codePoint? 4 0 rest
  | 'U' :: rest => codePoint? 8 0 rest
  | _ => none

/-- A string behind its double quote, on one line. -/
def basicString? (fuel : Nat) (t : Text) : Option (Text × Text) :=
  match fuel, t with
  | 0, _ => none
  | _, [] => none
  | _ + 1, '"' :: rest => some ([], rest)
  | n + 1, '\\' :: rest =>
    match escape? rest with
    | some (c, after) => (basicString? n after).map fun (s, tail) => (c :: s, tail)
    | none => none
  | n + 1, c :: rest =>
    if isPlain c then (basicString? n rest).map fun (s, tail) => (c :: s, tail) else none

/-- A string behind its single quote, on one line, taken as it stands. -/
def literalString? : Text → Option (Text × Text)
  | [] => none
  | c :: rest =>
    if c = '\x27' then some ([], rest)
    else if isPlain c then (literalString? rest).map fun (s, tail) => (c :: s, tail)
    else none

/-- The quotes at the head of the text: at least three end a string of several lines,
and up to two more before them belong to it. -/
def closingQuotes (quote : Char) (t : Text) : Option (Text × Text) :=
  let run := t.takeWhile (· == quote)
  if 3 ≤ run.length then
    let taken := min run.length 5
    some (List.replicate (taken - 3) quote, t.drop taken)
  else none

/-- Passes over the white space and line breaks behind a backslash at the end of a line. -/
def skipFolded : Text → Text
  | ' ' :: rest | '\t' :: rest | '\n' :: rest | '\r' :: '\n' :: rest => skipFolded rest
  | t => t

def foldsLine (t : Text) : Bool := (newline? (skipBlanks t)).isSome

/-- A string of several lines behind its three double quotes. -/
def basicLines? (fuel : Nat) (t : Text) : Option (Text × Text) :=
  match fuel with
  | 0 => none
  | n + 1 =>
    match closingQuotes '"' t with
    | some closed => some closed
    | none =>
      match t with
      | [] => none
      | '\\' :: rest =>
        if foldsLine rest then basicLines? n (skipFolded rest)
        else match escape? rest with
          | some (c, after) => (basicLines? n after).map fun (s, tail) => (c :: s, tail)
          | none => none
      | c :: rest =>
        match newline? t with
        | some after => (basicLines? n after).map fun (s, tail) => ('\n' :: s, tail)
        | none =>
          if isPlain c then (basicLines? n rest).map fun (s, tail) => (c :: s, tail) else none

/-- A string of several lines behind its three single quotes. -/
def literalLines? (fuel : Nat) (t : Text) : Option (Text × Text) :=
  match fuel with
  | 0 => none
  | n + 1 =>
    match closingQuotes '\x27' t with
    | some closed => some closed
    | none =>
      match t with
      | [] => none
      | c :: rest =>
        match newline? t with
        | some after => (literalLines? n after).map fun (s, tail) => ('\n' :: s, tail)
        | none =>
          if isPlain c then (literalLines? n rest).map fun (s, tail) => (c :: s, tail) else none

/-- A string in any of its four forms. A line break right behind three quotes is not
part of the string. -/
def string? (t : Text) : Option (Text × Text) :=
  match t with
  | '"' :: '"' :: '"' :: rest =>
    basicLines? (t.length + 1) ((newline? rest).getD rest)
  | '"' :: rest => basicString? (t.length + 1) rest
  | '\x27' :: '\x27' :: '\x27' :: rest =>
    literalLines? (t.length + 1) ((newline? rest).getD rest)
  | '\x27' :: rest => literalString? rest
  | _ => none

def isBareKeyPart (c : Char) : Bool := c.isAlphanum || c == '_' || c == '-'

def simpleKey? (t : Text) : Option (Text × Text) :=
  match t with
  | '"' :: rest => basicString? (t.length + 1) rest
  | '\x27' :: rest => literalString? rest
  | _ =>
    let key := t.takeWhile isBareKeyPart
    if key.isEmpty then none else some (key, t.dropWhile isBareKeyPart)

/-- Keys separated by dots, with blanks allowed around them; `parts` bounds how many. -/
def key? (parts : Nat) (t : Text) : Option (List Text × Text) :=
  match parts with
  | 0 => none
  | n + 1 =>
    match simpleKey? (skipBlanks t) with
    | none => none
    | some (key, rest) =>
      match skipBlanks rest with
      | '.' :: after => (key? n after).map fun (keys, tail) => (key :: keys, tail)
      | after => some ([key], after)

/-- Digits with single underscores between them: the digits and the text behind. -/
def digits? (isDigit : Char → Bool) (t : Text) : Option (Text × Text) :=
  let run := t.takeWhile fun c => isDigit c || c == '_'
  let rest := t.dropWhile fun c => isDigit c || c == '_'
  if (Text.pieces '_' run).all fun part => !part.isEmpty then
    some (run.filter (· != '_'), rest)
  else none

def valueIn (base : Nat) (digits : Text) : Nat :=
  digits.foldl (fun n c => base * n + (hexValue? c).getD 0) 0

def optionalSign : Text → Bool × Text
  | '+' :: rest => (false, rest)
  | '-' :: rest => (true, rest)
  | t => (false, t)

/-- Whole numbers have to fit in 64 bits. -/
def fits64 (negative : Bool) (n : Nat) : Bool :=
  if negative then n ≤ 0x8000000000000000 else n < 0x8000000000000000

def basedInteger? (base : Nat) (isDigit : Char → Bool) (t : Text) : Option (Value × Text) :=
  match digits? isDigit t with
  | some (digits, rest) =>
    if fits64 false (valueIn base digits) then some (.integer, rest) else none
  | none => none

/-- The digits behind the point of a number, if it has one. -/
def fraction? (t : Text) : Option (Option Text × Text) :=
  match t with
  | '.' :: rest => (digits? Char.isDigit rest).map fun (digits, tail) => (some digits, tail)
  | _ => some (none, t)

/-- The exponent of a number, if its mark stands at the head of the text. -/
def exponent? (t : Text) : Option (Option Int × Text) :=
  match t with
  | 'e' :: rest | 'E' :: rest =>
    let (negative, unsigned) := optionalSign rest
    (digits? Char.isDigit unsigned).map fun (digits, tail) =>
      let size : Int := valueIn 10 digits
      (some (if negative then -size else size), tail)
  | _ => some (none, t)

/-- Half a unit above the largest number of double precision. From here on numbers round
to infinity. -/
def roundingLimit : Nat := Nat.pow 2 1024 - Nat.pow 2 970

/-- Whether the digits, times ten to a power, stay below the rounding limit. -/
def isFinite (digits : Text) : (power : Int) → Bool
  | .ofNat power =>
    valueIn 10 digits == 0 || power ≤ 308 && valueIn 10 digits * Nat.pow 10 power < roundingLimit
  | .negSucc power =>
    digits.length ≤ power || valueIn 10 digits < roundingLimit * Nat.pow 10 (power + 1)

/-- A decimal number: whole without point and exponent, and never with a leading zero.
Only negative numbers may be too large for double precision. -/
def decimal? (t : Text) : Option (Value × Text) :=
  let (negative, unsigned) := optionalSign t
  match digits? Char.isDigit unsigned with
  | none => none
  | some (digits, rest) =>
    if digits.length != 1 && digits.head? == some '0' then none
    else match fraction? rest with
      | none => none
      | some (fraction, behind) =>
        match exponent? behind with
        | none => none
        | some (exponent, tail) =>
          if fraction.isSome || exponent.isSome then
            let places := fraction.getD []
            if negative || isFinite (digits ++ places) (exponent.getD 0 - places.length) then
              some (.float, tail)
            else none
          else if fits64 negative (valueIn 10 digits) then some (.integer, tail)
          else none

def isOctal (c : Char) : Bool := '0' ≤ c && c ≤ '7'

def number? (t : Text) : Option (Value × Text) :=
  match t with
  | '0' :: 'x' :: rest => basedInteger? 16 (fun c => (hexValue? c).isSome) rest
  | '0' :: 'o' :: rest => basedInteger? 8 isOctal rest
  | '0' :: 'b' :: rest => basedInteger? 2 (fun c => c == '0' || c == '1') rest
  | _ =>
    match (optionalSign t).2 with
    | 'i' :: 'n' :: 'f' :: rest => some (.float, rest)
    | 'n' :: 'a' :: 'n' :: rest => some (.float, rest)
    | _ => decimal? t

/-- Exactly `count` digits, as a number. -/
def fixedDigits? (count : Nat) (t : Text) : Option (Nat × Text) :=
  let digits := t.take count
  if digits.length = count ∧ digits.all Char.isDigit then some (valueIn 10 digits, t.drop count)
  else none

def isLeapYear (year : Nat) : Bool :=
  (year % 4 == 0 && year % 100 != 0) || year % 400 == 0

def daysIn (year month : Nat) : Nat :=
  if month == 2 then (if isLeapYear year then 29 else 28)
  else if month == 4 || month == 6 || month == 9 || month == 11 then 30
  else 31

def date? (t : Text) : Option Text :=
  match fixedDigits? 4 t with
  | some (year, '-' :: rest) =>
    match fixedDigits? 2 rest with
    | some (month, '-' :: rest) =>
      match fixedDigits? 2 rest with
      | some (day, rest) =>
        if 1 ≤ month ∧ month ≤ 12 ∧ 1 ≤ day ∧ day ≤ daysIn year month then some rest else none
      | none => none
    | _ => none
  | _ => none

/-- Hours and minutes. -/
def clock? (t : Text) : Option Text :=
  match fixedDigits? 2 t with
  | some (hour, ':' :: rest) =>
    match fixedDigits? 2 rest with
    | some (minute, rest) => if hour < 24 ∧ minute < 60 then some rest else none
    | none => none
  | _ => none

def time? (t : Text) : Option Text :=
  match clock? t with
  | some (':' :: rest) =>
    match fixedDigits? 2 rest with
    | some (second, rest) =>
      if second ≤ 60 then
        match rest with
        | '.' :: fraction =>
          if (fraction.head?.any Char.isDigit) then some (fraction.dropWhile Char.isDigit) else none
        | _ => some rest
      else none
    | none => none
  | _ => none

def offset? (t : Text) : Option Text :=
  match t with
  | 'Z' :: rest | 'z' :: rest => some rest
  | '+' :: rest | '-' :: rest => clock? rest
  | _ => some t

/-- A date, a time, or both with an optional offset. -/
def datetime? (t : Text) : Option (Value × Text) :=
  match date? t with
  | some rest =>
    let both : Option Text := match rest with
      | 'T' :: after | 't' :: after => (time? after).bind offset?
      | ' ' :: after => if (time? after).isSome then (time? after).bind offset? else some rest
      | _ => some rest
    both.map fun tail => (.datetime, tail)
  | none => (time? t).map fun tail => (.datetime, tail)

/-- Whether a text that starts with a digit goes on as a date or a time. -/
def looksLikeDatetime (t : Text) : Bool :=
  match (t.dropWhile Char.isDigit).head?, (t.takeWhile Char.isDigit).length with
  | some '-', 4 => true
  | some ':', 2 => true
  | _, _ => false

/-- A value that contains no others. -/
def scalar? (t : Text) : Option (Value × Text) :=
  match t with
  | '"' :: _ | '\x27' :: _ => (string? t).map fun (s, tail) => (.string s, tail)
  | 't' :: 'r' :: 'u' :: 'e' :: rest => some (.boolean true, rest)
  | 'f' :: 'a' :: 'l' :: 's' :: 'e' :: rest => some (.boolean false, rest)
  | _ => if looksLikeDatetime t then datetime? t else number? t

end GoSplit.Toml
