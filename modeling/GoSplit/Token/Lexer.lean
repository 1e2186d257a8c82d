import GoSplit.Token
import GoSplit.Text.Letter

/-!
The lexer. `scan` looks at a character and what follows it and says what kind of
token starts there and how many of the following characters belong to it; the
stream of a text cuts it accordingly, leaving white space out. Since a token takes
at least one character, the rest is shorter and the stream is total. A literal or
comment without its end stops the stream with an error at its first byte.
-/

namespace GoSplit

inductive LexError.Cause where
  | unterminatedString
  | unterminatedRawString
  | unterminatedRune
  | unterminatedComment
  deriving DecidableEq, Repr

structure LexError where
  cause : LexError.Cause
  offset : Nat
  deriving DecidableEq, Repr

def LexError.Cause.message : LexError.Cause → String
  | .unterminatedString => "string literal not terminated"
  | .unterminatedRawString => "raw string literal not terminated"
  | .unterminatedRune => "rune literal not terminated"
  | .unterminatedComment => "comment not terminated"

namespace Token

/-- Blanks, line ends and the byte order mark separate tokens. -/
def isSpace (c : Char) : Bool :=
  c == ' ' || c == '\t' || c == '\n' || c == '\r' || c == '\uFEFF'

/-- Characters of a line comment after its first: up to the line break or the end,
less one carriage return right before that. -/
def lineCommentLength (rest : Text) : Nat :=
  let line := rest.takeWhile (· != '\n')
  if line.getLast? = some '\r' then line.length - 1 else line.length

/-- Characters up to and including the first end mark of a block comment. -/
def blockCommentLength : Text → Option Nat
  | [] => none
  | '*' :: '/' :: _ => some 2
  | _ :: cs => (blockCommentLength cs).map (· + 1)

/-- Characters up to and including the next back quote. -/
def rawStringLength : Text → Option Nat
  | [] => none
  | c :: cs => if c = '\x60' then some 1 else (rawStringLength cs).map (· + 1)

/-- Characters up to and including the closing quote on the same line; a backslash
takes the character after it along, whatever that is. -/
def quotedLength (quote : Char) : Text → Option Nat
  | [] => none
  | c :: cs =>
    if c = quote then some 1
    else if c = '\n' then none
    else if c = '\\' then
      match cs with
      | [] => none
      | _ :: rest => (quotedLength quote rest).map (· + 2)
    else (quotedLength quote cs).map (· + 1)

def isExponentMark (hex : Bool) (c : Char) : Bool :=
  if hex then c == 'p' || c == 'P' else c == 'e' || c == 'E' || c == 'p' || c == 'P'

def isNumberPart (c : Char) : Bool := c.isAlphanum || c == '_' || c == '.'

/-- Characters of a number: letters, digits, underscores and points, and a sign
right after an exponent mark. -/
def numberLength (hex : Bool) : Text → Nat
  | [] => 0
  | [c] => if isNumberPart c then 1 else 0
  | c :: d :: rest =>
    if !isNumberPart c then 0
    else if isExponentMark hex c && (d == '+' || d == '-') then numberLength hex rest + 2
    else numberLength hex (d :: rest) + 1

def identLength (rest : Text) : Nat := (rest.takeWhile Text.isNamePart).length

def required (cause : LexError.Cause) (kind : Kind) (length : Option Nat) :
    Except LexError.Cause (Kind × Nat) :=
  match length with
  | some n => .ok (kind, n)
  | none => .error cause

/-- The kind of the token that starts with `c`, and how many characters of what
follows belong to it. -/
def scan (c : Char) (rest : Text) : Except LexError.Cause (Kind × Nat) :=
  match c, rest with
  | '/', '/' :: _ => .ok (.lineComment, lineCommentLength rest)
  | '/', '*' :: body =>
    required .unterminatedComment .blockComment ((blockCommentLength body).map (· + 1))
  | '"', _ => required .unterminatedString .string (quotedLength '"' rest)
  | '\x60', _ => required .unterminatedRawString .rawString (rawStringLength rest)
  | '\x27', _ => required .unterminatedRune .rune (quotedLength '\x27' rest)
  | '.', '.' :: '.' :: _ => .ok (.op, 2)
  | '.', d :: _ => if d.isDigit then .ok (.number, numberLength false rest) else .ok (.dot, 0)
  | '.', [] => .ok (.dot, 0)
  | '(', _ => .ok (.opening .paren, 0)
  | ')', _ => .ok (.closing .paren, 0)
  | '[', _ => .ok (.opening .square, 0)
  | ']', _ => .ok (.closing .square, 0)
  | '\x7b', _ => .ok (.opening .curly, 0)
  | '\x7d', _ => .ok (.closing .curly, 0)
  | ',', _ => .ok (.comma, 0)
  | ';', _ => .ok (.semicolon, 0)
  | '+', '+' :: _ => .ok (.incDec, 1)
  | '-', '-' :: _ => .ok (.incDec, 1)
  | _, _ =>
    if c.isDigit then
      let hex := c == '0' && (rest.head? == some 'x' || rest.head? == some 'X')
      .ok (.number, numberLength hex rest)
    else if Text.isNameStart c then .ok (.ident, identLength rest)
    else .ok (.op, 0)

theorem length_dropWhile_le (p : Char → Bool) (t : Text) :
    (t.dropWhile p).length ≤ t.length := by
  induction t with
  | nil => simp
  | cons c cs ih =>
    rw [List.dropWhile_cons]
    split
    · exact Nat.le_succ_of_le ih
    · exact Nat.le_refl _

/-- The tokens of a text that stands at byte `offset`, in order; an error ends
the stream. -/
def streamFrom (offset : Nat) (src : Text) : List (Except LexError Token) :=
  let gap : Text := src.takeWhile isSpace
  let start := offset + gap.byteLength
  match _h : src.dropWhile isSpace with
  | [] => []
  | c :: rest =>
    match scan c rest with
    | .error cause => [.error ⟨cause, start⟩]
    | .ok (kind, n) =>
      let token : Token := ⟨kind, gap, c :: rest.take n, start⟩
      .ok token :: streamFrom token.stop (rest.drop n)
termination_by src.length
decreasing_by
  have hle := length_dropWhile_le isSpace src
  rw [_h] at hle
  simp only [List.length_cons] at hle
  simp only [List.length_drop]
  omega

def stream (src : Text) : List (Except LexError Token) := streamFrom 0 src

/-- Every result of a stream, or its error. -/
def collect {ε α : Type} : List (Except ε α) → Except ε (List α)
  | [] => .ok []
  | .error e :: _ => .error e
  | .ok a :: rest =>
    match collect rest with
    | .error e => .error e
    | .ok others => .ok (a :: others)

def tokenize (src : Text) : Except LexError (List Token) := collect (stream src)

end Token

end GoSplit
