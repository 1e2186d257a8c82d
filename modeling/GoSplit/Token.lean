import GoSplit.Text

/-!
Tokens of a Go source text. A token carries the text that stands between its
predecessor and itself, so a list of tokens determines every line break the
grammar looks at without going back to the source.
-/

namespace GoSplit

inductive Bracket where
  | paren
  | square
  | curly
  deriving DecidableEq, Repr

namespace Token

inductive Kind where
  | ident
  | number
  /-- An interpreted literal between double quotes. -/
  | string
  /-- A literal between back quotes. -/
  | rawString
  | rune
  | lineComment
  | blockComment
  | opening (bracket : Bracket)
  | closing (bracket : Bracket)
  | comma
  | semicolon
  | dot
  /-- The two operators that end a statement. -/
  | incDec
  | op
  deriving DecidableEq, Repr

end Token

structure Token where
  kind : Token.Kind
  /-- What stands between the previous token of the list and this one. -/
  gap : Text
  text : Text
  /-- Byte offset of the first character. -/
  start : Nat
  deriving DecidableEq, Repr

/-- Byte range, the end exclusive. -/
structure Span where
  start : Nat
  stop : Nat
  deriving DecidableEq, Repr

namespace Span

def size (s : Span) : Nat := s.stop - s.start

def isEmpty (s : Span) : Bool := s.start == s.stop

end Span

def keywords : List Text :=
  ["break", "case", "chan", "const", "continue", "default", "defer", "else", "fallthrough",
    "for", "func", "go", "goto", "if", "import", "interface", "map", "package", "range",
    "return", "select", "struct", "switch", "type", "var"].map String.toList

def isKeyword (word : Text) : Bool := keywords.contains word

/-- The keywords after which a line break ends the statement. -/
def closingKeywords : List Text :=
  ["break", "continue", "fallthrough", "return"].map String.toList

namespace Token

def stop (t : Token) : Nat := t.start + t.text.byteLength

def span (t : Token) : Span := ⟨t.start, t.stop⟩

def isComment (t : Token) : Bool :=
  match t.kind with
  | .lineComment | .blockComment => true
  | _ => false

/-- A separator between declarations carries no declaration itself. -/
def isSeparator (t : Token) : Bool := t.isComment || t.kind == .semicolon

def isWord (word : String) (t : Token) : Bool :=
  t.kind == .ident && t.text == word.toList

/-- An identifier that is free to name something. -/
def isName (t : Token) : Bool := t.kind == .ident && !isKeyword t.text

def isStar (t : Token) : Bool := t.kind == .op && t.text == ['*']

/-- Whether a line break after the token ends the statement. -/
def endsStatement (t : Token) : Bool :=
  match t.kind with
  | .ident => !isKeyword t.text || closingKeywords.contains t.text
  | .number | .string | .rawString | .rune | .closing _ | .incDec => true
  | _ => false

/-- The token stands on a later line than its predecessor. -/
def onNewLine (t : Token) : Bool := t.gap.hasNewline

/-- The text of a run of tokens, without what stands before the first one. -/
def spell : List Token → Text
  | [] => []
  | t :: ts => t.text ++ ts.flatMap fun u => u.gap ++ u.text

/-- Leaves the comments out; the text of each becomes part of the gap in front of
the next token. -/
def withoutComments (ts : List Token) : List Token := go [] ts
where
  go (before : Text) : List Token → List Token
    | [] => []
    | t :: rest =>
      if t.isComment then go (before ++ t.gap ++ t.text) rest
      else { t with gap := before ++ t.gap } :: go [] rest

/-- Line breaks between the end of the run's predecessor and the token that
follows the run. -/
def newlinesAcross (run : List Token) (next : Token) : Nat :=
  run.foldr (fun t n => t.gap.newlines + t.text.newlines + n) next.gap.newlines

end Token

end GoSplit
