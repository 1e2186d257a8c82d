import GoSplit.Proofs.Checked.Bytes

/-!
Tokens from bytes. The lexer looks at the byte a token starts with and at most two bytes ahead
to see which token it is, and passes over it; reading on from there until white space is all
that is left gives the tokens that the lexer on characters gives.
-/

namespace GoSplit.Checked

/-- What the parser is told of a token. -/
structure Mark where
  kind : Token.Kind
  span : Span
  deriving DecidableEq, Repr

def Mark.of (t : Token) : Mark := ⟨t.kind, t.span⟩

namespace Lexer

/-- The tokens of one byte. -/
def singles : List (Char × Token.Kind) := [
  ('(', .opening .paren), (')', .closing .paren), ('[', .opening .square), (']', .closing .square),
  ('\x7b', .opening .curly), ('\x7d', .closing .curly), (',', .comma), (';', .semicolon),
  ('.', .dot)]

def atNameStart (src : Text) (pos : Nat) : Checked LexError Bool :=
  let byte := peek src pos
  if isAlphaByte byte || isOf '_' byte then pure true
  else if 128 ≤ byte then do return (← charAt src pos).any Text.isLetter
  else pure false

/-- A name, or any other character by itself. -/
def nameOrOp (src : Text) (pos : Nat) : Checked LexError (Token.Kind × Nat) := do
  if ← atNameStart src pos then return (.ident, ← skipName src pos)
  else
    let width := ((← charAt src pos).map Char.utf8Size).getD 1
    return (.op, pos + width)

/-- Whether an ASCII character stands at a position. -/
def isAt (c : Char) (src : Text) (pos : Nat) : Bool := byte? src pos == some c.toNat

/-- The kind of the token at a position, and where it ends. -/
def token (src : Text) (pos : Nat) : Checked LexError (Token.Kind × Nat) :=
  let byte := peek src pos
  if isOf '/' byte && isAt '/' src (pos + 1) then do return (.lineComment, ← skipLine src pos)
  else if isOf '/' byte && isAt '*' src (pos + 1)
    then do return (.blockComment, ← skipBlock src pos)
  else if isOf '"' byte then do return (.string, ← skipQuoted '"' .unterminatedString src pos)
  else if isOf '\x60' byte then do return (.rawString, ← skipRaw src pos)
  else if isOf '\x27' byte then do return (.rune, ← skipQuoted '\x27' .unterminatedRune src pos)
  else if isDigitByte byte || isOf '.' byte && (byte? src (pos + 1)).any isDigitByte then do
    return (.number, ← skipNumber src pos)
  else if isOf '.' byte && isAt '.' src (pos + 1) && isAt '.' src (pos + 2) then pure (.op, pos + 3)
  else
    match singles.find? fun single => isOf single.1 byte with
    | some single => pure (single.2, pos + 1)
    | none =>
      if isOf '+' byte && isAt '+' src (pos + 1) || isOf '-' byte && isAt '-' src (pos + 1) then
        pure (.incDec, pos + 2)
      else nameOrOp src pos

/-- The next token behind white space. -/
def next (src : Text) (pos : Nat) : Checked LexError (Option Mark) := do
  let start ← skipSpace src pos
  if src.byteLength ≤ start then return none
  else
    let (kind, stop) ← token src start
    return some ⟨kind, ⟨start, stop⟩⟩

def tokenizeTurn (src : Text) (state : Nat × List Mark) :
    Checked LexError (Turn (Nat × List Mark) (List Mark)) := do
  match ← next src state.1 with
  | some mark => return .again (mark.span.stop, state.2 ++ [mark])
  | none => return .finished state.2

def tokenize (src : Text) : Checked LexError (List Mark) :=
  loop (tokenizeTurn src) (src.byteLength + 1) (0, [])

section

variable {src before rest : Text} {c : Char}

/-- The end of a token that the lexer on characters finds. -/
def ofScan (pos : Nat) (c : Char) (rest : Text) :
    Except LexError.Cause (Token.Kind × Nat) → Checked LexError (Token.Kind × Nat)
  | .ok (kind, n) => pure (kind, pos + Text.byteLength (c :: rest.take n))
  | .error cause => throw ⟨cause, pos⟩

theorem ending_bind (cause : LexError.Cause) (kind : Token.Kind) (pos : Nat) (c : Char)
    (rest : Text) (length : Option Nat) :
    (ending cause pos pos (c :: rest) (length.map (· + 1)) >>= fun stop => pure (kind, stop)) =
      ofScan pos c rest (Token.required cause kind length) := by
  cases length with
  | none => rfl
  | some n => rfl

theorem nameOrOp_eq (whole : src = before ++ c :: rest) :
    nameOrOp src before.byteLength = ofScan before.byteLength c rest
      (if Text.isNameStart c then .ok (.ident, Token.identLength rest) else .ok (.op, 0)) := by
  have start : atNameStart src before.byteLength = pure (Text.isNameStart c) := by
    rw [atNameStart, isAlphaByte_peek whole, isOf_peek whole (by decide)]
    rcases Nat.lt_or_ge c.toNat 128 with ascii | wide
    · have byte : ¬ 128 ≤ peek src before.byteLength := by
        rw [peek_of_ascii whole ascii]
        omega
      have same : Text.isNameStart c = (c.isAlpha || c == '_') := by
        simp [Text.isNameStart, Text.isLetter, ascii]
      rw [same, if_neg byte]
      cases c.isAlpha || c == '_' <;> rfl
    · have byte : 128 ≤ peek src before.byteLength := le_peek_of_wide whole wide c.utf8Size_pos
      have line : (c == '_') = false := beq_false_of_ne (by rintro rfl; revert wide; decide)
      have alpha : c.isAlpha = false := by rw [← isAlphaByte_toNat, isAlphaByte_of_wide wide]
      simp [alpha, line, byte, charAt_eq whole, Text.isNameStart]
  rw [nameOrOp, start, pure_bind]
  cases name : Text.isNameStart c with
  | true =>
    have part := Text.isNamePart_of_isNameStart name
    have taken : rest.take (Token.identLength rest) = rest.takeWhile Text.isNamePart :=
      (List.prefix_iff_eq_take.1 (List.takeWhile_prefix _)).symm
    simp only [if_true, skipName_eq whole, pure_bind, ofScan, taken,
      List.takeWhile_cons_of_pos part]
  | false =>
    simp [charAt_eq whole, ofScan]

theorem isAt_eq (whole : src = before ++ rest) {pos : Nat} (here : before.byteLength = pos)
    {k : Char} (ascii : k.toNat < 128) : isAt k src pos = (rest.head? == some k) := by
  rw [isAt, ← here, Bool.eq_iff_iff, beq_iff_eq, beq_iff_eq, byte?_eq_some_iff whole ascii]

/-- What the byte behind an ASCII character says of the text there. -/
theorem isAt_behind (whole : src = before ++ c :: rest) (ascii : c.toNat < 128) {k : Char}
    (narrow : k.toNat < 128) : isAt k src (before.byteLength + 1) = (rest.head? == some k) := by
  have behind : src = (before ++ [c]) ++ rest := by simp [whole]
  exact isAt_eq behind (by rw [byteLength_snoc, utf8Size_of_ascii ascii]) narrow

theorem any_isDigitByte_behind (whole : src = before ++ c :: rest) (ascii : c.toNat < 128) :
    (byte? src (before.byteLength + 1)).any isDigitByte = rest.head?.any Char.isDigit := by
  have behind : src = (before ++ [c]) ++ rest := by simp [whole]
  have same : before.byteLength + 1 = (before ++ [c]).byteLength := by
    rw [byteLength_snoc, utf8Size_of_ascii ascii]
  rw [same]
  cases rest with
  | nil =>
    rw [byte?_end (behind.trans (List.append_nil _))]
    rfl
  | cons d rest =>
    have digit := isDigitByte_peek behind
    rcases peek_cases behind with ⟨-, -, here⟩ | ⟨-, here⟩
    · rw [peek, here] at digit
      rw [here]
      exact digit
    · obtain ⟨b, here, -⟩ := here 0 d.utf8Size_pos
      rw [Nat.add_zero] at here
      rw [peek, here] at digit
      rw [here]
      exact digit

theorem token_slash (whole : src = before ++ '/' :: rest) :
    token src before.byteLength = ofScan before.byteLength '/' rest (Token.scan '/' rest) := by
  have is := fun k ascii => @isOf_peek src before rest '/' whole k ascii
  have behind := fun k ascii => @isAt_behind src before rest '/' whole (by decide) k ascii
  by_cases slash : rest.head? = some '/'
  · obtain ⟨more, rfl⟩ : ∃ more, rest = '/' :: more := ⟨rest.tail, List.eq_cons_of_mem_head? slash⟩
    have line := @skipLine_eq src before ('/' :: more) '/' LexError whole (by decide) rfl
    simp [token, is, behind, line, Token.scan, ofScan]
  by_cases star : rest.head? = some '*'
  · obtain ⟨more, rfl⟩ : ∃ more, rest = '*' :: more := ⟨rest.tail, List.eq_cons_of_mem_head? star⟩
    have block := ending_bind .unterminatedComment .blockComment before.byteLength '/' ('*' :: more)
      ((Token.blockCommentLength more).map (· + 1))
    rw [Option.map_map] at block
    have same : ((· + 1) ∘ (· + 1) : Nat → Nat) = (· + 2) := rfl
    rw [same, ← skipBlock_eq whole] at block
    have read : Token.scan '/' ('*' :: more) = Token.required .unterminatedComment .blockComment
        ((Token.blockCommentLength more).map (· + 1)) := rfl
    rw [read, ← block]
    simp [token, is, behind]
  · have read :=
      Token.scan_slash rest fun c mem =>
        ⟨by rintro rfl; exact slash mem, by rintro rfl; exact star mem⟩
    have plain : Text.isNameStart '/' = false := by decide
    simp [token, is, behind, slash, star, isDigitByte_peek whole, singles, nameOrOp_eq whole,
      plain, read]

theorem token_dot (whole : src = before ++ '.' :: rest) :
    token src before.byteLength = ofScan before.byteLength '.' rest (Token.scan '.' rest) := by
  have is := fun k ascii => @isOf_peek src before rest '.' whole k ascii
  have behind := fun k ascii => @isAt_behind src before rest '.' whole (by decide) k ascii
  have digit := any_isDigitByte_behind whole (by decide)
  have none : isDigitByte (peek src before.byteLength) = false := isDigitByte_peek whole
  by_cases dots : ∃ more, rest = '.' :: '.' :: more
  · obtain ⟨more, rfl⟩ := dots
    have far : isAt '.' src (before.byteLength + 2) = true := by
      have cut : src = (before ++ ['.', '.']) ++ '.' :: more := by simp [whole]
      rw [isAt_eq cut (by simp; rfl) (by decide)]
      rfl
    simp [token, is, behind, digit, none, far, Token.scan, ofScan]
    rfl
  · have apart : (isAt '.' src (before.byteLength + 1) && isAt '.' src (before.byteLength + 2)) =
        false := by
      rw [Bool.and_eq_false_iff, behind '.' (by decide)]
      cases rest with
      | nil => exact .inl rfl
      | cons d more =>
        by_cases dot : d = '.'
        · subst dot
          have cut : src = (before ++ ['.', '.']) ++ more := by simp [whole]
          refine .inr ?_
          rw [isAt_eq cut (by simp; rfl) (by decide)]
          exact beq_false_of_ne fun mem => dots ⟨more.tail, by rw [← List.eq_cons_of_mem_head? mem]⟩
        · exact .inl (beq_false_of_ne (by simpa using dot))
    rw [Token.scan_dot rest fun more eq => dots ⟨more, eq⟩]
    cases number : rest.head?.any Char.isDigit with
    | true =>
      rw [number] at digit
      simp [token, is, none, digit, skipNumber_eq whole (.inr rfl), ofScan]
    | false =>
      rw [number] at digit
      simp [token, is, none, digit, apart, singles, ofScan]
      rfl

theorem token_single (whole : src = before ++ c :: rest) (single : c ∈ singles.map Prod.fst)
    (other : c ≠ '.') :
    token src before.byteLength = ofScan before.byteLength c rest (Token.scan c rest) := by
  have is := fun k ascii => @isOf_peek src before rest c whole k ascii
  have digit := isDigitByte_peek whole
  simp only [singles, List.map_cons, List.map_nil, List.mem_cons, List.not_mem_nil,
    or_false] at single
  rcases single with rfl | rfl | rfl | rfl | rfl | rfl | rfl | rfl | dot
  case inr.inr.inr.inr.inr.inr.inr.inr => exact absurd dot other
  all_goals
    simp [token, is, digit, singles, Token.scan, ofScan]
    rfl

theorem token_sign (whole : src = before ++ c :: rest) (sign : c = '+' ∨ c = '-') :
    token src before.byteLength = ofScan before.byteLength c rest (Token.scan c rest) := by
  have read : Token.scan c rest = if rest.head? = some c then .ok (.incDec, 1)
      else .ok (.op, 0) := by
    rcases sign with rfl | rfl
    · exact Token.scan_plus rest
    · exact Token.scan_minus rest
  have ascii : c.toNat < 128 := by
    rcases sign with rfl | rfl <;> decide
  have plain : Text.isNameStart c = false := by
    rcases sign with rfl | rfl <;> decide
  have is := fun k ascii => @isOf_peek src before rest c whole k ascii
  have behind := @isAt_behind src before rest c whole ascii c ascii
  have reached : token src before.byteLength =
      if isAt c src (before.byteLength + 1) then pure (.incDec, before.byteLength + 2)
      else nameOrOp src before.byteLength := by
    rcases sign with rfl | rfl <;> simp [token, is, isDigitByte_peek whole, singles]
  rw [reached, behind, read, nameOrOp_eq whole, plain]
  by_cases double : rest.head? = some c
  · obtain ⟨more, rfl⟩ : ∃ more, rest = c :: more := ⟨rest.tail, List.eq_cons_of_mem_head? double⟩
    simp [ofScan, utf8Size_of_ascii ascii]
  · simp [double]

/-- The lexer on bytes finds the token that the lexer on characters finds. -/
theorem token_eq (whole : src = before ++ c :: rest) :
    token src before.byteLength = ofScan before.byteLength c rest (Token.scan c rest) := by
  have is := fun k ascii => @isOf_peek src before rest c whole k ascii
  by_cases mark : Token.isMark c = true
  · simp only [Token.isMark, List.contains_iff_mem, List.mem_cons, List.not_mem_nil,
      or_false] at mark
    rcases mark with
      rfl | rfl | rfl | rfl | rfl | rfl | rfl | rfl | rfl | rfl | rfl | rfl | rfl | rfl | rfl
    · exact token_slash whole
    · have read : Token.scan '"' rest = Token.required .unterminatedString .string
          (Token.quotedLength '"' rest) := rfl
      rw [read, ← ending_bind, ← skipQuoted_eq (by decide) whole]
      simp [token, is]
    · have read : Token.scan '\x60' rest = Token.required .unterminatedRawString .rawString
          (Token.rawStringLength rest) := rfl
      rw [read, ← ending_bind, ← skipRaw_eq whole]
      simp [token, is]
    · have read : Token.scan '\x27' rest = Token.required .unterminatedRune .rune
          (Token.quotedLength '\x27' rest) := rfl
      rw [read, ← ending_bind, ← skipQuoted_eq (by decide) whole]
      simp [token, is]
    · exact token_dot whole
    · exact token_single whole (by decide) (by decide)
    · exact token_single whole (by decide) (by decide)
    · exact token_single whole (by decide) (by decide)
    · exact token_single whole (by decide) (by decide)
    · exact token_single whole (by decide) (by decide)
    · exact token_single whole (by decide) (by decide)
    · exact token_single whole (by decide) (by decide)
    · exact token_single whole (by decide) (by decide)
    · exact token_sign whole (.inl rfl)
    · exact token_sign whole (.inr rfl)
  · have other : Token.isMark c = false := by simpa using mark
    have apart : ∀ k, Token.isMark k = true → (c == k) = false := by
      intro k marked
      apply beq_false_of_ne
      rintro rfl
      exact mark marked
    have skip : token src before.byteLength =
        if isDigitByte (peek src before.byteLength) then
          skipNumber src before.byteLength >>= fun stop => pure (.number, stop)
        else nameOrOp src before.byteLength := by
      simp [token, is, apart '/' rfl, apart '"' rfl, apart '\x60' rfl, apart '\x27' rfl,
        apart '.' rfl, apart '(' rfl, apart ')' rfl, apart '[' rfl, apart ']' rfl, apart '\x7b' rfl,
        apart '\x7d' rfl, apart ',' rfl, apart ';' rfl, apart '+' rfl, apart '-' rfl, singles]
    rw [skip, isDigitByte_peek whole, Token.scan_other c rest other]
    cases digit : c.isDigit with
    | true => simp [skipNumber_eq whole (.inl digit), ofScan, Token.startsHex]
    | false => simp [nameOrOp_eq whole]

/-- What comes first in a stream. -/
def first : List (Except LexError Token) → Checked LexError (Option Mark)
  | [] => pure none
  | .ok t :: _ => pure (some (.of t))
  | .error e :: _ => throw e

/-- How a stream starts. -/
theorem streamFrom_cases (offset : Nat) (rest : Text) :
    (rest.dropWhile Token.isSpace = [] ∧ Token.streamFrom offset rest = []) ∨
    (∃ c more cause, rest = rest.takeWhile Token.isSpace ++ c :: more ∧
      Token.scan c more = .error cause ∧
      Token.streamFrom offset rest =
        [.error ⟨cause, offset + Text.byteLength (rest.takeWhile Token.isSpace)⟩]) ∨
    ∃ t c more n, rest = t.gap ++ c :: more ∧ Token.scan c more = .ok (t.kind, n) ∧
      t.gap = rest.takeWhile Token.isSpace ∧ t.text = c :: more.take n ∧
      t.start = offset + t.gap.byteLength ∧
      Token.streamFrom offset rest = .ok t :: Token.streamFrom t.stop (more.drop n) := by
  have split := (List.takeWhile_append_dropWhile (p := Token.isSpace) (l := rest)).symm
  cases solid : rest.dropWhile Token.isSpace with
  | nil => exact .inl ⟨rfl, Token.streamFrom_eq_nil solid offset⟩
  | cons c more =>
    rw [solid] at split
    cases read : Token.scan c more with
    | error cause =>
      exact .inr (.inl ⟨c, more, cause, split, read, Token.streamFrom_eq_error solid read offset⟩)
    | ok found =>
      obtain ⟨kind, n⟩ := found
      exact .inr (.inr ⟨⟨kind, rest.takeWhile Token.isSpace, c :: more.take n, _⟩, c, more, n,
        split, read, rfl, rfl, rfl, Token.streamFrom_eq_cons solid read offset⟩)

theorem next_eq (whole : src = before ++ rest) :
    next src before.byteLength = first (Token.streamFrom before.byteLength rest) := by
  rw [next, skipSpace_eq whole, pure_bind]
  rcases streamFrom_cases before.byteLength rest with
    ⟨blank, stream⟩ | ⟨c, more, cause, split, read, stream⟩ |
    ⟨t, c, more, n, split, read, gap, text, start, stream⟩
  · have taken : rest.takeWhile Token.isSpace = rest := by
      have split := (List.takeWhile_append_dropWhile (p := Token.isSpace) (l := rest)).symm
      rwa [blank, List.append_nil, eq_comm] at split
    rw [stream, taken, if_pos (by simp [whole])]
    rfl
  · have cut : src = (before ++ rest.takeWhile Token.isSpace) ++ c :: more := by
      rw [List.append_assoc, ← split, whole]
    rw [stream, ← Text.byteLength_append, if_neg (not_le_of_inside cut), token_eq cut, read]
    rfl
  · have cut : src = (before ++ t.gap) ++ c :: more := by rw [List.append_assoc, ← split, whole]
    rw [stream, ← gap, ← Text.byteLength_append, if_neg (not_le_of_inside cut), token_eq cut, read,
      Text.byteLength_append, ← start]
    simp only [ofScan, pure_bind, ← text]
    rfl

/-- Reading on from a position gives the rest of the tokens. -/
theorem loop_tokenizeTurn (whole : src = before ++ rest) (read : List Mark) {turns : Nat}
    (enough : rest.byteLength < turns) :
    loop (tokenizeTurn src) turns (before.byteLength, read) =
      ofExcept ((Token.collect (Token.streamFrom before.byteLength rest)).map
        fun ts => read ++ ts.map Mark.of) := by
  obtain ⟨turns, rfl⟩ : ∃ n, turns = n + 1 := ⟨turns - 1, by omega⟩
  induction size : rest.length using Nat.strongRecOn generalizing before rest read turns with
  | ind size ih =>
  rcases streamFrom_cases before.byteLength rest with
    ⟨blank, stream⟩ | ⟨c, more, cause, split, found, stream⟩ |
    ⟨t, c, more, n, split, found, gap, text, start, stream⟩
  · have turn : tokenizeTurn src (before.byteLength, read) = pure (.finished read) := by
      rw [tokenizeTurn, next_eq whole, stream]
      rfl
    rw [loop_finished turn, stream]
    simp [Token.collect, Except.map]
  · have turn : tokenizeTurn src (before.byteLength, read) =
        throw ⟨cause, before.byteLength + Text.byteLength (rest.takeWhile Token.isSpace)⟩ := by
      rw [tokenizeTurn, next_eq whole, stream]
      rfl
    rw [loop_throw turn, stream]
    rfl
  · have turn : tokenizeTurn src (before.byteLength, read) =
        pure (.again (t.stop, read ++ [.of t])) := by
      rw [tokenizeTurn, next_eq whole, stream]
      rfl
    have behind : src = (before ++ (t.gap ++ t.text)) ++ more.drop n := by
      rw [whole, split, text]
      simp
    have reached : t.stop = (before ++ (t.gap ++ t.text)).byteLength := by
      rw [Token.stop, start]
      simp [Nat.add_assoc]
    have less : (more.drop n).length < rest.length := by
      rw [split]
      simp
      omega
    have shorter : Text.byteLength (more.drop n) < turns := by
      have pos := c.utf8Size_pos
      have kept : Text.byteLength (more.drop n) ≤ Text.byteLength more := by
        conv_rhs => rw [← List.take_append_drop n more, Text.byteLength_append]
        exact Nat.le_add_left _ _
      rw [split, Text.byteLength_append, Text.byteLength_cons] at enough
      omega
    obtain ⟨turns, rfl⟩ : ∃ n, turns = n + 1 := ⟨turns - 1, by omega⟩
    have next := ih _ (size ▸ less) behind (read ++ [.of t]) turns shorter rfl
    rw [← reached] at next
    rw [loop_again turn, next, stream, Token.collect]
    cases Token.collect (Token.streamFrom t.stop (more.drop n)) with
    | error e => rfl
    | ok ts => simp [Except.map]

/-- The lexer on bytes reads every text as the lexer on characters does. -/
theorem tokenize_eq (src : Text) :
    tokenize src = ofExcept ((Token.tokenize src).map (List.map Mark.of)) := by
  have run := @loop_tokenizeTurn src [] src rfl [] (src.byteLength + 1) (Nat.lt_succ_self _)
  simp only [List.nil_append] at run
  exact run

end

end Lexer

end GoSplit.Checked
