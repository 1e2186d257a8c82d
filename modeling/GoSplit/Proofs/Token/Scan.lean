import GoSplit.Token.Lexer

/-!
How the lexer finds the end of one token. It looks past the end by at most two
characters, and whether they belong to the token is decided by `lengthens`. The main
statement is `reads_iff`: a token other than a line comment is read in front of a text
exactly when it is read at the end of the input and the text does not lengthen it.
-/

namespace GoSplit.Token

/-! ### The branches of the lexer by first character -/

section Branches

attribute [local simp] scan

theorem scan_slash (rest : Text) (h : ∀ c ∈ rest.head?, c ≠ '/' ∧ c ≠ '*') :
    scan '/' rest = .ok (.op, 0) := by
  unfold scan
  split <;> simp_all
  decide

theorem scan_slashes (body : Text) :
    scan '/' ('/' :: body) = .ok (.lineComment, lineCommentLength ('/' :: body)) := rfl

theorem scan_dots (more : Text) : scan '.' ('.' :: '.' :: more) = .ok (.op, 2) := rfl

theorem scan_dot (rest : Text) (h : ∀ more, rest ≠ '.' :: '.' :: more) :
    scan '.' rest =
      if rest.head?.any Char.isDigit then .ok (.number, numberLength false rest)
      else .ok (.dot, 0) := by
  cases rest with
  | nil => simp
  | cons d more =>
    unfold scan
    split <;> simp_all

theorem scan_plus (rest : Text) :
    scan '+' rest = if rest.head? = some '+' then .ok (.incDec, 1) else .ok (.op, 0) := by
  have plain : Text.isNameStart '+' = false := by decide
  cases rest with
  | nil => simp [plain]
  | cons d more =>
    unfold scan
    split <;> simp_all

theorem scan_minus (rest : Text) :
    scan '-' rest = if rest.head? = some '-' then .ok (.incDec, 1) else .ok (.op, 0) := by
  have plain : Text.isNameStart '-' = false := by decide
  cases rest with
  | nil => simp [plain]
  | cons d more =>
    unfold scan
    split <;> simp_all

end Branches

/-- The characters that decide by themselves, or with their neighbours, which token
starts. -/
def isMark (c : Char) : Bool :=
  ['/', '"', '\x60', '\x27', '.', '(', ')', '[', ']', '\x7b', '\x7d', ',', ';', '+', '-'].contains c

/-- Whether a number that starts with `c` is hexadecimal. -/
def startsHex (c : Char) (rest : Text) : Bool :=
  c == '0' && (rest.head? == some 'x' || rest.head? == some 'X')

theorem scan_other (c : Char) (rest : Text) (h : isMark c = false) :
    scan c rest =
      if c.isDigit then .ok (.number, numberLength (startsHex c rest) rest)
      else if Text.isNameStart c then .ok (.ident, identLength rest)
      else .ok (.op, 0) := by
  unfold scan
  split <;> first | rfl | simp [isMark] at h

/-! ### Literals and block comments carry their end with them -/

theorem blockCommentLength_take {s : Text} {n : Nat} (h : blockCommentLength s = some n) :
    n ≤ s.length ∧ ∀ more, blockCommentLength (s.take n ++ more) = some n := by
  fun_induction blockCommentLength s generalizing n with
  | case1 => simp at h
  | case2 rest =>
    obtain rfl : n = 2 := by simpa using h.symm
    simp [blockCommentLength]
  | case3 c cs open_ ih =>
    obtain ⟨m, hm, rfl⟩ := Option.map_eq_some_iff.1 h
    obtain ⟨bound, stable⟩ := ih hm
    refine ⟨by simpa using bound, fun more => ?_⟩
    rw [List.take_succ_cons, List.cons_append, blockCommentLength]
    · simp [stable more]
    · intro tail hc htail
      cases m with
      | zero =>
        have := stable []
        simp [blockCommentLength] at this
      | succ m =>
        cases cs with
        | nil => simp at bound
        | cons d ds =>
          simp only [List.take_succ_cons, List.cons_append, List.cons.injEq] at htail
          exact open_ ds hc (by rw [htail.1])

theorem rawStringLength_take {s : Text} {n : Nat} (h : rawStringLength s = some n) :
    n ≤ s.length ∧ ∀ more, rawStringLength (s.take n ++ more) = some n := by
  fun_induction rawStringLength s generalizing n with
  | case1 => simp at h
  | case2 cs =>
    obtain rfl : n = 1 := by simpa using h.symm
    simp [rawStringLength]
  | case3 c cs hc ih =>
    obtain ⟨m, hm, rfl⟩ := Option.map_eq_some_iff.1 h
    obtain ⟨bound, stable⟩ := ih hm
    exact ⟨by simpa using bound, fun more => by simp [rawStringLength, hc, stable more]⟩

theorem quotedLength_eq (quote c : Char) (cs : Text) :
    quotedLength quote (c :: cs) =
      if c = quote then some 1
      else if c = '\n' then none
      else if c = '\\' then
        match cs with
        | [] => none
        | _ :: rest => (quotedLength quote rest).map (· + 2)
      else (quotedLength quote cs).map (· + 1) := by
  cases cs <;> rfl

theorem quotedLength_cons {quote c : Char} {cs : Text} (hq : c ≠ quote) (hn : c ≠ '\n')
    (hb : c ≠ '\\') : quotedLength quote (c :: cs) = (quotedLength quote cs).map (· + 1) := by
  rw [quotedLength_eq, if_neg hq, if_neg hn, if_neg hb]

theorem quotedLength_quote (quote : Char) (cs : Text) :
    quotedLength quote (quote :: cs) = some 1 := by
  rw [quotedLength_eq, if_pos rfl]

theorem quotedLength_take {quote : Char} {s : Text} {n : Nat}
    (h : quotedLength quote s = some n) :
    n ≤ s.length ∧ ∀ more, quotedLength quote (s.take n ++ more) = some n := by
  fun_induction quotedLength quote s generalizing n with
  | case1 => simp at h
  | case2 cs =>
    obtain rfl : n = 1 := by simpa using h.symm
    simp [quotedLength_quote]
  | case3 => simp at h
  | case4 => simp at h
  | case5 d rest hq hn ih =>
    obtain ⟨m, hm, rfl⟩ := Option.map_eq_some_iff.1 h
    obtain ⟨bound, stable⟩ := ih hm
    exact ⟨by simpa using bound, fun more => by simp [quotedLength, hq, stable more]⟩
  | case6 c cs hq hn hb ih =>
    obtain ⟨m, hm, rfl⟩ := Option.map_eq_some_iff.1 h
    obtain ⟨bound, stable⟩ := ih hm
    refine ⟨by simpa using bound, fun more => ?_⟩
    rw [List.take_succ_cons, List.cons_append, quotedLength_cons hq hn hb, stable more]
    rfl

/-! ### Numbers and names end where the next character does not belong to them -/

/-- Whether the next character would be part of a number whose characters after the
first are `body`. -/
def numberGoesOn (hex : Bool) (body rest : Text) : Bool :=
  rest.head?.any fun d =>
    isNumberPart d || ((d == '+' || d == '-') && body.getLast?.any (isExponentMark hex))

theorem numberLength_le (hex : Bool) (s : Text) : numberLength hex s ≤ s.length := by
  fun_induction numberLength hex s <;> simp_all

theorem numberLength_eq_zero_iff (hex : Bool) (s : Text) :
    numberLength hex s = 0 ↔ s.head?.any isNumberPart = false := by
  match s with
  | [] => exact ⟨fun _ => rfl, fun _ => rfl⟩
  | [c] =>
    change (if isNumberPart c then 1 else 0) = 0 ↔ isNumberPart c = false
    simp
  | c :: d :: rest =>
    change (if !isNumberPart c then 0
      else if isExponentMark hex c && (d == '+' || d == '-') then numberLength hex rest + 2
      else numberLength hex (d :: rest) + 1) = 0 ↔ isNumberPart c = false
    cases isNumberPart c
    · simp
    · simp only [Bool.not_true, Bool.false_eq_true, if_false, Bool.true_eq_false, iff_false]
      split <;> simp

theorem isExponentMark_of_sign (hex : Bool) {d : Char} (sign : (d == '+' || d == '-') = true) :
    isExponentMark hex d = false := by
  simp only [Bool.or_eq_true, beq_iff_eq] at sign
  rcases sign with rfl | rfl <;> cases hex <;> rfl

theorem numberLength_append_iff (hex : Bool) (body rest : Text) :
    numberLength hex (body ++ rest) = body.length ↔
      numberLength hex body = body.length ∧ numberGoesOn hex body rest = false := by
  fun_induction numberLength hex body with
  | case1 =>
    rw [List.nil_append, List.length_nil, numberLength_eq_zero_iff]
    simp [numberGoesOn]
  | case2 c part =>
    cases rest with
    | nil => simp [numberLength, numberGoesOn, part]
    | cons d more =>
      have zero := numberLength_eq_zero_iff hex (d :: more)
      simp only [List.cons_append, List.nil_append, numberLength, part, List.length_cons]
      cases mark : isExponentMark hex c <;> cases sign : (d == '+' || d == '-') <;>
        simp_all [numberGoesOn]
      exact fun _ => sign.resolve_left
  | case3 c part =>
    cases rest <;> simp [numberLength, part]
  | case4 c d rest part =>
    simp_all [numberLength]
  | case5 c d more part exponent ih =>
    have unfolded : numberLength hex (c :: d :: (more ++ rest)) =
        numberLength hex (more ++ rest) + 2 := by
      rw [numberLength]; simp [part, exponent]
    have unsigned := isExponentMark_of_sign hex (Bool.and_eq_true_iff.1 exponent).2
    have last : numberGoesOn hex (c :: d :: more) rest = numberGoesOn hex more rest := by
      cases more <;> simp [numberGoesOn, unsigned]
    simp only [List.cons_append, unfolded, List.length_cons, Nat.add_right_cancel_iff, ih, last]
  | case6 c d more part exponent ih =>
    have unfolded : numberLength hex (c :: d :: (more ++ rest)) =
        numberLength hex (d :: (more ++ rest)) + 1 := by
      rw [numberLength]; simp [part, exponent]
    have last : numberGoesOn hex (c :: d :: more) rest = numberGoesOn hex (d :: more) rest := by
      simp [numberGoesOn]
    simp only [List.cons_append, unfolded, List.length_cons, Nat.add_right_cancel_iff, last] at ih ⊢
    exact ih

theorem identLength_append_iff (body rest : Text) :
    identLength (body ++ rest) = body.length ↔
      identLength body = body.length ∧ rest.head?.any Text.isNamePart = false := by
  induction body with
  | nil => cases rest <;> simp [identLength, List.takeWhile_cons]
  | cons c cs ih =>
    by_cases part : Text.isNamePart c = true
    · simpa [identLength, List.takeWhile_cons, part] using ih
    · simp [identLength, part]

/-! ### One token -/

/-- The text is read as one token of the kind when `rest` follows it. -/
def Reads (kind : Kind) (text rest : Text) : Prop :=
  ∃ c body, text = c :: body ∧ isSpace c = false ∧
    scan c (body ++ rest) = .ok (kind, body.length)

/-- Whether the characters that follow would belong to the token, or turn it into
another one. Comments and literals carry their end with them. -/
def lengthens (kind : Kind) (text rest : Text) : Bool :=
  match kind with
  | .ident => rest.head?.any Text.isNamePart
  | .number =>
    match text with
    | [] => false
    | c :: body => numberGoesOn (startsHex c body) body rest
  | .dot => rest.head?.any Char.isDigit || rest.take 2 == ['.', '.']
  | .op =>
    (text == ['/'] && rest.head?.any fun c => c == '/' || c == '*')
      || (text == ['+'] && rest.head? == some '+') || (text == ['-'] && rest.head? == some '-')
  | _ => false

theorem required_eq_ok {cause : LexError.Cause} {kind kind' : Kind} {length : Option Nat}
    {n : Nat} (h : required cause kind length = .ok (kind', n)) :
    kind' = kind ∧ length = some n := by
  cases length with
  | none => simp [required] at h
  | some m =>
    simp only [required, Except.ok.injEq, Prod.mk.injEq] at h
    exact ⟨h.1.symm, by rw [h.2]⟩

/-- A reader that carries its end with it does not see what follows. -/
theorem required_append_iff {f : Text → Option Nat}
    (stable : ∀ {s n}, f s = some n → n ≤ s.length ∧ ∀ more, f (s.take n ++ more) = some n)
    (cause : LexError.Cause) (kind kind' : Kind) (body rest : Text) :
    required cause kind (f (body ++ rest)) = .ok (kind', body.length) ↔
      required cause kind (f body) = .ok (kind', body.length) := by
  constructor <;> intro h
  · obtain ⟨rfl, found⟩ := required_eq_ok h
    have := (stable found).2 []
    rw [List.append_nil, List.take_left] at this
    simp [required, this]
  · obtain ⟨rfl, found⟩ := required_eq_ok h
    have := (stable found).2 rest
    rw [List.take_length] at this
    simp [required, this]

/-- A block comment behind its slash. -/
def starredLength : Text → Option Nat
  | [] => none
  | _ :: body => (blockCommentLength body).map (· + 1)

theorem starredLength_take {s : Text} {n : Nat} (h : starredLength s = some n) :
    n ≤ s.length ∧ ∀ more, starredLength (s.take n ++ more) = some n := by
  cases s with
  | nil => simp [starredLength] at h
  | cons c body =>
    obtain ⟨m, hm, rfl⟩ := Option.map_eq_some_iff.1 h
    obtain ⟨bound, stable⟩ := blockCommentLength_take hm
    exact ⟨by simpa using bound, fun more => by simp [starredLength, stable more]⟩

section Append

variable {kind : Kind} (body rest : Text)

/-- Both sides of the statements below once the two readings are known. -/
theorem read_iff {kind' kind'' : Kind} {n m size : Nat} {no : Prop} :
    (Except.ok (ε := LexError.Cause) (kind', n) = .ok (kind, size) ↔
      Except.ok (ε := LexError.Cause) (kind'', m) = .ok (kind, size) ∧ no) ↔
    ((kind' = kind ∧ n = size) ↔ ((kind'' = kind ∧ m = size) ∧ no)) := by
  simp only [Except.ok.injEq, Prod.mk.injEq]

theorem scan_fixed_append_iff {c : Char} (fixed : Kind) (read : ∀ s, scan c s = .ok (fixed, 0))
    (closed : lengthens fixed (c :: body) rest = false) :
    scan c (body ++ rest) = .ok (kind, body.length) ↔
      scan c body = .ok (kind, body.length) ∧ lengthens kind (c :: body) rest = false := by
  rw [read, read, read_iff]
  constructor
  · rintro ⟨rfl, zero⟩
    exact ⟨⟨rfl, zero⟩, closed⟩
  · exact And.left

theorem scan_literal_append_iff {c : Char} (cause : LexError.Cause) (literal : Kind)
    (f : Text → Option Nat) (read : ∀ s, scan c s = required cause literal (f s))
    (stable : ∀ {s n}, f s = some n → n ≤ s.length ∧ ∀ more, f (s.take n ++ more) = some n)
    (closed : lengthens literal (c :: body) rest = false) :
    scan c (body ++ rest) = .ok (kind, body.length) ↔
      scan c body = .ok (kind, body.length) ∧ lengthens kind (c :: body) rest = false := by
  rw [read, read, required_append_iff stable]
  refine ⟨fun found => ⟨found, ?_⟩, And.left⟩
  rw [(required_eq_ok found).1]
  exact closed

theorem scan_slash_append_iff (h : kind ≠ .lineComment) :
    scan '/' (body ++ rest) = .ok (kind, body.length) ↔
      scan '/' body = .ok (kind, body.length) ∧ lengthens kind ('/' :: body) rest = false := by
  have alone : scan '/' [] = .ok (.op, 0) := scan_slash [] (by simp)
  rcases body with _ | ⟨d, body⟩
  · by_cases plain : ∀ c ∈ rest.head?, c ≠ '/' ∧ c ≠ '*'
    · rw [List.nil_append, scan_slash rest plain, alone, read_iff]
      constructor
      · rintro ⟨rfl, -⟩
        cases rest <;> simp_all [lengthens]
      · exact And.left
    · -- Here the next character turns the slash into the start of a comment.
      have more : lengthens .op ['/'] rest = true := by
        cases rest <;> simp_all [lengthens]
        grind
      refine ⟨fun read => ?_, fun ⟨read, no⟩ => ?_⟩
      · rcases rest with _ | ⟨d, rest⟩
        · simp at plain
        · obtain rfl | rfl : d = '/' ∨ d = '*' := by
            simpa [Decidable.or_iff_not_imp_left] using plain
          · simp only [List.nil_append, scan_slashes, Except.ok.injEq, Prod.mk.injEq] at read
            exact absurd read.1.symm h
          · have := (required_eq_ok read).2
            simp at this
      · rw [alone] at read
        obtain ⟨rfl, -⟩ : Kind.op = kind ∧ 0 = 0 := by simpa using read
        rw [more] at no
        exact absurd no (by simp)
  · by_cases line : d = '/'
    · subst line
      simp only [List.cons_append, scan_slashes, Except.ok.injEq, Prod.mk.injEq]
      exact ⟨fun read => absurd read.1.symm h, fun read => absurd read.1.1.symm h⟩
    · by_cases block : d = '*'
      · subst block
        have same := required_append_iff starredLength_take .unterminatedComment .blockComment
          kind ('*' :: body) rest
        refine Iff.trans same ⟨fun read => ⟨read, ?_⟩, And.left⟩
        rw [(required_eq_ok read).1]
        rfl
      · have plain : ∀ s : Text, ∀ c ∈ (d :: s).head?, c ≠ '/' ∧ c ≠ '*' := by
          simp [line, block]
        rw [List.cons_append, scan_slash _ (plain _), scan_slash _ (plain _), read_iff]
        simp

theorem scan_dot_append_iff :
    scan '.' (body ++ rest) = .ok (kind, body.length) ↔
      scan '.' body = .ok (kind, body.length) ∧ lengthens kind ('.' :: body) rest = false := by
  have alone : scan '.' [] = .ok (.dot, 0) := rfl
  rcases body with _ | ⟨d, body⟩
  · rw [List.nil_append, alone]
    by_cases dots : ∃ more, rest = '.' :: '.' :: more
    · obtain ⟨more, rfl⟩ := dots
      rw [scan_dots, read_iff]
      constructor
      · rintro ⟨-, two⟩
        simp at two
      · rintro ⟨⟨rfl, -⟩, no⟩
        simp [lengthens] at no
    · have plain : ∀ more, rest ≠ '.' :: '.' :: more := fun more eq => dots ⟨more, eq⟩
      have short : (rest.take 2 == ['.', '.']) = false := by
        rcases rest with _ | ⟨c, _ | ⟨d, rest⟩⟩ <;> simp_all
      rw [scan_dot rest plain]
      cases digit : rest.head?.any Char.isDigit with
      | true =>
        have some_length : numberLength false rest ≠ 0 := by
          rw [ne_eq, numberLength_eq_zero_iff]
          cases rest <;> simp_all [isNumberPart, Char.isAlphanum]
        rw [if_pos rfl, read_iff]
        constructor
        · rintro ⟨-, zero⟩
          exact absurd zero some_length
        · rintro ⟨⟨rfl, -⟩, no⟩
          simp [lengthens, digit] at no
      | false =>
        rw [if_neg (by simp), read_iff]
        constructor
        · rintro ⟨rfl, zero⟩
          simp [lengthens, digit, short]
        · exact And.left
  · by_cases dots : ∃ more, d :: body = '.' :: '.' :: more
    · obtain ⟨more, eq⟩ := dots
      rw [eq, List.cons_append, List.cons_append, scan_dots, scan_dots, read_iff]
      constructor
      · rintro ⟨rfl, two⟩
        exact ⟨⟨rfl, two⟩, by simp [lengthens]⟩
      · exact And.left
    · have plain : ∀ more, d :: body ≠ '.' :: '.' :: more := fun more eq => dots ⟨more, eq⟩
      by_cases single : d = '.' ∧ body = []
      · -- Two dots are never one token, whatever comes after them.
        obtain ⟨rfl, rfl⟩ := single
        rw [scan_dot ['.'] (by simp)]
        by_cases third : ∃ more, rest = '.' :: more
        · obtain ⟨more, rfl⟩ := third
          simp [scan_dots]
        · rw [scan_dot]
          · simp
          · rintro more eq
            exact third ⟨more, by simpa using eq⟩
      · have plain' : ∀ more, d :: body ++ rest ≠ '.' :: '.' :: more := by
          intro more eq
          cases body <;> simp_all
        rw [scan_dot _ plain, scan_dot _ plain']
        by_cases digit : d.isDigit = true
        · simp only [List.cons_append, List.head?_cons, Option.any_some, digit, if_true,
            Except.ok.injEq, Prod.mk.injEq]
          have numbers := numberLength_append_iff false (d :: body) rest
          rw [List.cons_append] at numbers
          rw [numbers, and_assoc]
          refine and_congr_right fun same => ?_
          subst same
          rfl
        · simp [digit]

theorem scan_sign_append_iff {sign : Char} (signed : sign = '+' ∨ sign = '-') :
    scan sign (body ++ rest) = .ok (kind, body.length) ↔
      scan sign body = .ok (kind, body.length) ∧ lengthens kind (sign :: body) rest = false := by
  have branches : ∀ s, scan sign s =
      if s.head? = some sign then .ok (.incDec, 1) else .ok (.op, 0) := by
    rcases signed with rfl | rfl
    · exact scan_plus
    · exact scan_minus
  have decided : lengthens .op [sign] rest = (rest.head? == some sign) := by
    rcases signed with rfl | rfl <;> simp [lengthens]
  rcases body with _ | ⟨d, body⟩
  · rw [List.nil_append, branches rest, branches [], if_neg (show [].head? ≠ some sign by simp)]
    by_cases more : rest.head? = some sign
    · rw [if_pos more, read_iff]
      constructor
      · rintro ⟨-, one⟩
        simp at one
      · rintro ⟨⟨rfl, -⟩, no⟩
        simp [decided, more] at no
    · rw [if_neg more, read_iff]
      constructor
      · rintro ⟨rfl, zero⟩
        simp [decided, more]
      · exact And.left
  · rw [branches, branches]
    by_cases double : d = sign
    · simp only [List.cons_append, List.head?_cons, double, if_true, read_iff]
      constructor
      · rintro ⟨rfl, one⟩
        exact ⟨⟨rfl, one⟩, rfl⟩
      · exact And.left
    · simp [double]

theorem scan_other_append_iff {c : Char} (other : isMark c = false) :
    scan c (body ++ rest) = .ok (kind, body.length) ↔
      scan c body = .ok (kind, body.length) ∧ lengthens kind (c :: body) rest = false := by
  rw [scan_other _ _ other, scan_other _ _ other]
  by_cases digit : c.isDigit = true
  · rw [if_pos digit, if_pos digit]
    simp only [Except.ok.injEq, Prod.mk.injEq, and_assoc]
    refine and_congr_right fun same => ?_
    subst same
    cases body with
    | nil =>
      rw [List.nil_append, List.length_nil, numberLength_eq_zero_iff]
      simp [numberLength, lengthens, numberGoesOn]
    | cons d body =>
      exact numberLength_append_iff (startsHex c (d :: body)) (d :: body) rest
  · rw [if_neg digit, if_neg digit]
    by_cases name : Text.isNameStart c = true
    · rw [if_pos name, if_pos name]
      simp only [Except.ok.injEq, Prod.mk.injEq, and_assoc]
      refine and_congr_right fun same => ?_
      subst same
      exact identLength_append_iff body rest
    · rw [if_neg name, if_neg name, read_iff]
      constructor
      · rintro ⟨rfl, zero⟩
        have slash : c ≠ '/' := by rintro rfl; simp [isMark] at other
        have plus : c ≠ '+' := by rintro rfl; simp [isMark] at other
        have minus : c ≠ '-' := by rintro rfl; simp [isMark] at other
        exact ⟨⟨rfl, zero⟩, by simp [lengthens, slash, plus, minus]⟩
      · exact And.left

end Append

/-- A token other than a line comment is read in front of a text exactly when it is
read at the end of the input and the text does not lengthen it. -/
theorem reads_iff {kind : Kind} (h : kind ≠ .lineComment) (text rest : Text) :
    Reads kind text rest ↔ Reads kind text [] ∧ lengthens kind text rest = false := by
  have split : ∀ (c : Char) (body : Text), scan c (body ++ rest) = .ok (kind, body.length) ↔
      scan c body = .ok (kind, body.length) ∧ lengthens kind (c :: body) rest = false := by
    intro c body
    cases mark : isMark c with
    | false => exact scan_other_append_iff body rest mark
    | true =>
      have marks : c = '/' ∨ c = '"' ∨ c = '\x60' ∨ c = '\x27' ∨ c = '.' ∨ c = '(' ∨ c = ')' ∨
          c = '[' ∨ c = ']' ∨ c = '\x7b' ∨ c = '\x7d' ∨ c = ',' ∨ c = ';' ∨ c = '+' ∨ c = '-' := by
        simpa [isMark] using mark
      rcases marks with rfl | rfl | rfl | rfl | rfl | rfl | rfl | rfl | rfl | rfl | rfl | rfl |
        rfl | rfl | rfl
      · exact scan_slash_append_iff body rest h
      · exact scan_literal_append_iff body rest .unterminatedString .string (quotedLength '"')
          (fun _ => rfl) quotedLength_take rfl
      · exact scan_literal_append_iff body rest .unterminatedRawString .rawString rawStringLength
          (fun _ => rfl) rawStringLength_take rfl
      · exact scan_literal_append_iff body rest .unterminatedRune .rune (quotedLength '\x27')
          (fun _ => rfl) quotedLength_take rfl
      · exact scan_dot_append_iff body rest
      · exact scan_fixed_append_iff body rest (.opening .paren) (fun _ => rfl) rfl
      · exact scan_fixed_append_iff body rest (.closing .paren) (fun _ => rfl) rfl
      · exact scan_fixed_append_iff body rest (.opening .square) (fun _ => rfl) rfl
      · exact scan_fixed_append_iff body rest (.closing .square) (fun _ => rfl) rfl
      · exact scan_fixed_append_iff body rest (.opening .curly) (fun _ => rfl) rfl
      · exact scan_fixed_append_iff body rest (.closing .curly) (fun _ => rfl) rfl
      · exact scan_fixed_append_iff body rest .comma (fun _ => rfl) rfl
      · exact scan_fixed_append_iff body rest .semicolon (fun _ => rfl) rfl
      · exact scan_sign_append_iff body rest (.inl rfl)
      · exact scan_sign_append_iff body rest (.inr rfl)
  constructor
  · rintro ⟨c, body, rfl, solid, read⟩
    obtain ⟨read, no⟩ := (split c body).1 read
    exact ⟨⟨c, body, rfl, solid, by rwa [List.append_nil]⟩, no⟩
  · rintro ⟨⟨c, body, rfl, solid, read⟩, no⟩
    rw [List.append_nil] at read
    exact ⟨c, body, rfl, solid, (split c body).2 ⟨read, no⟩⟩

end GoSplit.Token
