import GoSplit.Proofs.Checked.Lexer

/-!
Where literals and comments end, said of the bytes of a source. Each kind has its end mark and its
own way of passing over what looks like one; an escape leads behind the byte it stands in front
of, be that the first one of several that a character has. The lexer goes by characters and
comes to the same end.
-/

namespace GoSplit.Token

open Checked.Lexer (isAt byte? byteLength_snoc)

/-- The first position from `start` on that has a property. -/
structure First (p : Nat → Prop) (start pos : Nat) : Prop where
  behind : start ≤ pos
  here : p pos
  skipped : ∀ i, start ≤ i → i < pos → ¬ p i

/-- The positions at which a literal in quotes is read on: a backslash takes the byte behind it
along. -/
inductive Reached (src : Text) : Nat → Nat → Prop
  | here (pos : Nat) : Reached src pos pos
  | plain {start pos : Nat} : isAt '\\' src start = false → Reached src (start + 1) pos →
    Reached src start pos
  | escape {start pos : Nat} : isAt '\\' src start = true → Reached src (start + 2) pos →
    Reached src start pos

/-- From `start` on, the first quote that is reached, if no line break is reached in front of it. -/
structure Closes (quote : Char) (src : Text) (start pos : Nat) : Prop where
  reached : Reached src start pos
  here : isAt quote src pos = true
  skipped : ∀ i < pos, Reached src start i → isAt quote src i = false ∧ isAt '\n' src i = false

/-- The end mark of a block comment stands at a byte. -/
def CommentMark (src : Text) (pos : Nat) : Prop :=
  isAt '*' src pos = true ∧ isAt '/' src (pos + 1) = true

/-- What has to be closed. -/
inductive Literal where
  | blockComment
  | rawString
  | string
  | rune

namespace Literal

def kind : Literal → Kind
  | .blockComment => .blockComment
  | .rawString => .rawString
  | .string => .string
  | .rune => .rune

def cause : Literal → LexError.Cause
  | .blockComment => .unterminatedComment
  | .rawString => .unterminatedRawString
  | .string => .unterminatedString
  | .rune => .unterminatedRune

/-- The literal starts at a byte. -/
def Opens (src : Text) (start : Nat) : Literal → Prop
  | .blockComment => isAt '/' src start = true ∧ isAt '*' src (start + 1) = true
  | .rawString => isAt '\x60' src start = true
  | .string => isAt '"' src start = true
  | .rune => isAt '\x27' src start = true

/-- The literal that starts at a byte ends in front of the byte `stop`. -/
def Ends (src : Text) (start stop : Nat) : Literal → Prop
  | .blockComment =>
    ∃ pos, First (CommentMark src) (start + 2) pos ∧ stop = pos + 2
  | .rawString => ∃ pos, First (fun i => isAt '\x60' src i = true) (start + 1) pos ∧ stop = pos + 1
  | .string => ∃ pos, Closes '"' src (start + 1) pos ∧ stop = pos + 1
  | .rune => ∃ pos, Closes '\x27' src (start + 1) pos ∧ stop = pos + 1

end Literal

/-- The line of a byte ends at the first line break or, where there is none, at the end of the
source. -/
def LineBreak (src : Text) (start pos : Nat) : Prop :=
  First (fun i => isAt '\n' src i = true) start pos ∨
    (∀ i, start ≤ i → isAt '\n' src i = false) ∧ pos = src.byteLength

section

variable {src before rest : Text} {c quote : Char} {p : Nat → Prop} {start pos stop : Nat}

/-! ### From byte to byte -/

theorem first_here (here : p start) : First p start pos ↔ pos = start := by
  constructor
  · intro first
    by_contra other
    exact first.skipped start (Nat.le_refl _) (Nat.lt_of_le_of_ne first.behind (Ne.symm other)) here
  · rintro rfl
    exact ⟨Nat.le_refl _, here, fun i le less => absurd less (Nat.not_lt.2 le)⟩

theorem first_skip (other : ¬ p start) : First p start pos ↔ First p (start + 1) pos := by
  constructor
  · rintro ⟨behind, here, skipped⟩
    have apart : start ≠ pos := by
      rintro rfl
      exact other here
    exact ⟨by omega, here, fun i le less => skipped i (by omega) less⟩
  · rintro ⟨behind, here, skipped⟩
    refine ⟨by omega, here, fun i le less => ?_⟩
    rcases Nat.eq_or_lt_of_le le with rfl | later
    · exact other
    · exact skipped i later less

theorem first_skip_all {n : Nat} (other : ∀ i < n, ¬ p (start + i)) :
    First p start pos ↔ First p (start + n) pos := by
  induction n with
  | zero => exact Iff.rfl
  | succ n ih =>
    rw [ih fun i less => other i (by omega), first_skip (other n (Nat.lt_succ_self n)),
      Nat.add_assoc]

theorem Reached.le (h : Reached src start pos) : start ≤ pos := by
  induction h with
  | here => exact Nat.le_refl _
  | plain _ _ ih => omega
  | escape _ _ ih => omega

/-- Reading on from a byte leads to the next one to look at. -/
theorem reached_iff {next : Nat} (step : next = start + if isAt '\\' src start then 2 else 1) :
    Reached src start pos ↔ start = pos ∨ Reached src next pos := by
  subst step
  constructor
  · intro h
    cases h with
    | here => exact .inl rfl
    | plain other more => exact .inr (by simpa [other] using more)
    | escape slash more => exact .inr (by simpa [slash] using more)
  · rintro (rfl | more)
    · exact .here start
    · cases slash : isAt '\\' src start with
      | true => exact .escape slash (by simpa [slash] using more)
      | false => exact .plain slash (by simpa [slash] using more)

theorem closes_skip {next : Nat} (step : next = start + if isAt '\\' src start then 2 else 1)
    (open_ : isAt quote src start = false) (line : isAt '\n' src start = false) :
    Closes quote src start pos ↔ Closes quote src next pos := by
  have less : start < next := by
    rw [step]
    split <;> omega
  constructor
  · rintro ⟨reached, here, skipped⟩
    rcases (reached_iff step).1 reached with rfl | reached
    · rw [open_] at here
      cases here
    · exact ⟨reached, here,
        fun i before more => skipped i before ((reached_iff step).2 (.inr more))⟩
  · rintro ⟨reached, here, skipped⟩
    refine ⟨(reached_iff step).2 (.inr reached), here, fun i before more => ?_⟩
    rcases (reached_iff step).1 more with rfl | more
    · exact ⟨open_, line⟩
    · exact skipped i before more

theorem closes_here (here : isAt quote src start = true) :
    Closes quote src start pos ↔ pos = start := by
  constructor
  · intro closes
    by_contra other
    have apart := closes.skipped start (Nat.lt_of_le_of_ne closes.reached.le (Ne.symm other))
      (.here start)
    rw [here] at apart
    cases apart.1
  · rintro rfl
    exact ⟨.here pos, here, fun i less more => absurd less (Nat.not_lt.2 more.le)⟩

/-- Bytes that are no ASCII characters are read one by one. -/
theorem closes_skip_all {n : Nat} (open_ : ∀ i < n, isAt quote src (start + i) = false)
    (line : ∀ i < n, isAt '\n' src (start + i) = false)
    (plain : ∀ i < n, isAt '\\' src (start + i) = false) :
    Closes quote src start pos ↔ Closes quote src (start + n) pos := by
  induction n with
  | zero => exact Iff.rfl
  | succ n ih =>
    have last := Nat.lt_succ_self n
    rw [ih (fun i less => open_ i (by omega)) (fun i less => line i (by omega))
      fun i less => plain i (by omega)]
    exact closes_skip (by simp [plain n last, Nat.add_assoc]) (open_ n last) (line n last)

/-! ### From character to character -/

/-- An ASCII character is seen in the bytes of a character only if it is this one. -/
theorem isAt_inside (whole : src = before ++ c :: rest) {k : Char} (ascii : k.toNat < 128) {i : Nat}
    (inside : i < c.utf8Size) : isAt k src (before.byteLength + i) = (c == k) := by
  rw [isAt, Bool.eq_iff_iff, beq_iff_eq, beq_iff_eq]
  rcases Checked.Lexer.peek_cases whole with ⟨-, size, here⟩ | ⟨wide, here⟩
  · obtain rfl : i = 0 := by omega
    rw [Nat.add_zero, here, Option.some.injEq, Char.toNat_inj]
  · obtain ⟨byte, here, large⟩ := here i inside
    rw [here, Option.some.injEq]
    constructor
    · omega
    · rintro rfl
      omega

theorem isAt_start (whole : src = before ++ c :: rest) {k : Char} (ascii : k.toNat < 128) :
    isAt k src before.byteLength = (c == k) := isAt_inside whole ascii c.utf8Size_pos

theorem isAt_end {k : Char} (past : src.byteLength ≤ pos) : isAt k src pos = false := by
  rw [isAt, byte?, List.getElem?_eq_none (by rwa [Checked.Lexer.length_bytes])]
  rfl

/-- The byte behind so many characters, if they are there. -/
def stopBehind (before rest : Text) (length : Option Nat) : Option Nat :=
  length.map fun n => before.byteLength + Text.byteLength (rest.take n)

theorem stopBehind_cons (before rest : Text) (c : Char) (length : Option Nat) :
    stopBehind before (c :: rest) (length.map (· + 1)) =
      stopBehind (before ++ [c]) rest length := by
  cases length <;> simp [stopBehind, Nat.add_assoc]

theorem blockComment_stop (whole : src = before ++ rest) :
    (∃ pos, First (CommentMark src) before.byteLength pos ∧ stop = pos + 2) ↔
      stopBehind before rest (blockCommentLength rest) = some stop := by
  fun_induction blockCommentLength rest generalizing before with
  | case1 =>
    have past : src.byteLength ≤ before.byteLength := by simp [whole]
    refine iff_of_false ?_ (Option.some_ne_none stop).symm
    rintro ⟨pos, first, -⟩
    have none := first.here.1
    rw [isAt_end (Nat.le_trans past first.behind)] at none
    cases none
  | case2 more =>
    have star := isAt_start whole (by decide : '*'.toNat < 128)
    have behind : src = (before ++ ['*']) ++ '/' :: more := by simp [whole]
    have slash := isAt_start behind (by decide : '/'.toNat < 128)
    have two : Text.byteLength ['*', '/'] = 2 := rfl
    rw [byteLength_snoc] at slash
    simp only [first_here (p := CommentMark src) ⟨star, slash⟩, exists_eq_left, stopBehind,
      Option.map_some, List.take_succ_cons, List.take_zero, two, Option.some.injEq]
    exact eq_comm
  | case3 c more open_ ih =>
    have behind : src = (before ++ [c]) ++ more := by simp [whole]
    have other : ∀ i < c.utf8Size, ¬ CommentMark src (before.byteLength + i) := by
      rintro i inside ⟨star, slash⟩
      rw [isAt_inside whole (by decide) inside, beq_iff_eq] at star
      subst star
      obtain rfl : i = 0 := Nat.lt_one_iff.1 inside
      have size : (before ++ ['*']).byteLength = before.byteLength + 0 + 1 :=
        byteLength_snoc before '*'
      rw [Checked.Lexer.isAt_eq behind size (by decide), beq_iff_eq] at slash
      exact open_ more.tail rfl (List.eq_cons_of_mem_head? slash)
    rw [stopBehind_cons, ← ih behind, byteLength_snoc]
    simp only [first_skip_all other]

theorem rawString_stop (whole : src = before ++ rest) :
    (∃ pos, First (fun i => isAt '\x60' src i = true) before.byteLength pos ∧ stop = pos + 1) ↔
      stopBehind before rest (rawStringLength rest) = some stop := by
  fun_induction rawStringLength rest generalizing before with
  | case1 =>
    have past : src.byteLength ≤ before.byteLength := by simp [whole]
    refine iff_of_false ?_ (Option.some_ne_none stop).symm
    rintro ⟨pos, first, -⟩
    have none := first.here
    rw [isAt_end (Nat.le_trans past first.behind)] at none
    cases none
  | case2 more =>
    have here := isAt_start whole (by decide : '\x60'.toNat < 128)
    have one : Text.byteLength ['\x60'] = 1 := rfl
    simp only [first_here (p := fun i => isAt '\x60' src i = true) here, exists_eq_left, stopBehind,
      Option.map_some, List.take_succ_cons, List.take_zero, one, Option.some.injEq]
    exact eq_comm
  | case3 c more apart ih =>
    have behind : src = (before ++ [c]) ++ more := by simp [whole]
    have other : ∀ i < c.utf8Size, ¬ isAt '\x60' src (before.byteLength + i) = true := by
      intro i inside here
      rw [isAt_inside whole (by decide) inside, beq_iff_eq] at here
      exact apart here
    rw [stopBehind_cons, ← ih behind, byteLength_snoc]
    simp only [first_skip_all (p := fun i => isAt '\x60' src i = true) other]

theorem not_closes_end (past : src.byteLength ≤ start) : ¬ Closes quote src start pos := by
  intro closes
  have none := closes.here
  rw [isAt_end (Nat.le_trans past closes.reached.le)] at none
  cases none

/-- An escape leads behind the character that it stands in front of, also where that has several
bytes: none of those behind the first one is an ASCII character. -/
theorem closes_escape {d : Char} (ascii : quote.toNat < 128) (apart : '\\' ≠ quote)
    (whole : src = before ++ '\\' :: d :: rest) :
    Closes quote src before.byteLength pos ↔
    Closes quote src (before ++ ['\\', d]).byteLength pos := by
  have slash := isAt_start whole (by decide : '\\'.toNat < 128)
  have open_ := isAt_start whole ascii
  have line := isAt_start whole (by decide : '\n'.toNat < 128)
  rw [beq_false_of_ne apart] at open_
  have behind : src = (before ++ ['\\']) ++ d :: rest := by simp [whole]
  have size := d.utf8Size_pos
  have two : '\\'.utf8Size = 1 := rfl
  have inner : ∀ {k : Char}, k.toNat < 128 →
      ∀ i < d.utf8Size - 1, isAt k src (before.byteLength + 2 + i) = false := by
    intro k ascii i less
    have place : before.byteLength + 2 + i = (before ++ ['\\']).byteLength + (i + 1) := by
      rw [byteLength_snoc, two]
      omega
    rw [place, isAt_inside behind ascii (by omega)]
    refine beq_false_of_ne ?_
    rintro rfl
    rw [Checked.Lexer.utf8Size_of_ascii ascii] at less
    cases less
  have reached : (before ++ ['\\', d]).byteLength = before.byteLength + 2 + (d.utf8Size - 1) := by
    simp [two]
    omega
  have step : before.byteLength + 2 = before.byteLength + if isAt '\\' src before.byteLength then 2
      else 1 := by
    rw [slash]
    rfl
  rw [reached, closes_skip step open_ line]
  exact closes_skip_all (inner ascii) (inner (by decide)) (inner (by decide))

theorem quoted_stop (ascii : quote.toNat < 128) (whole : src = before ++ rest) :
    (∃ pos, Closes quote src before.byteLength pos ∧ stop = pos + 1) ↔
      stopBehind before rest (quotedLength quote rest) = some stop := by
  fun_induction quotedLength quote rest generalizing before with
  | case1 =>
    refine iff_of_false ?_ (Option.some_ne_none stop).symm
    rintro ⟨pos, closes, -⟩
    exact not_closes_end (by simp [whole]) closes
  | case2 more =>
    have here := isAt_start whole ascii
    rw [beq_self_eq_true] at here
    simp only [closes_here here, exists_eq_left, stopBehind, Option.map_some, List.take_succ_cons,
      List.take_zero, Text.byteLength_cons, Checked.Lexer.utf8Size_of_ascii ascii,
      Text.byteLength_nil, Option.some.injEq]
    exact eq_comm
  | case3 more apart =>
    have broken := isAt_start whole (by decide : '\n'.toNat < 128)
    have open_ := isAt_start whole ascii
    rw [beq_false_of_ne apart] at open_
    refine iff_of_false ?_ (Option.some_ne_none stop).symm
    rintro ⟨pos, closes, -⟩
    rcases Nat.eq_or_lt_of_le closes.reached.le with rfl | later
    · rw [closes.here] at open_
      cases open_
    · rw [(closes.skipped _ later (.here _)).2] at broken
      cases broken
  | case4 apart line =>
    have slash := isAt_start whole (by decide : '\\'.toNat < 128)
    have open_ := isAt_start whole ascii
    have broken := isAt_start whole (by decide : '\n'.toNat < 128)
    rw [beq_false_of_ne apart] at open_
    have past : src.byteLength ≤ before.byteLength + 2 := by
      have one : Text.byteLength ['\\'] = 1 := rfl
      rw [whole, Text.byteLength_append, one]
      omega
    have step : before.byteLength + 2 = before.byteLength + if isAt '\\' src before.byteLength
        then 2 else 1 := by
      rw [slash]
      rfl
    refine iff_of_false ?_ (Option.some_ne_none stop).symm
    rintro ⟨pos, closes, -⟩
    rw [closes_skip step open_ broken] at closes
    exact not_closes_end past closes
  | case5 d more apart line ih =>
    have cut : src = (before ++ ['\\', d]) ++ more := by simp [whole]
    have skipped : stopBehind before ('\\' :: d :: more) ((quotedLength quote more).map (· + 2)) =
        stopBehind (before ++ ['\\', d]) more (quotedLength quote more) := by
      have same : ((· + 2) : Nat → Nat) = (· + 1) ∘ (· + 1) := rfl
      rw [same, ← Option.map_map, stopBehind_cons, stopBehind_cons, List.append_assoc]
      rfl
    rw [skipped, ← ih cut]
    simp only [closes_escape ascii apart whole]
  | case6 c more apart line escape ih =>
    have behind : src = (before ++ [c]) ++ more := by simp [whole]
    have other : ∀ {k : Char}, k.toNat < 128 → c ≠ k →
        ∀ i < c.utf8Size, isAt k src (before.byteLength + i) = false := by
      intro k ascii apart i inside
      rw [isAt_inside whole ascii inside]
      exact beq_false_of_ne apart
    rw [stopBehind_cons, ← ih behind, byteLength_snoc]
    simp only [closes_skip_all (other ascii apart) (other (by decide) line)
      (other (by decide) escape)]

theorem lineBreak_skip_all {n : Nat} (other : ∀ i < n, isAt '\n' src (start + i) = false) :
    LineBreak src start pos ↔ LineBreak src (start + n) pos := by
  refine or_congr (first_skip_all fun i less => by simp [other i less]) (and_congr_left fun _ => ?_)
  refine ⟨fun none i le => none i (by omega), fun none i le => ?_⟩
  rcases Nat.lt_or_ge i (start + n) with less | more
  · have here := other (i - start) (by omega)
    rwa [Nat.add_sub_cancel' le] at here
  · exact none i more

theorem lineBreak_iff (whole : src = before ++ rest) :
    LineBreak src before.byteLength pos ↔
    pos = before.byteLength + Text.byteLength (rest.takeWhile (· != '\n')) := by
  induction rest generalizing before with
  | nil =>
    have past : src.byteLength = before.byteLength := by simp [whole]
    have none : ∀ i, before.byteLength ≤ i → isAt '\n' src i = false :=
      fun i le => isAt_end (past ▸ le)
    constructor
    · rintro (first | ⟨-, same⟩)
      · exact absurd first.here (by simp [none pos first.behind])
      · exact same.trans past
    · intro same
      exact .inr ⟨none, same.trans past.symm⟩
  | cons c more ih =>
    by_cases line : c = '\n'
    · subst line
      have here := isAt_start whole (by decide : '\n'.toNat < 128)
      have taken : List.takeWhile (· != '\n') ('\n' :: more) = [] := rfl
      rw [LineBreak, first_here (p := fun i => isAt '\n' src i = true) here, taken]
      refine or_iff_left fun none => ?_
      rw [none.1 _ (Nat.le_refl _)] at here
      cases here
    · have behind : src = (before ++ [c]) ++ more := by simp [whole]
      have other : ∀ i < c.utf8Size, isAt '\n' src (before.byteLength + i) = false := by
        intro i inside
        rw [isAt_inside whole (by decide) inside]
        exact beq_false_of_ne line
      rw [lineBreak_skip_all other, ← byteLength_snoc, ih behind, byteLength_snoc,
        List.takeWhile_cons_of_pos (by simpa using line), Text.byteLength_cons, Nat.add_assoc]

/-! ### What the lexer makes of it -/

/-- A literal is read up to its end, and only its end is looked for. -/
theorem Literal.exists_length (l : Literal) (whole : src = before ++ c :: rest)
    (opens : l.Opens src before.byteLength) :
    ∃ length, scan c rest = required l.cause l.kind length ∧
      ∀ stop, l.Ends src before.byteLength stop ↔
        stopBehind before (c :: rest) (length.map (· + 1)) = some stop := by
  have behind : src = (before ++ [c]) ++ rest := by simp [whole]
  cases l with
  | blockComment =>
    obtain ⟨slash, star⟩ := opens
    rw [isAt_start whole (by decide), beq_iff_eq] at slash
    subst slash
    rw [Checked.Lexer.isAt_behind whole (by decide) (by decide), beq_iff_eq] at star
    obtain ⟨body, rfl⟩ : ∃ body, rest = '*' :: body := ⟨rest.tail, List.eq_cons_of_mem_head? star⟩
    have inside : src = (before ++ ['/'] ++ ['*']) ++ body := by simp [whole]
    refine ⟨_, rfl, fun stop => ?_⟩
    rw [stopBehind_cons, stopBehind_cons, ← blockComment_stop inside, byteLength_snoc,
      byteLength_snoc]
    rfl
  | rawString =>
    rw [Opens, isAt_start whole (by decide), beq_iff_eq] at opens
    subst opens
    refine ⟨_, rfl, fun stop => ?_⟩
    rw [stopBehind_cons, ← rawString_stop behind, byteLength_snoc]
    rfl
  | string =>
    rw [Opens, isAt_start whole (by decide), beq_iff_eq] at opens
    subst opens
    refine ⟨_, rfl, fun stop => ?_⟩
    rw [stopBehind_cons, ← quoted_stop (by decide) behind, byteLength_snoc]
    rfl
  | rune =>
    rw [Opens, isAt_start whole (by decide), beq_iff_eq] at opens
    subst opens
    refine ⟨_, rfl, fun stop => ?_⟩
    rw [stopBehind_cons, ← quoted_stop (by decide) behind, byteLength_snoc]
    rfl

/-- Only literals fail. -/
theorem exists_opens_of_error (whole : src = before ++ c :: rest) {cause : LexError.Cause}
    (failed : scan c rest = .error cause) : ∃ l : Literal, l.Opens src before.byteLength ∧
      l.cause = cause := by
  have cause_eq : ∀ {cause' kind length}, required cause' kind length = .error cause →
      cause' = cause := by
    intro cause' kind length failed
    cases length with
    | none => exact Except.error.inj failed
    | some n => cases failed
  unfold scan at failed
  split at failed
  case h_2 =>
    have star := Checked.Lexer.isAt_behind whole (by decide) (by decide : '*'.toNat < 128)
    exact ⟨.blockComment, ⟨isAt_start whole (by decide), star⟩, cause_eq failed⟩
  case h_3 => exact ⟨.string, isAt_start whole (by decide), cause_eq failed⟩
  case h_4 => exact ⟨.rawString, isAt_start whole (by decide), cause_eq failed⟩
  case h_5 => exact ⟨.rune, isAt_start whole (by decide), cause_eq failed⟩
  case h_7 => split at failed <;> cases failed
  case h_19 =>
    split at failed
    · cases failed
    · split at failed <;> cases failed
  all_goals cases failed

theorem exists_lineBreak (whole : src = before ++ '/' :: '/' :: rest) :
    ∃ pos, LineBreak src before.byteLength pos ∧
      before.byteLength + Text.byteLength
        ('/' :: ('/' :: rest).take (lineCommentLength ('/' :: rest))) =
        if isAt '\r' src (pos - 1) then pos - 1 else pos := by
  have first : ('/' :: '/' :: rest).takeWhile (· != '\n') =
      '/' :: '/' :: rest.takeWhile (· != '\n') := rfl
  have second : ('/' :: rest).takeWhile (· != '\n') = '/' :: rest.takeWhile (· != '\n') := rfl
  obtain ⟨line, last, ends⟩ :=
    (List.eq_nil_or_concat ('/' :: rest.takeWhile (· != '\n'))).resolve_left
    (List.cons_ne_nil _ _)
  obtain ⟨tail, cut⟩ : ∃ tail, '/' :: rest = line ++ last :: tail := by
    refine ⟨rest.dropWhile (· != '\n'), ?_⟩
    conv_lhs => rw [← @List.takeWhile_append_dropWhile _ (· != '\n') rest, ← List.cons_append, ends]
    simp
  have whole' : src = (before ++ '/' :: line) ++ last :: tail := by simp [whole, cut]
  have size := last.utf8Size_pos
  have reached : before.byteLength + Text.byteLength ('/' :: '/' :: rest.takeWhile (· != '\n')) =
      (before ++ '/' :: line).byteLength + last.utf8Size := by
    rw [ends]
    simp [Nat.add_assoc]
  refine ⟨_, (lineBreak_iff whole).2 rfl, ?_⟩
  rw [first, reached, Nat.add_sub_assoc size, isAt_inside whole' (by decide) (by omega)]
  by_cases ret : last = '\r'
  · subst ret
    have length : lineCommentLength ('/' :: rest) = line.length := by
      simp [lineCommentLength, second, ends]
    rw [length, cut, List.take_left, beq_self_eq_true, if_pos rfl, Text.byteLength_append]
    rfl
  · have length : lineCommentLength ('/' :: rest) = (line ++ [last]).length := by
      simp [lineCommentLength, second, ends, ret]
    have split : '/' :: rest = (line ++ [last]) ++ tail := by simp [cut]
    rw [length, split, List.take_left, beq_false_of_ne ret, if_neg Bool.false_ne_true]
    simp [Nat.add_assoc]

end

/-- What the lexer makes of the literals and comments at a byte: `calls` are the results of its
calls from there on. -/
structure Delimits (src : Text) (start : Nat) (calls : List (Except LexError Token)) : Prop where
  /-- A literal or block comment comes out as the token that ends where it ends. -/
  found : ∀ l : Literal, l.Opens src start → ∀ stop, l.Ends src start stop ↔
    ∃ t later, calls = .ok t :: later ∧ t.kind = l.kind ∧ t.span = ⟨start, stop⟩
  /-- One without its end fails at its first byte, and nothing is read after that. -/
  unterminated : ∀ l : Literal, l.Opens src start →
    ((∀ stop, ¬ l.Ends src start stop) ↔ calls = [.error ⟨l.cause, start⟩])
  /-- Nothing else fails. -/
  fails : ∀ e later, calls = .error e :: later →
    later = [] ∧ ∃ l : Literal, l.Opens src start ∧ (∀ stop, ¬ l.Ends src start stop) ∧
    e = ⟨l.cause, start⟩
  /-- A line comment goes up to the end of its line, less one carriage return. -/
  line : isAt '/' src start = true → isAt '/' src (start + 1) = true →
    ∃ t later pos, calls = .ok t :: later ∧ t.kind = .lineComment ∧ LineBreak src start pos ∧
      t.span = ⟨start, if isAt '\r' src (pos - 1) then pos - 1 else pos⟩

section

variable {src before rest : Text} {c : Char} {calls : List (Except LexError Token)}

theorem delimits_end (past : src.byteLength ≤ before.byteLength) :
    Delimits src before.byteLength [] := by
  have ended : ∀ l : Literal, ¬ l.Opens src before.byteLength := by
    intro l opens
    cases l <;> simp [Literal.Opens, isAt_end past] at opens
  exact
    { found := fun l opens => absurd opens (ended l)
      unterminated := fun l opens => absurd opens (ended l)
      fails := fun e rest first => by cases first
      line := fun slash => by simp [isAt_end past] at slash }

/-- A line comment is one for the lexer. -/
theorem scan_of_slashes (whole : src = before ++ c :: rest)
    (first : isAt '/' src before.byteLength = true)
    (second : isAt '/' src (before.byteLength + 1) = true) :
    ∃ more, c = '/' ∧ rest = '/' :: more ∧ scan c rest =
      .ok (.lineComment, lineCommentLength rest) := by
  rw [isAt_start whole (by decide), beq_iff_eq] at first
  subst first
  rw [Checked.Lexer.isAt_behind whole (by decide) (by decide), beq_iff_eq] at second
  obtain ⟨more, rfl⟩ : ∃ more, rest = '/' :: more := ⟨rest.tail, List.eq_cons_of_mem_head? second⟩
  exact ⟨more, rfl, rfl, rfl⟩

theorem delimits_of_error (whole : src = before ++ c :: rest) {cause : LexError.Cause}
    (failed : scan c rest = .error cause) :
    Delimits src before.byteLength [.error ⟨cause, before.byteLength⟩] := by
  have endless : ∀ l : Literal, l.Opens src before.byteLength →
      (∀ stop, ¬ l.Ends src before.byteLength stop) ∧ l.cause = cause := by
    intro l opens
    obtain ⟨length, found, ends⟩ := l.exists_length whole opens
    rw [failed] at found
    cases length with
    | none =>
      exact ⟨fun stop ended => (by cases (ends stop).1 ended), (Except.error.inj found).symm⟩
    | some n => cases found
  refine
    { found := fun l opens stop => iff_of_false ((endless l opens).1 stop) (by simp)
      unterminated := fun l opens => iff_of_true (endless l opens).1 (by rw [(endless l opens).2])
      fails := fun e later first => ?_
      line := fun first second => ?_ }
  · cases first
    obtain ⟨l, opens, same⟩ := exists_opens_of_error whole failed
    exact ⟨rfl, l, opens, (endless l opens).1, by rw [same]⟩
  · obtain ⟨-, -, -, read⟩ := scan_of_slashes whole first second
    rw [failed] at read
    cases read

theorem delimits_of_ok (whole : src = before ++ c :: rest) {t : Token} {n : Nat}
    (read : scan c rest = .ok (t.kind, n)) (text : t.text = c :: rest.take n)
    (start : t.start = before.byteLength) (later : List (Except LexError Token)) :
    Delimits src before.byteLength (.ok t :: later) := by
  have ended : ∀ l : Literal, l.Opens src before.byteLength →
      t.kind = l.kind ∧ ∀ stop, l.Ends src before.byteLength stop ↔ t.stop = stop := by
    intro l opens
    obtain ⟨length, found, ends⟩ := l.exists_length whole opens
    rw [read] at found
    obtain ⟨kind, rfl⟩ := required_eq_ok found.symm
    refine ⟨kind, fun stop => (ends stop).trans ?_⟩
    rw [Token.stop, start, text]
    exact Option.some_inj
  refine
    { found := fun l opens stop => ?_
      unterminated := fun l opens => ?_
      fails := fun e rest first => by cases first
      line := fun first second => ?_ }
  · obtain ⟨kind, ends⟩ := ended l opens
    rw [ends]
    constructor
    · rintro rfl
      exact ⟨t, later, rfl, kind, by rw [span, start]⟩
    · rintro ⟨u, others, same, -, span⟩
      cases same
      exact congrArg Span.stop span
  · exact iff_of_false (fun none => none t.stop (((ended l opens).2 _).2 rfl)) (by simp)
  · obtain ⟨more, rfl, rfl, found⟩ := scan_of_slashes whole first second
    obtain ⟨kind, size⟩ := Prod.mk.inj (Except.ok.inj (read.symm.trans found))
    obtain ⟨pos, ends, stop⟩ := exists_lineBreak whole
    refine ⟨t, later, pos, rfl, kind, ends, ?_⟩
    rw [span, Token.stop, start, text, size, stop]

end

/-- Literals and comments are delimited exactly. Wherever the lexer stands in a source, the token
behind the white space there, if it is a literal or a comment, ends at the first end mark of its
kind; it fails if and only if this is missing, with the error of the kind at the first byte,
and then nothing more is read. -/
theorem literals_delimited (before rest : Text) :
    Delimits (before ++ rest) (before.byteLength + Text.byteLength (rest.takeWhile isSpace))
      (streamFrom before.byteLength rest) := by
  rw [← Text.byteLength_append]
  rcases Checked.Lexer.streamFrom_cases before.byteLength rest with
    ⟨blank, calls⟩ | ⟨c, more, cause, split, failed, calls⟩ |
    ⟨t, c, more, n, split, read, taken, text, start, calls⟩
  · have gap := (List.takeWhile_append_dropWhile (p := isSpace) (l := rest)).symm
    rw [blank, List.append_nil] at gap
    rw [calls, ← gap]
    exact delimits_end (Nat.le_refl _)
  · have whole : before ++ rest = (before ++ rest.takeWhile isSpace) ++ c :: more := by
      rw [List.append_assoc, ← split]
    rw [calls, ← Text.byteLength_append]
    exact delimits_of_error whole failed
  · have whole : before ++ rest = (before ++ rest.takeWhile isSpace) ++ c :: more := by
      rw [List.append_assoc, ← taken, ← split]
    rw [calls]
    exact delimits_of_ok whole read text (by rw [start, taken, Text.byteLength_append]) _

end GoSplit.Token
