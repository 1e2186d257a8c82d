import GoSplit.Proofs.Checked
import GoSplit.SourceFile.Fault

/-!
The lexer on bytes. It moves a position through the UTF-8 form of the text, byte by byte in
comments and literals and by whole characters in names; an escape moves it on by two bytes,
which may lie inside a character. Each piece is checked and shown to end where the lexer on
characters ends.
-/

namespace GoSplit.Checked.Lexer

/-! ### The text as bytes -/

/-- The UTF-8 form of a text. -/
def bytes (src : Text) : List UInt8 := src.flatMap String.utf8EncodeChar

def byte? (src : Text) (pos : Nat) : Option Nat := (bytes src)[pos]?.map UInt8.toNat

/-- The byte at a position, zero behind the end. -/
def peek (src : Text) (pos : Nat) : Nat := (byte? src pos).getD 0

/-- Whether a byte is that of an ASCII character. -/
def isOf (c : Char) (byte : Nat) : Bool := byte == c.toNat

def isAlphaByte (byte : Nat) : Bool := (65 ≤ byte && byte ≤ 90) || (97 ≤ byte && byte ≤ 122)

def isDigitByte (byte : Nat) : Bool := 48 ≤ byte && byte ≤ 57

theorem bytes_append (s t : Text) : bytes (s ++ t) = bytes s ++ bytes t := List.flatMap_append ..

@[simp] theorem length_bytes (src : Text) : (bytes src).length = src.byteLength := by
  induction src with
  | nil => rfl
  | cons c cs ih =>
    rw [bytes, List.flatMap_cons, List.length_append, String.length_utf8EncodeChar]
    exact congrArg _ ih

theorem utf8EncodeChar_of_ascii {c : Char} (ascii : c.toNat < 128) :
    String.utf8EncodeChar c = [UInt8.ofNat c.toNat] := by
  have small : c.val.toNat ≤ 0x7f := Nat.le_of_lt_succ ascii
  simp only [String.utf8EncodeChar, if_pos small]
  rfl

theorem utf8Size_of_ascii {c : Char} (ascii : c.toNat < 128) : c.utf8Size = 1 := by
  rw [← String.length_utf8EncodeChar, utf8EncodeChar_of_ascii ascii]
  rfl

/-- Beyond ASCII every byte of a character has its high bit set. -/
theorem le_of_mem_utf8EncodeChar {c : Char} (wide : 128 ≤ c.toNat) {b : UInt8}
    (mem : b ∈ String.utf8EncodeChar c) : 128 ≤ b.toNat := by
  have large : ¬ c.val.toNat ≤ 0x7f := Nat.not_le.2 wide
  simp only [String.utf8EncodeChar, if_neg large] at mem
  split_ifs at mem
  · simp only [List.mem_cons, List.not_mem_nil, or_false] at mem
    rcases mem with rfl | rfl
    · rw [UInt8.toNat_ofNat']
      omega
    · rw [UInt8.toNat_ofNat']
      omega
  · simp only [List.mem_cons, List.not_mem_nil, or_false] at mem
    rcases mem with rfl | rfl | rfl
    · rw [UInt8.toNat_ofNat']
      omega
    · rw [UInt8.toNat_ofNat']
      omega
    · rw [UInt8.toNat_ofNat']
      omega
  · simp only [List.mem_cons, List.not_mem_nil, or_false] at mem
    rcases mem with rfl | rfl | rfl | rfl
    · rw [UInt8.toNat_ofNat']
      omega
    · rw [UInt8.toNat_ofNat']
      omega
    · rw [UInt8.toNat_ofNat']
      omega
    · rw [UInt8.toNat_ofNat']
      omega

section

variable {src before rest : Text} {c : Char}

theorem byte?_end (whole : src = before) : byte? src before.byteLength = none := by
  rw [byte?, whole, List.getElem?_eq_none (by simp), Option.map_none]

/-- The bytes of a character, where it stands. -/
theorem byte?_inside (whole : src = before ++ c :: rest) {i : Nat} (inside : i < c.utf8Size) :
    byte? src (before.byteLength + i) = (String.utf8EncodeChar c)[i]?.map UInt8.toNat := by
  have size : i < (String.utf8EncodeChar c).length := by rwa [String.length_utf8EncodeChar]
  rw [byte?, whole, bytes_append, List.getElem?_append_right (by simp), length_bytes,
    Nat.add_sub_cancel_left, bytes, List.flatMap_cons, List.getElem?_append_left size]

/-- A character is one byte with its code, or several that are no ASCII characters. -/
theorem peek_cases (whole : src = before ++ c :: rest) :
    (c.toNat < 128 ∧ c.utf8Size = 1 ∧ byte? src before.byteLength = some c.toNat) ∨
      128 ≤ c.toNat ∧ ∀ i < c.utf8Size, ∃ b, byte? src (before.byteLength + i) = some b ∧
        128 ≤ b := by
  rcases Nat.lt_or_ge c.toNat 128 with ascii | wide
  · have size := utf8Size_of_ascii ascii
    refine .inl ⟨ascii, size, ?_⟩
    have here := @byte?_inside src before rest c whole 0 c.utf8Size_pos
    rw [Nat.add_zero, utf8EncodeChar_of_ascii ascii] at here
    rw [here, List.getElem?_cons_zero, Option.map_some, UInt8.toNat_ofNat',
      Nat.mod_eq_of_lt (by omega)]
  · refine .inr ⟨wide, fun i inside => ?_⟩
    have size : i < (String.utf8EncodeChar c).length := by rwa [String.length_utf8EncodeChar]
    refine ⟨_, ?_, le_of_mem_utf8EncodeChar wide (List.getElem_mem size)⟩
    rw [byte?_inside whole inside, List.getElem?_eq_getElem size, Option.map_some]

/-- An ASCII byte is seen where its character stands. -/
theorem byte?_eq_some_iff (whole : src = before ++ rest) {k : Char} (ascii : k.toNat < 128) :
    byte? src before.byteLength = some k.toNat ↔ rest.head? = some k := by
  cases rest with
  | nil => simp [byte?_end (whole.trans (List.append_nil before))]
  | cons c rest =>
    rcases peek_cases whole with ⟨-, -, here⟩ | ⟨wide, here⟩
    · rw [here, List.head?_cons, Option.some.injEq, Option.some.injEq, Char.toNat_inj]
    · obtain ⟨b, here, large⟩ := here 0 c.utf8Size_pos
      rw [Nat.add_zero] at here
      rw [here, List.head?_cons, Option.some.injEq, Option.some.injEq]
      constructor
      · omega
      · rintro rfl
        omega

theorem peek_of_ascii (whole : src = before ++ c :: rest) (ascii : c.toNat < 128) :
    peek src before.byteLength = c.toNat := by
  rcases peek_cases whole with ⟨-, -, here⟩ | ⟨wide, -⟩
  · rw [peek, here, Option.getD_some]
  · omega

theorem le_peek_of_wide (whole : src = before ++ c :: rest) (wide : 128 ≤ c.toNat) {i : Nat}
    (inside : i < c.utf8Size) : 128 ≤ peek src (before.byteLength + i) := by
  rcases peek_cases whole with ⟨ascii, -, -⟩ | ⟨-, here⟩
  · omega
  · obtain ⟨b, here, large⟩ := here i inside
    rwa [peek, here, Option.getD_some]

/-- A test of ASCII bytes is a test of the character. -/
theorem test_peek (whole : src = before ++ c :: rest) {p : Nat → Bool} {q : Char → Bool}
    (same : ∀ c : Char, c.toNat < 128 → p c.toNat = q c) (other : ∀ b, 128 ≤ b → p b = false)
    (none : ∀ c : Char, 128 ≤ c.toNat → q c = false) : p (peek src before.byteLength) = q c := by
  rcases Nat.lt_or_ge c.toNat 128 with ascii | wide
  · rw [peek_of_ascii whole ascii, same c ascii]
  · rw [other _ (by simpa using le_peek_of_wide whole wide c.utf8Size_pos), none c wide]

theorem isOf_peek (whole : src = before ++ c :: rest) {k : Char} (ascii : k.toNat < 128) :
    isOf k (peek src before.byteLength) = (c == k) := by
  refine @test_peek src before rest c whole (isOf k) (· == k) (fun c _ => ?_) (fun b wide => ?_)
    fun c wide => ?_
  · rw [isOf, Bool.eq_iff_iff, beq_iff_eq, beq_iff_eq, Char.toNat_inj]
  · exact beq_false_of_ne (by omega)
  · exact beq_false_of_ne (by rintro rfl; omega)

theorem isOf_of_wide {k : Char} (ascii : k.toNat < 128) {b : Nat} (wide : 128 ≤ b) :
    isOf k b = false :=
  beq_false_of_ne (by omega)

theorem peek_end (whole : src = before) : peek src before.byteLength = 0 := by
  rw [peek, byte?_end whole, Option.getD_none]

theorem lt_byteLength (whole : src = before ++ c :: rest) {i : Nat} (inside : i < c.utf8Size) :
    before.byteLength + i < src.byteLength := by
  rw [whole, Text.byteLength_append, Text.byteLength_cons]
  omega

theorem byteLength_snoc (before : Text) (c : Char) :
    (before ++ [c]).byteLength = before.byteLength + c.utf8Size := by
  simp

end

/-- The character at a position, if there is one. -/
def charAt {ε : Type} (src : Text) (pos : Nat) : Checked ε (Option Char) := do
  let rest ← slice src pos src.byteLength
  return rest.head?

theorem charAt_eq {ε : Type} {src before rest : Text} (whole : src = before ++ rest) :
    (charAt src before.byteLength : Checked ε _) = pure rest.head? := by
  have sliced : src.slice? ⟨before.byteLength, src.byteLength⟩ = some rest :=
    Text.slice?_eq_some_iff.2 ⟨before, [], by simp [whole], by simp [whole]⟩
  rw [charAt, slice_of_slice? sliced, pure_bind]

/-! ### White space and names -/

section

variable {ε : Type}

def spaceTurn (src : Text) (pos : Nat) : Checked ε (Turn Nat Nat) :=
  let byte := peek src pos
  if src.byteLength ≤ pos then pure (.finished pos)
  else if isOf ' ' byte || isOf '\t' byte || isOf '\n' byte || isOf '\r' byte
    then pure (.again (pos + 1))
  else if byte = 0xEF then do
    if (← charAt src pos) = some '\uFEFF' then return .again (pos + 3)
    else return .finished pos
  else pure (.finished pos)

def skipSpace (src : Text) (pos : Nat) : Checked ε Nat :=
  loop (spaceTurn src) (src.byteLength + 1) pos

def nameTurn (src : Text) (pos : Nat) : Checked ε (Turn Nat Nat) :=
  let byte := peek src pos
  if src.byteLength ≤ pos then pure (.finished pos)
  else if isAlphaByte byte || isDigitByte byte || isOf '_' byte then pure (.again (pos + 1))
  else if 128 ≤ byte then do
    match ← charAt src pos with
    | some c => return if Text.isLetterOrDigit c then .again (pos + c.utf8Size) else .finished pos
    | none => return .finished pos
  else pure (.finished pos)

def skipName (src : Text) (pos : Nat) : Checked ε Nat :=
  loop (nameTurn src) (src.byteLength + 1) pos

variable {src : Text} {turn : Nat → Checked ε (Turn Nat Nat)}

/-- The turns from one character to the next one. -/
def Passes (turn : Nat → Checked ε (Turn Nat Nat)) (pos : Nat) (c : Char) : Prop :=
  ∃ n ≤ c.utf8Size, ∀ turns, loop turn (turns + n) pos = loop turn turns (pos + c.utf8Size)

theorem Passes.of_again {pos next : Nat} {c : Char} (h : turn pos = pure (.again next))
    (step : next = pos + c.utf8Size) : Passes turn pos c :=
  ⟨1, c.utf8Size_pos, fun turns => by rw [loop_again h, step]⟩

theorem Passes.of_upward {pos : Nat} {c : Char}
    (h : ∀ i < c.utf8Size, turn (pos + i) = pure (.again (pos + i + 1))) : Passes turn pos c :=
  ⟨c.utf8Size, Nat.le_refl _, fun turns => loop_upward h turns⟩

/-- A loop that passes over the characters of a kind ends in front of the first other one. -/
theorem loop_takeWhile {p : Char → Bool}
    (passes : ∀ (before : Text) c rest, src = before ++ c :: rest → p c = true →
      Passes turn before.byteLength c)
    (ends : ∀ before rest : Text, src = before ++ rest → (∀ c ∈ rest.head?, p c = false) →
      turn before.byteLength = pure (.finished before.byteLength))
    {before rest : Text} (whole : src = before ++ rest) {turns : Nat}
    (enough : rest.byteLength < turns) :
    loop turn turns before.byteLength =
      pure (before.byteLength + Text.byteLength (rest.takeWhile p)) := by
  induction rest generalizing before turns with
  | nil =>
    obtain ⟨turns, rfl⟩ : ∃ n, turns = n + 1 := ⟨turns - 1, by omega⟩
    exact loop_finished (ends before [] whole (by simp)) turns
  | cons c rest ih =>
    rw [Text.byteLength_cons] at enough
    by_cases more : p c = true
    · obtain ⟨n, size, pass⟩ := passes before c rest whole more
      obtain ⟨turns, rfl⟩ : ∃ m, turns = m + n := ⟨turns - n, by omega⟩
      have next : src = (before ++ [c]) ++ rest := by simp [whole]
      rw [pass, ← byteLength_snoc, ih next (by omega), List.takeWhile_cons_of_pos more,
        byteLength_snoc, Text.byteLength_cons, Nat.add_assoc]
    · obtain ⟨turns, rfl⟩ : ∃ n, turns = n + 1 := ⟨turns - 1, by omega⟩
      rw [loop_finished (ends before (c :: rest) whole (by simpa using more)),
        List.takeWhile_cons_of_neg more]
      rfl

variable {before rest : Text} {c : Char}

theorem not_le_of_inside (whole : src = before ++ c :: rest) :
    ¬ src.byteLength ≤ before.byteLength :=
  Nat.not_le.2 (lt_byteLength whole c.utf8Size_pos)

theorem skipSpace_eq (whole : src = before ++ rest) :
    (skipSpace src before.byteLength : Checked ε _) =
      pure (before.byteLength + Text.byteLength (rest.takeWhile Token.isSpace)) := by
  refine loop_takeWhile (fun before c rest whole space => ?_)
    (fun before rest whole solid => ?_) whole
    (by rw [whole, Text.byteLength_append]; omega)
  · by_cases mark : c = '\uFEFF'
    · subst mark
      have byte : peek src before.byteLength = 0xEF := by
        have here := byte?_inside whole (Char.utf8Size_pos _)
        rw [Nat.add_zero] at here
        rw [peek, here]
        decide
      have turn : (spaceTurn src before.byteLength : Checked ε _) =
          pure (.again (before.byteLength + 3)) := by
        simp [spaceTurn, not_le_of_inside whole, byte, isOf, charAt_eq whole]
      exact .of_again turn rfl
    · have blank : c = ' ' ∨ c = '\t' ∨ c = '\n' ∨ c = '\r' := by
        simpa [Token.isSpace, mark, or_assoc] using space
      have size : c.utf8Size = 1 := by rcases blank with rfl | rfl | rfl | rfl <;> rfl
      have turn : (spaceTurn src before.byteLength : Checked ε _) =
          pure (.again (before.byteLength + 1)) := by
        simp [spaceTurn, not_le_of_inside whole, isOf_peek whole, or_assoc, blank]
      exact .of_again turn (by rw [size])
  · cases rest with
    | nil => simp [spaceTurn, whole]
    | cons c rest =>
      have solid : Token.isSpace c = false := solid c rfl
      simp only [Token.isSpace, Bool.or_eq_false_iff] at solid
      obtain ⟨⟨⟨⟨blank, tab⟩, line⟩, ret⟩, mark⟩ := solid
      simp only [beq_eq_false_iff_ne] at mark
      simp [spaceTurn, isOf_peek whole, blank, tab, line, ret, charAt_eq whole, mark]

theorem isAlphaByte_toNat (c : Char) : isAlphaByte c.toNat = c.isAlpha := by
  have letter : c.isAlpha =
      (decide ('A'.val ≤ c.val ∧ c.val ≤ 'Z'.val) || decide ('a'.val ≤ c.val) &&
        decide (c.val ≤ 'z'.val)) := rfl
  rw [Bool.eq_iff_iff, letter]
  simp [isAlphaByte, UInt32.le_iff_toNat_le]

theorem isDigitByte_toNat (c : Char) : isDigitByte c.toNat = c.isDigit := by
  rw [Bool.eq_iff_iff]
  simp [isDigitByte, Char.isDigit, UInt32.le_iff_toNat_le]

theorem isAlphaByte_of_wide {b : Nat} (wide : 128 ≤ b) : isAlphaByte b = false := by
  rw [isAlphaByte, Bool.eq_false_iff]
  simp
  omega

theorem isDigitByte_of_wide {b : Nat} (wide : 128 ≤ b) : isDigitByte b = false := by
  rw [isDigitByte, Bool.eq_false_iff]
  simp
  omega

theorem isAlphaByte_peek (whole : src = before ++ c :: rest) :
    isAlphaByte (peek src before.byteLength) = c.isAlpha :=
  test_peek whole (fun c _ => isAlphaByte_toNat c) (fun _ => isAlphaByte_of_wide)
    fun c wide => by rw [← isAlphaByte_toNat, isAlphaByte_of_wide wide]

theorem isDigitByte_peek (whole : src = before ++ c :: rest) :
    isDigitByte (peek src before.byteLength) = c.isDigit :=
  test_peek whole (fun c _ => isDigitByte_toNat c) (fun _ => isDigitByte_of_wide)
    fun c wide => by rw [← isDigitByte_toNat, isDigitByte_of_wide wide]

/-- What a turn makes of a character in a name. -/
theorem nameTurn_eq (whole : src = before ++ c :: rest) :
    (nameTurn src before.byteLength : Checked ε _) =
      pure (if Text.isNamePart c then .again (before.byteLength + c.utf8Size)
        else .finished before.byteLength) := by
  rcases Nat.lt_or_ge c.toNat 128 with ascii | wide
  · have byte : ¬ 128 ≤ peek src before.byteLength := by
      rw [peek_of_ascii whole ascii]
      omega
    have part : Text.isNamePart c = (c.isAlpha || c.isDigit || c == '_') := by
      simp [Text.isNamePart, Text.isLetterOrDigit, ascii, Char.isAlphanum]
    rw [part, utf8Size_of_ascii ascii]
    simp only [nameTurn, not_le_of_inside whole, if_false, isAlphaByte_peek whole,
      isDigitByte_peek whole, isOf_peek whole (by decide : '_'.toNat < 128), byte]
    split
    · rfl
    · rfl
  · have byte : 128 ≤ peek src before.byteLength := le_peek_of_wide whole wide c.utf8Size_pos
    have line : c ≠ '_' := by
      rintro rfl
      revert wide
      decide
    have part : Text.isNamePart c = Text.isLetterOrDigit c := by simp [Text.isNamePart, line]
    rw [part]
    simp [nameTurn, not_le_of_inside whole, isAlphaByte_of_wide byte, isDigitByte_of_wide byte,
      isOf_of_wide (by decide : '_'.toNat < 128) byte, byte, charAt_eq whole]

theorem skipName_eq (whole : src = before ++ rest) :
    (skipName src before.byteLength : Checked ε _) =
      pure (before.byteLength + Text.byteLength (rest.takeWhile Text.isNamePart)) := by
  refine loop_takeWhile (fun before c rest whole part => ?_)
    (fun before rest whole other => ?_) whole
    (by rw [whole, Text.byteLength_append]; omega)
  · have turn := @nameTurn_eq ε src before rest c whole
    rw [part, if_pos rfl] at turn
    exact .of_again turn rfl
  · cases rest with
    | nil => simp [nameTurn, whole]
    | cons c rest =>
      rw [nameTurn_eq whole, other c rfl]
      rfl

end

/-! ### Numbers -/

section

variable {ε : Type}

def isExponentByte (hex : Bool) (byte : Nat) : Bool :=
  if hex then isOf 'p' byte || isOf 'P' byte
  else isOf 'e' byte || isOf 'E' byte || isOf 'p' byte || isOf 'P' byte

def numberTurn (hex : Bool) (src : Text) (pos : Nat) : Checked ε (Turn Nat Nat) :=
  let byte := peek src pos
  let next := peek src (pos + 1)
  if src.byteLength ≤ pos then pure (.finished pos)
  else if isAlphaByte byte || isDigitByte byte || isOf '_' byte || isOf '.' byte then
    if isExponentByte hex byte && (isOf '+' next || isOf '-' next) then pure (.again (pos + 2))
    else pure (.again (pos + 1))
  else pure (.finished pos)

def skipNumber (src : Text) (pos : Nat) : Checked ε Nat :=
  let hex := isOf '0' (peek src pos) &&
    (byte? src (pos + 1) == some 'x'.toNat || byte? src (pos + 1) == some 'X'.toNat)
  loop (numberTurn hex src) (src.byteLength + 1) pos

variable {src before rest : Text} {c : Char} {hex : Bool}

theorem isOf_peek_head (whole : src = before ++ rest) {k : Char} (ascii : k.toNat < 128)
    (visible : k.toNat ≠ 0) : isOf k (peek src before.byteLength) = (rest.head? == some k) := by
  cases rest with
  | nil =>
    rw [peek_end (whole.trans (List.append_nil before)), isOf]
    exact beq_false_of_ne visible.symm
  | cons c rest =>
    rw [isOf_peek whole ascii, List.head?_cons]
    rfl

theorem ascii_of_isNumberPart (part : Token.isNumberPart c = true) : c.toNat < 128 := by
  by_contra wide
  have wide := Nat.le_of_not_lt wide
  rw [Token.isNumberPart, Char.isAlphanum, ← isAlphaByte_toNat, ← isDigitByte_toNat,
    isAlphaByte_of_wide wide, isDigitByte_of_wide wide] at part
  simp only [Bool.or_self, Bool.false_or, Bool.or_eq_true, beq_iff_eq] at part
  rcases part with rfl | rfl
  · revert wide
    decide
  · revert wide
    decide

/-- What a turn makes of a character in a number. -/
theorem numberTurn_eq (whole : src = before ++ c :: rest) :
    (numberTurn hex src before.byteLength : Checked ε _) =
      pure (if !Token.isNumberPart c then .finished before.byteLength
        else if Token.isExponentMark hex c &&
          (rest.head? == some '+' || rest.head? == some '-') then
          .again (before.byteLength + 2)
        else .again (before.byteLength + 1)) := by
  have part :
      (isAlphaByte (peek src before.byteLength) || isDigitByte (peek src before.byteLength) ||
        isOf '_' (peek src before.byteLength) || isOf '.' (peek src before.byteLength)) =
        Token.isNumberPart c := by
    rw [isAlphaByte_peek whole, isDigitByte_peek whole, isOf_peek whole (by decide),
      isOf_peek whole (by decide), Token.isNumberPart, Char.isAlphanum]
  have mark : isExponentByte hex (peek src before.byteLength) = Token.isExponentMark hex c := by
    simp only [isExponentByte, Token.isExponentMark, isOf_peek whole (by decide : 'p'.toNat < 128),
      isOf_peek whole (by decide : 'P'.toNat < 128), isOf_peek whole (by decide : 'e'.toNat < 128),
      isOf_peek whole (by decide : 'E'.toNat < 128)]
  simp only [numberTurn, not_le_of_inside whole, if_false, part, mark]
  cases number : Token.isNumberPart c with
  | false => rfl
  | true =>
    have ascii := ascii_of_isNumberPart number
    have behind : src = (before ++ [c]) ++ rest := by simp [whole]
    have next := fun {k : Char} (ascii : k.toNat < 128) visible =>
      @isOf_peek_head src (before ++ [c]) rest behind k ascii visible
    rw [byteLength_snoc, utf8Size_of_ascii ascii] at next
    rw [next (by decide) (by decide), next (by decide) (by decide)]
    simp only [if_true, Bool.not_true, Bool.false_eq_true, if_false]
    split
    · rfl
    · rfl

theorem numberLength_cons (hex : Bool) (c : Char) (rest : Text) :
    Token.numberLength hex (c :: rest) =
      if !Token.isNumberPart c then 0
      else if Token.isExponentMark hex c && (rest.head? == some '+' || rest.head? == some '-') then
        Token.numberLength hex rest.tail + 2
      else Token.numberLength hex rest + 1 := by
  cases rest with
  | nil =>
    cases part : Token.isNumberPart c <;> simp [Token.numberLength, part]
  | cons d rest => rw [Token.numberLength]; rfl

theorem loop_numberTurn (whole : src = before ++ rest) {turns : Nat}
    (enough : rest.byteLength < turns) :
    loop (numberTurn hex src : Nat → Checked ε _) turns before.byteLength =
      pure (before.byteLength + Text.byteLength (rest.take (Token.numberLength hex rest))) := by
  induction size : rest.length using Nat.strongRecOn generalizing before rest turns with
  | _ size ih =>
  subst size
  obtain ⟨turns, rfl⟩ : ∃ n, turns = n + 1 := ⟨turns - 1, by omega⟩
  cases rest with
  | nil =>
    apply loop_finished
    simp [numberTurn, whole]
  | cons c rest =>
    have turn := @numberTurn_eq ε src before rest c hex whole
    rw [numberLength_cons]
    split_ifs at turn ⊢ with other sign
    · exact loop_finished turn turns
    · have ascii := ascii_of_isNumberPart (by simpa using other)
      rw [Text.byteLength_cons, utf8Size_of_ascii ascii] at enough
      rw [loop_again turn]
      cases rest with
      | nil => simp at sign
      | cons d rest =>
        have signed : d.utf8Size = 1 := by
          simp only [List.head?_cons, Option.some_beq_some, Bool.and_eq_true, Bool.or_eq_true,
            beq_iff_eq] at sign
          rcases sign.2 with rfl | rfl <;> rfl
        rw [Text.byteLength_cons, signed] at enough
        have behind : src = (before ++ [c, d]) ++ rest := by simp [whole]
        have next := @ih rest.length (by simp only [List.length_cons]; omega) (before ++ [c, d])
          rest behind turns (by omega) rfl
        simp only [Text.byteLength_append, Text.byteLength_cons, Text.byteLength_nil, signed,
          utf8Size_of_ascii ascii] at next
        rw [List.tail_cons, List.take_succ_cons, List.take_succ_cons, Text.byteLength_cons,
          Text.byteLength_cons, signed, utf8Size_of_ascii ascii, next]
        congr 1
        omega
    · have ascii := ascii_of_isNumberPart (by simpa using other)
      rw [Text.byteLength_cons, utf8Size_of_ascii ascii] at enough
      have behind : src = (before ++ [c]) ++ rest := by simp [whole]
      have next := @ih rest.length (by simp) (before ++ [c]) rest behind turns (by omega) rfl
      rw [byteLength_snoc, utf8Size_of_ascii ascii] at next
      rw [loop_again turn, next, List.take_succ_cons, Text.byteLength_cons, utf8Size_of_ascii ascii,
        Nat.add_assoc]

theorem skipNumber_eq (whole : src = before ++ c :: rest) (first : c.isDigit = true ∨ c = '.') :
    (skipNumber src before.byteLength : Checked ε _) =
      pure (before.byteLength + Text.byteLength (c :: rest.take (Token.numberLength
        (c == '0' && (rest.head? == some 'x' || rest.head? == some 'X')) rest))) := by
  have part : Token.isNumberPart c = true := by
    rcases first with digit | rfl
    · simp [Token.isNumberPart, Char.isAlphanum, digit]
    · rfl
  have mark : ∀ hex, Token.isExponentMark hex c = false := by
    intro hex
    rw [Bool.eq_false_iff]
    intro mark
    have letter : c = 'e' ∨ c = 'E' ∨ c = 'p' ∨ c = 'P' := by
      cases hex
      · simpa [Token.isExponentMark, or_assoc] using mark
      · have letter : c = 'p' ∨ c = 'P' := by simpa [Token.isExponentMark] using mark
        exact .inr (.inr letter)
    rcases first with digit | rfl
    · rcases letter with rfl | rfl | rfl | rfl <;> cases digit
    · revert letter
      decide
  have hex :
      (isOf '0' (peek src before.byteLength) &&
        (byte? src (before.byteLength + 1) == some 'x'.toNat ||
          byte? src (before.byteLength + 1) == some 'X'.toNat)) =
        (c == '0' && (rest.head? == some 'x' || rest.head? == some 'X')) := by
    have behind : src = (before ++ [c]) ++ rest := by simp [whole]
    have next := fun {k : Char} (ascii : k.toNat < 128) => byte?_eq_some_iff behind ascii
    rw [byteLength_snoc, utf8Size_of_ascii (ascii_of_isNumberPart part)] at next
    rw [isOf_peek whole (by decide), Bool.eq_iff_iff]
    simp only [Bool.and_eq_true, Bool.or_eq_true, beq_iff_eq, next (by decide : 'x'.toNat < 128),
      next (by decide : 'X'.toNat < 128)]
  rw [skipNumber, hex, loop_numberTurn whole (by rw [whole, Text.byteLength_append]; omega),
    numberLength_cons, part, mark]
  rfl

end

/-! ### Comments and literals -/

section

def lineTurn {ε : Type} (src : Text) (pos : Nat) : Checked ε (Turn Nat Nat) :=
  if src.byteLength ≤ pos || isOf '\n' (peek src pos) then pure (.finished pos)
  else pure (.again (pos + 1))

/-- A carriage return in front of the line break is left out. -/
def skipLine {ε : Type} (src : Text) (pos : Nat) : Checked ε Nat := do
  let stop ← loop (lineTurn src) (src.byteLength + 1) pos
  if stop = 0 then return stop
  else
    let last ← minus stop 1
    let byte ← item (bytes src) last
    if isOf '\r' byte.toNat then minus stop 1 else return stop

def blockTurn (start : Nat) (src : Text) (pos : Nat) : Checked LexError (Turn Nat Nat) :=
  if src.byteLength ≤ pos + 1 then throw ⟨.unterminatedComment, start⟩
  else if isOf '*' (peek src pos) && byte? src (pos + 1) == some '/'.toNat
    then pure (.finished (pos + 2))
  else pure (.again (pos + 1))

def skipBlock (src : Text) (pos : Nat) : Checked LexError Nat :=
  loop (blockTurn pos src) (src.byteLength + 1) (pos + 2)

/-- A backslash takes the byte after it along. -/
def quotedTurn (quote : Char) (cause : LexError.Cause) (start : Nat) (src : Text) (pos : Nat) :
    Checked LexError (Turn Nat Nat) :=
  let byte := peek src pos
  if src.byteLength ≤ pos then throw ⟨cause, start⟩
  else if isOf quote byte then pure (.finished (pos + 1))
  else if isOf '\\' byte then pure (.again (pos + 2))
  else if isOf '\n' byte then throw ⟨cause, start⟩
  else pure (.again (pos + 1))

def skipQuoted (quote : Char) (cause : LexError.Cause) (src : Text) (pos : Nat) :
    Checked LexError Nat :=
  loop (quotedTurn quote cause pos src) (src.byteLength + 1) (pos + 1)

def rawTurn (start : Nat) (src : Text) (pos : Nat) : Checked LexError (Turn Nat Nat) :=
  if src.byteLength ≤ pos then throw ⟨.unterminatedRawString, start⟩
  else if isOf '\x60' (peek src pos) then pure (.finished (pos + 1))
  else pure (.again (pos + 1))

def skipRaw (src : Text) (pos : Nat) : Checked LexError Nat :=
  loop (rawTurn pos src) (src.byteLength + 1) (pos + 1)

variable {src before rest : Text} {c : Char}

/-- No byte of a character is that of another one. -/
theorem isOf_inside (whole : src = before ++ c :: rest) {k : Char} (ascii : k.toNat < 128)
    (other : c ≠ k) {i : Nat} (inside : i < c.utf8Size) :
    isOf k (peek src (before.byteLength + i)) = false := by
  rcases Nat.lt_or_ge c.toNat 128 with narrow | wide
  · obtain rfl : i = 0 := by
      rw [utf8Size_of_ascii narrow] at inside
      omega
    rw [Nat.add_zero, isOf_peek whole ascii]
    exact beq_false_of_ne other
  · exact isOf_of_wide ascii (le_peek_of_wide whole wide inside)

theorem loop_lineTurn {ε : Type} (whole : src = before ++ rest) {turns : Nat}
    (enough : rest.byteLength < turns) :
    loop (lineTurn src : Nat → Checked ε _) turns before.byteLength =
      pure (before.byteLength + Text.byteLength (rest.takeWhile (· != '\n'))) := by
  refine loop_takeWhile (fun before c rest whole more => ?_) (fun before rest whole ends => ?_)
    whole enough
  · refine .of_upward fun i inside => ?_
    have other := isOf_inside whole (by decide) (bne_iff_ne.1 more) inside
    have less := Nat.not_le.2 (lt_byteLength whole inside)
    simp [lineTurn, other, less]
  · cases rest with
    | nil => simp [lineTurn, whole]
    | cons c rest =>
      have line : c = '\n' := by simpa using ends c rfl
      simp [lineTurn, isOf_peek whole, line]

/-- The byte in front of a position is the last one of the character there. -/
theorem item_before {ε : Type} (whole : src = before ++ c :: rest) {k : Char}
    (ascii : k.toNat < 128) :
    ∃ byte, (item (bytes src) (before.byteLength + c.utf8Size - 1) : Checked ε _) = pure byte ∧
      isOf k byte.toNat = (c == k) := by
  have pos := c.utf8Size_pos
  have found : ∃ n, byte? src (before.byteLength + c.utf8Size - 1) = some n ∧
      isOf k n = (c == k) := by
    rcases peek_cases whole with ⟨narrow, size, here⟩ | ⟨wide, here⟩
    · refine ⟨c.toNat, by rw [size]; exact here, ?_⟩
      rw [isOf, Bool.eq_iff_iff, beq_iff_eq, beq_iff_eq, Char.toNat_inj]
    · obtain ⟨n, here, large⟩ := here (c.utf8Size - 1) (by omega)
      rw [← Nat.add_sub_assoc pos] at here
      refine ⟨n, here, ?_⟩
      rw [isOf_of_wide ascii large]
      exact (beq_false_of_ne (by rintro rfl; omega)).symm
  obtain ⟨n, here, same⟩ := found
  obtain ⟨byte, found, rfl⟩ := Option.map_eq_some_iff.1 here
  exact ⟨byte, item_of_getElem? found, same⟩

theorem skipLine_eq {ε : Type} (whole : src = before ++ c :: rest) (first : c ≠ '\n')
    (second : rest.head? = some '/') :
    (skipLine src before.byteLength : Checked ε _) =
      pure (before.byteLength + Text.byteLength
        (c :: rest.take (Token.lineCommentLength rest))) := by
  have nonempty : rest.takeWhile (· != '\n') ≠ [] := by
    obtain ⟨more, rfl⟩ : ∃ more, rest = '/' :: more := by
      cases rest with
      | nil => cases second
      | cons d more =>
        cases second
        exact ⟨more, rfl⟩
    rw [List.takeWhile_cons_of_pos (by decide)]
    exact List.cons_ne_nil _ _
  obtain ⟨line, last, ends⟩ := (List.eq_nil_or_concat _).resolve_left nonempty
  obtain ⟨tail, cut⟩ : ∃ tail, rest = line ++ last :: tail := by
    refine ⟨rest.dropWhile (· != '\n'), ?_⟩
    conv_lhs => rw [← @List.takeWhile_append_dropWhile _ (· != '\n') rest, ends]
    simp
  have reached : (loop (lineTurn src) (src.byteLength + 1) before.byteLength : Checked ε _) =
      pure ((before ++ c :: line).byteLength + last.utf8Size) := by
    rw [loop_lineTurn whole (by rw [whole, Text.byteLength_append]; omega),
      List.takeWhile_cons, if_pos (bne_iff_ne.2 first), ends]
    simp [Nat.add_assoc]
  have whole' : src = (before ++ c :: line) ++ last :: tail := by simp [whole, cut]
  obtain ⟨byte, here, same⟩ := @item_before src (before ++ c :: line) _ last ε whole' '\r'
    (by decide)
  have pos := last.utf8Size_pos
  rw [skipLine, reached, pure_bind, if_neg (by omega), minus_of_le (by omega), pure_bind, here,
    pure_bind, same]
  by_cases ret : last = '\r'
  · subst ret
    have length : Token.lineCommentLength rest = line.length := by
      simp [Token.lineCommentLength, ends]
    have text : rest.take line.length = line := by
      rw [cut]
      exact List.take_left ..
    rw [length, text, beq_self_eq_true, if_pos rfl, Text.byteLength_append]
    rfl
  · have length : Token.lineCommentLength rest = (line ++ [last]).length := by
      simp [Token.lineCommentLength, ends, ret]
    have text : rest.take (line ++ [last]).length = line ++ [last] := by
      have cut : rest = (line ++ [last]) ++ tail := by simp [cut]
      rw [cut, List.take_left]
    rw [length, text, beq_false_of_ne ret, if_neg Bool.false_ne_true]
    simp [Nat.add_assoc]

/-- What is left of a literal or comment: where it ends, or that it does not. -/
def ending (cause : LexError.Cause) (start : Nat) (pos : Nat) (rest : Text) (length : Option Nat) :
    Checked LexError Nat :=
  match length with
  | some n => pure (pos + Text.byteLength (rest.take n))
  | none => throw ⟨cause, start⟩

theorem ending_map (cause : LexError.Cause) (start : Nat) (front rest : Text) (pos : Nat)
    (length : Option Nat) :
    ending cause start (pos + front.byteLength) rest length =
      ending cause start pos (front ++ rest) (length.map (· + front.length)) := by
  cases length with
  | none => rfl
  | some n =>
    have text : (front ++ rest).take (n + front.length) = front ++ rest.take n := by
      rw [Nat.add_comm, List.take_length_add_append]
    simp only [ending, Option.map_some, text, Text.byteLength_append, Nat.add_assoc]

theorem loop_rawTurn {start : Nat} (whole : src = before ++ rest) {turns : Nat}
    (enough : rest.byteLength < turns) :
    loop (rawTurn start src) turns before.byteLength =
      ending .unterminatedRawString start before.byteLength rest (Token.rawStringLength rest) := by
  induction rest generalizing before turns with
  | nil =>
    obtain ⟨turns, rfl⟩ : ∃ n, turns = n + 1 := ⟨turns - 1, by omega⟩
    apply loop_throw
    simp [rawTurn, whole]
  | cons c rest ih =>
    rw [Text.byteLength_cons] at enough
    by_cases quote : c = '\x60'
    · subst quote
      obtain ⟨turns, rfl⟩ : ∃ n, turns = n + 1 := ⟨turns - 1, by omega⟩
      have turn : rawTurn start src before.byteLength =
          pure (.finished (before.byteLength + 1)) := by
        simp [rawTurn, isOf_peek whole, not_le_of_inside whole]
      rw [loop_finished turn]
      rfl
    · obtain ⟨n, size, pass⟩ : Passes (rawTurn start src) before.byteLength c := by
        refine .of_upward fun i inside => ?_
        have less := Nat.not_le.2 (lt_byteLength whole inside)
        simp [rawTurn, less, isOf_inside whole (by decide) quote inside]
      obtain ⟨turns, rfl⟩ : ∃ m, turns = m + n := ⟨turns - n, by omega⟩
      have behind : src = (before ++ [c]) ++ rest := by simp [whole]
      have next := ending_map .unterminatedRawString start [c] rest before.byteLength
        (Token.rawStringLength rest)
      rw [pass, ← byteLength_snoc, ih behind (by omega), Token.rawStringLength, if_neg quote,
        byteLength_snoc]
      exact next

theorem loop_blockTurn {start : Nat} (whole : src = before ++ rest) {turns : Nat}
    (enough : rest.byteLength < turns) :
    loop (blockTurn start src) turns before.byteLength =
      ending .unterminatedComment start before.byteLength rest (Token.blockCommentLength rest) := by
  induction rest generalizing before turns with
  | nil =>
    obtain ⟨turns, rfl⟩ : ∃ n, turns = n + 1 := ⟨turns - 1, by omega⟩
    apply loop_throw
    simp [blockTurn, whole]
  | cons c rest ih =>
    have behind : src = (before ++ [c]) ++ rest := by simp [whole]
    have size : src.byteLength = before.byteLength + c.utf8Size + Text.byteLength rest := by
      simp [whole, Nat.add_assoc]
    rw [Text.byteLength_cons] at enough
    have next := byte?_eq_some_iff behind (by decide : '/'.toNat < 128)
    rw [byteLength_snoc] at next
    by_cases ends : c = '*' ∧ rest.head? = some '/'
    · obtain ⟨rfl, slash⟩ := ends
      obtain ⟨turns, rfl⟩ : ∃ n, turns = n + 1 := ⟨turns - 1, by omega⟩
      have close : byte? src (before.byteLength + 1) = some '/'.toNat := next.2 slash
      obtain ⟨more, rfl⟩ : ∃ more, rest = '/' :: more :=
        ⟨rest.tail, List.eq_cons_of_mem_head? slash⟩
      have inside : ¬ src.byteLength ≤ before.byteLength + 1 := by
        rw [size, Text.byteLength_cons]
        have : '*'.utf8Size = 1 := rfl
        have : '/'.utf8Size = 1 := rfl
        omega
      have turn : blockTurn start src before.byteLength =
          pure (.finished (before.byteLength + 2)) := by
        simp [blockTurn, isOf_peek whole, inside, close]
      rw [loop_finished turn]
      rfl
    · have goesOn : ∀ i < c.utf8Size, ¬ src.byteLength ≤ before.byteLength + i + 1 →
          blockTurn start src (before.byteLength + i) =
            pure (.again (before.byteLength + i + 1)) := by
        intro i inside within
        have other : (isOf '*' (peek src (before.byteLength + i)) &&
            byte? src (before.byteLength + i + 1) == some '/'.toNat) = false := by
          by_cases star : c = '*'
          · subst star
            obtain rfl : i = 0 := Nat.lt_one_iff.1 inside
            have apart : byte? src (before.byteLength + 1) ≠ some '/'.toNat :=
              fun slash => ends ⟨rfl, next.1 slash⟩
            rw [Nat.add_zero, beq_false_of_ne apart, Bool.and_false]
          · rw [isOf_inside whole (by decide) star inside, Bool.false_and]
        rw [blockTurn, if_neg within, other, if_neg Bool.false_ne_true]
      have length : Token.blockCommentLength (c :: rest) =
          (Token.blockCommentLength rest).map (· + 1) := by
        rw [Token.blockCommentLength]
        rintro more rfl rfl
        exact ends ⟨rfl, rfl⟩
      have pos := c.utf8Size_pos
      cases rest with
      | nil =>
        -- The loop ends in front of the last byte.
        obtain ⟨turns, rfl⟩ : ∃ m, turns = m + 1 + (c.utf8Size - 1) :=
          ⟨turns - c.utf8Size, by omega⟩
        rw [loop_upward fun i inside => goesOn i (by omega) (by rw [size]; omega), length]
        apply loop_throw
        rw [blockTurn, if_pos]
        rw [size, Text.byteLength_nil]
        omega
      | cons d rest =>
        have dpos := d.utf8Size_pos
        rw [Text.byteLength_cons] at size
        obtain ⟨turns, rfl⟩ : ∃ m, turns = m + c.utf8Size := ⟨turns - c.utf8Size, by omega⟩
        have after := ending_map .unterminatedComment start [c] (d :: rest) before.byteLength
          (Token.blockCommentLength (d :: rest))
        rw [loop_upward fun i inside => goesOn i inside (by rw [size]; omega), ← byteLength_snoc,
          ih behind (by omega), length, byteLength_snoc]
        exact after

theorem skipBlock_eq (whole : src = before ++ '/' :: '*' :: rest) :
    skipBlock src before.byteLength =
      ending .unterminatedComment before.byteLength before.byteLength ('/' :: '*' :: rest)
        ((Token.blockCommentLength rest).map (· + 2)) := by
  have behind : src = (before ++ ['/', '*']) ++ rest := by simp [whole]
  have run := @loop_blockTurn src (before ++ ['/', '*']) rest before.byteLength behind
    (src.byteLength + 1) (by rw [behind, Text.byteLength_append]; omega)
  rw [Text.byteLength_append] at run
  exact run.trans (ending_map _ _ ['/', '*'] rest _ _)

theorem skipRaw_eq (whole : src = before ++ '\x60' :: rest) :
    skipRaw src before.byteLength =
      ending .unterminatedRawString before.byteLength before.byteLength ('\x60' :: rest)
        ((Token.rawStringLength rest).map (· + 1)) := by
  have behind : src = (before ++ ['\x60']) ++ rest := by simp [whole]
  have run := @loop_rawTurn src (before ++ ['\x60']) rest before.byteLength behind
    (src.byteLength + 1) (by rw [behind, Text.byteLength_append]; omega)
  rw [Text.byteLength_append] at run
  exact run.trans (ending_map _ _ ['\x60'] rest _ _)

theorem loop_quotedTurn {quote : Char} {cause : LexError.Cause} {start : Nat}
    (ascii : quote.toNat < 128) (whole : src = before ++ rest) {turns : Nat}
    (enough : rest.byteLength < turns) :
    loop (quotedTurn quote cause start src) turns before.byteLength =
      ending cause start before.byteLength rest (Token.quotedLength quote rest) := by
  obtain ⟨more, rfl⟩ : ∃ n, turns = n + 1 := ⟨turns - 1, by omega⟩
  fun_induction Token.quotedLength quote rest generalizing before more with
  | case1 =>
    apply loop_throw
    simp [quotedTurn, whole]
  | case2 rest =>
    have turn : quotedTurn quote cause start src before.byteLength =
        pure (.finished (before.byteLength + 1)) := by
      simp [quotedTurn, not_le_of_inside whole, isOf_peek whole ascii]
    rw [loop_finished turn]
    simp [ending, utf8Size_of_ascii ascii]
  | case3 rest closes =>
    apply loop_throw
    simp [quotedTurn, not_le_of_inside whole, isOf_peek whole ascii, isOf_peek whole, closes]
  | case4 closes line =>
    -- The escape leads behind the end.
    have turn : quotedTurn quote cause start src before.byteLength =
        pure (.again (before.byteLength + 2)) := by
      simp [quotedTurn, not_le_of_inside whole, isOf_peek whole ascii, isOf_peek whole, closes]
    obtain ⟨more, rfl⟩ : ∃ n, more = n + 1 := by
      have one : Text.byteLength ['\\'] = 1 := rfl
      exact ⟨more - 1, by omega⟩
    rw [loop_again turn]
    apply loop_throw
    rw [quotedTurn, if_pos]
    rw [whole, Text.byteLength_append]
    exact Nat.add_le_add_left (by decide) _
  | case5 d rest closes line ih =>
    have turn : quotedTurn quote cause start src before.byteLength =
        pure (.again (before.byteLength + 2)) := by
      simp [quotedTurn, not_le_of_inside whole, isOf_peek whole ascii, isOf_peek whole, closes]
    have dpos := d.utf8Size_pos
    have slash : '\\'.utf8Size = 1 := rfl
    rw [Text.byteLength_cons, Text.byteLength_cons, slash] at enough
    have behind : src = (before ++ ['\\']) ++ d :: rest := by simp [whole]
    -- The bytes of the escaped character behind its first one are no ASCII characters.
    have inner : ∀ i < d.utf8Size - 1,
        quotedTurn quote cause start src (before.byteLength + 2 + i) =
          pure (.again (before.byteLength + 2 + i + 1)) := by
      intro i less
      have wide : 128 ≤ d.toNat := by
        by_contra narrow
        rw [utf8Size_of_ascii (Nat.lt_of_not_le narrow)] at less
        omega
      have inside : i + 1 < d.utf8Size := by omega
      have same : (before ++ ['\\']).byteLength + (i + 1) = before.byteLength + 2 + i := by
        rw [byteLength_snoc, slash]
        omega
      have large := le_peek_of_wide behind wide inside
      have within := Nat.not_le.2 (lt_byteLength behind inside)
      rw [same] at large within
      simp [quotedTurn, within, isOf_of_wide ascii large, isOf_of_wide _ large]
    obtain ⟨turns, rfl⟩ : ∃ m, more = m + 1 + (d.utf8Size - 1) := ⟨more - d.utf8Size, by omega⟩
    have reached : before.byteLength + 2 + (d.utf8Size - 1) = (before ++ ['\\', d]).byteLength := by
      simp [slash]
      omega
    have next := @ih (before ++ ['\\', d]) (by simp [whole]) turns (by omega)
    rw [loop_again turn, loop_upward inner, reached, next, Text.byteLength_append]
    exact ending_map cause start ['\\', d] rest before.byteLength _
  | case6 c rest closes line escape ih =>
    obtain ⟨n, size, pass⟩ : Passes (quotedTurn quote cause start src) before.byteLength c := by
      refine .of_upward fun i inside => ?_
      have within := Nat.not_le.2 (lt_byteLength whole inside)
      simp [quotedTurn, within, isOf_inside whole ascii closes inside,
        isOf_inside whole _ line inside, isOf_inside whole _ escape inside]
    rw [Text.byteLength_cons] at enough
    obtain ⟨turns, eq⟩ : ∃ m, more + 1 = m + 1 + n := ⟨more - n, by omega⟩
    have next := @ih (before ++ [c]) (by simp [whole]) turns (by omega)
    rw [eq, pass, ← byteLength_snoc, next, byteLength_snoc]
    exact ending_map cause start [c] rest before.byteLength _

theorem skipQuoted_eq {quote : Char} {cause : LexError.Cause} (ascii : quote.toNat < 128)
    (whole : src = before ++ quote :: rest) :
    skipQuoted quote cause src before.byteLength =
      ending cause before.byteLength before.byteLength (quote :: rest)
        ((Token.quotedLength quote rest).map (· + 1)) := by
  have behind : src = (before ++ [quote]) ++ rest := by simp [whole]
  have run := @loop_quotedTurn src (before ++ [quote]) rest quote cause before.byteLength
    ascii behind
    (src.byteLength + 1) (by rw [behind, Text.byteLength_append]; omega)
  rw [byteLength_snoc, utf8Size_of_ascii ascii] at run
  have after := ending_map cause before.byteLength [quote] rest before.byteLength
    (Token.quotedLength quote rest)
  rw [Text.byteLength_cons, utf8Size_of_ascii ascii] at after
  exact run.trans after

end

end GoSplit.Checked.Lexer
