import GoSplit.Proofs.Text.Letter
import GoSplit.Proofs.Token.Scan

/-!
Tokens in front of another text. A token that is read in one place is read in every
place where what follows looks the same from the left; a line break behind it, or the
end of the input, never changes it. Line comments are the exception: where they end
depends on a carriage return.
-/

namespace GoSplit.Token

/-! ### Line comments -/

/-- A line comment ends at the line break or the end of the input, or one carriage
return before it. -/
def EndsLine (text rest : Text) : Prop :=
  (∀ c ∈ rest.head?, c = '\n') ∧ text.getLast? ≠ some '\r' ∨
    ∃ more, rest = '\r' :: more ∧ ∀ c ∈ more.head?, c = '\n'

theorem takeWhile_newline_append {body : Text} (h : '\n' ∉ body) (rest : Text) :
    (body ++ rest).takeWhile (· != '\n') = body ++ rest.takeWhile (· != '\n') := by
  rw [List.takeWhile_append_of_pos]
  intro c mem
  simp only [bne_iff_ne, ne_eq]
  rintro rfl
  exact h mem

theorem takeWhile_newline_eq_nil_iff (rest : Text) :
    rest.takeWhile (· != '\n') = [] ↔ ∀ c ∈ rest.head?, c = '\n' := by
  cases rest with
  | nil => simp
  | cons c more => by_cases newline : c = '\n' <;> simp [newline]

theorem lineCommentLength_eq_iff (body rest : Text) :
    lineCommentLength ('/' :: (body ++ rest)) = body.length + 1 ↔
      '\n' ∉ body ∧ EndsLine ('/' :: '/' :: body) rest := by
  have first : ∀ s : Text, List.takeWhile (· != '\n') ('/' :: s) =
      '/' :: s.takeWhile (· != '\n') := fun s => by simp
  by_cases broken : '\n' ∈ body
  · obtain ⟨before, after, rfl⟩ := List.append_of_mem broken
    have bound : ((before ++ '\n' :: after ++ rest).takeWhile (· != '\n')).length ≤
        before.length := by
      rw [List.append_assoc, List.takeWhile_append]
      split
      · simp
      · exact (List.takeWhile_sublist _).length_le
    simp only [lineCommentLength, first, List.length_cons, List.length_append]
    constructor
    · intro h
      split at h <;> omega
    · simp
  · simp only [lineCommentLength, first, takeWhile_newline_append broken, broken,
      not_false_eq_true, true_and]
    rcases rest with _ | ⟨c, more⟩
    · simp [EndsLine]
    · by_cases newline : c = '\n'
      · subst newline
        simp [EndsLine]
      · have line : List.takeWhile (· != '\n') (c :: more) =
            c :: more.takeWhile (· != '\n') := by
          simp [newline]
        rw [line]
        rcases tail : more.takeWhile (· != '\n') with _ | ⟨d, others⟩
        · have := (takeWhile_newline_eq_nil_iff more).1 tail
          have last : ('/' :: (body ++ [c])).getLast? = some c := by
            rw [← List.cons_append, List.getLast?_append]
            rfl
          by_cases back : c = '\r' <;> simp_all [EndsLine]
        · have long : ¬ ∀ c ∈ more.head?, c = '\n' := by
            rw [← takeWhile_newline_eq_nil_iff, tail]
            simp
          constructor
          · intro h
            split at h <;> simp at h
          · rintro (⟨h, -⟩ | ⟨more', eq, h⟩)
            · exact absurd (h c rfl) newline
            · obtain ⟨rfl, rfl⟩ := List.cons.inj eq
              exact absurd h long

theorem scan_eq_lineComment {c : Char} {s : Text} {n : Nat}
    (h : scan c s = .ok (.lineComment, n)) :
    c = '/' ∧ ∃ more, s = '/' :: more ∧ n = lineCommentLength s := by
  unfold scan at h
  split at h
  case h_1 => exact ⟨rfl, _, rfl, by simpa using h.symm⟩
  case h_19 =>
    split at h
    · simp at h
    · split at h <;> simp at h
  case h_7 => split at h <;> simp at h
  all_goals
    first
    | exact absurd (required_eq_ok h).1 (by simp)
    | simp at h

theorem reads_lineComment_iff (text rest : Text) :
    Reads .lineComment text rest ↔
      ∃ body, text = '/' :: '/' :: body ∧ '\n' ∉ body ∧ EndsLine text rest := by
  constructor
  · rintro ⟨c, body, rfl, -, read⟩
    obtain ⟨rfl, more, eq, size⟩ := scan_eq_lineComment read
    rcases body with _ | ⟨d, body⟩
    · -- The second slash alone makes the comment longer than its first character.
      rw [List.nil_append] at eq
      subst eq
      have one : 1 ≤ lineCommentLength ('/' :: more) := by
        simp only [lineCommentLength]
        rcases h : more.takeWhile (· != '\n') with _ | ⟨d, others⟩ <;> simp [h]
        split <;> omega
      simp only [List.nil_append, List.length_nil] at size
      omega
    · obtain ⟨rfl, -⟩ := List.cons.inj eq
      obtain ⟨whole, ends⟩ := (lineCommentLength_eq_iff body rest).1 size.symm
      exact ⟨body, rfl, whole, ends⟩
  · rintro ⟨body, rfl, whole, ends⟩
    have size := (lineCommentLength_eq_iff body rest).2 ⟨whole, ends⟩
    exact ⟨'/', '/' :: body, rfl, rfl, by simp [scan, size]⟩

/-! ### Reading the same token in front of another text -/

/-- Characters that no token in front of them takes along. -/
def isNeutral (c : Char) : Bool := isSpace c || c == '"' || c == '\x60'

theorem isNeutral_iff (c : Char) : isNeutral c = true ↔
    c = ' ' ∨ c = '\t' ∨ c = '\n' ∨ c = '\r' ∨ c = '\uFEFF' ∨ c = '"' ∨ c = '\x60' := by
  simp [isNeutral, isSpace, or_assoc]

theorem not_isNamePart_of_isNeutral {c : Char} (h : isNeutral c = true) :
    Text.isNamePart c = false := by
  rw [isNeutral_iff] at h
  rcases h with rfl | rfl | rfl | rfl | rfl | rfl | rfl
  case inr.inr.inr.inr.inl => exact Text.not_isNamePart_byteOrderMark
  all_goals decide

theorem not_isNumberPart_of_isNeutral {c : Char} (h : isNeutral c = true) :
    isNumberPart c = false := by
  rw [isNeutral_iff] at h
  rcases h with rfl | rfl | rfl | rfl | rfl | rfl | rfl <;> decide

theorem not_isDigit_of_isNeutral {c : Char} (h : isNeutral c = true) : c.isDigit = false := by
  rw [isNeutral_iff] at h
  rcases h with rfl | rfl | rfl | rfl | rfl | rfl | rfl <;> decide

theorem lengthens_of_isNeutral {c : Char} (h : isNeutral c = true) (kind : Kind)
    (text rest : Text) : lengthens kind text (c :: rest) = false := by
  have name := not_isNamePart_of_isNeutral h
  have number := not_isNumberPart_of_isNeutral h
  have digit := not_isDigit_of_isNeutral h
  have other : c ≠ '.' ∧ c ≠ '/' ∧ c ≠ '*' ∧ c ≠ '+' ∧ c ≠ '-' := by
    rw [isNeutral_iff] at h
    rcases h with rfl | rfl | rfl | rfl | rfl | rfl | rfl <;> decide
  cases kind <;> simp [lengthens, name, digit, other]
  cases text <;> simp [numberGoesOn, number, other]

/-- A token is read at the end of the input as well, unless it is a line comment that
would lose a carriage return there. -/
theorem Reads.atEnd {kind : Kind} {text rest : Text} (h : Reads kind text rest)
    (kept : kind = .lineComment → text.getLast? ≠ some '\r') : Reads kind text [] := by
  by_cases line : kind = .lineComment
  · subst line
    rw [reads_lineComment_iff] at h ⊢
    obtain ⟨body, rfl, whole, -⟩ := h
    exact ⟨body, rfl, whole, .inl ⟨by simp, kept rfl⟩⟩
  · exact ((reads_iff line text rest).1 h).1

/-- What is read at the end of the input is read in front of white space; only a line
break ends a line comment. -/
theorem Reads.beforeSpace {kind : Kind} {text : Text} (h : Reads kind text []) {c : Char}
    (space : isSpace c = true) (rest : Text) (ends : kind = .lineComment → c = '\n') :
    Reads kind text (c :: rest) := by
  by_cases line : kind = .lineComment
  · subst line
    rw [reads_lineComment_iff] at h ⊢
    obtain ⟨body, rfl, whole, (⟨-, kept⟩ | ⟨more, eq, -⟩)⟩ := h
    · exact ⟨body, rfl, whole, .inl ⟨by simpa using ends rfl, kept⟩⟩
    · simp at eq
  · rw [reads_iff line]
    exact ⟨h, lengthens_of_isNeutral (by simp [isNeutral, space]) ..⟩

/-- Both quotes of a string literal look alike from the left. -/
def front (c : Char) : Char := if c = '\x60' then '"' else c

/-- Two texts between which no token in front of them can tell. -/
def SameFront (rest rest' : Text) : Prop :=
  (rest.take 2).map front = (rest'.take 2).map front ∨
    ∃ c cs d ds, rest = c :: cs ∧ rest' = d :: ds ∧ front c = front d ∧ c ≠ '.' ∧ c ≠ '\r'

theorem front_eq_iff {c d : Char} (h : front c = front d) :
    c = d ∨ isNeutral c = true ∧ isNeutral d = true ∧ isSpace c = false := by
  unfold front at h
  split at h <;> split at h
  · simp_all
  · simp_all [isNeutral, isSpace]
    simp [← h]
  · simp_all [isNeutral, isSpace]
  · exact .inl h

theorem lengthens_congr {rest rest' : Text} (same : SameFront rest rest') (kind : Kind)
    (text : Text) : lengthens kind text rest = lengthens kind text rest' := by
  rcases same with same | ⟨c, cs, d, ds, rfl, rfl, like, dot, -⟩
  · rcases rest with _ | ⟨c, cs⟩ <;> rcases rest' with _ | ⟨d, ds⟩
    · rfl
    · simp at same
    · simp at same
    · simp only [List.take_succ_cons, List.map_cons, List.cons.injEq] at same
      rcases front_eq_iff same.1 with rfl | ⟨hc, hd, -⟩
      · have second : (cs.take 1 == ['.']) = (ds.take 1 == ['.']) := by
          have point : ∀ c, front c = '.' ↔ c = '.' := by
            intro c
            unfold front
            split <;> simp_all
          rcases cs with _ | ⟨a, cs⟩ <;> rcases ds with _ | ⟨b, ds⟩
          · rfl
          · simp at same
          · simp at same
          · have := same.2
            simp only [List.take_succ_cons, List.map_cons, List.cons.injEq] at this
            rw [Bool.eq_iff_iff]
            simp [← point a, ← point b, this.1]
        cases kind <;> simp [lengthens, numberGoesOn, second]
      · rw [lengthens_of_isNeutral hc, lengthens_of_isNeutral hd]
  · rcases front_eq_iff like with rfl | ⟨hc, hd, -⟩
    · have point : (c == '.') = false := by simpa using dot
      cases kind <;> simp [lengthens, numberGoesOn, point]
    · rw [lengthens_of_isNeutral hc, lengthens_of_isNeutral hd]

theorem eq_of_front_eq {c d : Char} (h : front c = front d) (space : isSpace c = true) :
    d = c := by
  rcases front_eq_iff h with rfl | ⟨-, -, solid⟩
  · rfl
  · simp [space] at solid

theorem EndsLine.congr {text rest rest' : Text} (h : EndsLine text rest)
    (same : SameFront rest rest') : EndsLine text rest' := by
  have breaks : ∀ {cs ds : Text}, (cs.take 1).map front = (ds.take 1).map front →
      (∀ c ∈ cs.head?, c = '\n') → ∀ d ∈ ds.head?, d = '\n' := by
    intro cs ds same h d mem
    rcases cs with _ | ⟨c, cs⟩ <;> rcases ds with _ | ⟨d', ds⟩ <;> simp at same mem
    obtain rfl : c = '\n' := h c rfl
    rw [← mem]
    exact eq_of_front_eq same rfl
  rcases same with same | ⟨c, cs, d, ds, rfl, rfl, like, -, back⟩
  · rcases h with ⟨h, kept⟩ | ⟨more, rfl, h⟩
    · refine .inl ⟨breaks ?_ h, kept⟩
      simpa [List.map_take, List.take_take] using congrArg (List.take 1) same
    · rcases rest' with _ | ⟨d, more'⟩
      · simp at same
      · simp only [List.take_succ_cons, List.map_cons, List.cons.injEq] at same
        rw [eq_of_front_eq same.1 rfl]
        exact .inr ⟨more', rfl, breaks same.2 h⟩
  · rcases h with ⟨h, kept⟩ | ⟨more, eq, -⟩
    · refine .inl ⟨fun d' mem => ?_, kept⟩
      obtain rfl : c = '\n' := h c rfl
      obtain rfl := Option.some.inj mem
      exact eq_of_front_eq like rfl
    · exact absurd (List.cons.inj eq).1 back

theorem Reads.congr {kind : Kind} {text rest rest' : Text} (h : Reads kind text rest)
    (same : SameFront rest rest') : Reads kind text rest' := by
  by_cases line : kind = .lineComment
  · subst line
    rw [reads_lineComment_iff] at h ⊢
    obtain ⟨body, rfl, whole, ends⟩ := h
    exact ⟨body, rfl, whole, ends.congr same⟩
  · rw [reads_iff line] at h ⊢
    rw [← lengthens_congr same]
    exact h

theorem lengthens_eq_of_head? {kind : Kind} (dot : kind ≠ .dot) (text : Text) {rest rest' : Text}
    (same : rest.head? = rest'.head?) : lengthens kind text rest = lengthens kind text rest' := by
  cases kind <;> simp_all [lengthens, numberGoesOn]

/-- What is read in front of a text is read in front of any beginning of it. -/
theorem Reads.truncate {kind : Kind} {text front more : Text} (h : Reads kind text (front ++ more))
    (some_left : front ≠ []) : Reads kind text front := by
  have head : front.head? = (front ++ more).head? := by
    cases front <;> simp_all
  by_cases line : kind = .lineComment
  · subst line
    rw [reads_lineComment_iff] at h ⊢
    obtain ⟨body, rfl, whole, ends⟩ := h
    refine ⟨body, rfl, whole, ?_⟩
    rcases ends with ⟨ends, kept⟩ | ⟨after, eq, ends⟩
    · exact .inl ⟨by rwa [head], kept⟩
    · rcases front with _ | ⟨c, front⟩
      · simp at some_left
      · obtain ⟨rfl, rfl⟩ := List.cons.inj eq
        exact .inr ⟨front, rfl, by cases front <;> simp_all⟩
  · rw [reads_iff line] at h ⊢
    refine ⟨h.1, ?_⟩
    by_cases dot : kind = .dot
    · subst dot
      have no := h.2
      rcases front with _ | ⟨c, _ | ⟨d, front⟩⟩ <;> simp_all [lengthens]
    · rw [lengthens_eq_of_head? dot text head]
      exact h.2

/-- A line break behind the text that follows a token changes nothing for the token. -/
theorem Reads.appendNewline {kind : Kind} {text rest : Text} (h : Reads kind text rest)
    (more : Text) : Reads kind text (rest ++ '\n' :: more) := by
  rcases rest with _ | ⟨c, rest⟩
  · exact h.beforeSpace rfl more fun _ => rfl
  · by_cases line : kind = .lineComment
    · subst line
      rw [reads_lineComment_iff] at h ⊢
      obtain ⟨body, rfl, whole, ends⟩ := h
      refine ⟨body, rfl, whole, ?_⟩
      rcases ends with ⟨ends, kept⟩ | ⟨after, eq, ends⟩
      · exact .inl ⟨by simpa using ends, kept⟩
      · obtain ⟨rfl, rfl⟩ := List.cons.inj eq
        exact .inr ⟨rest ++ '\n' :: more, rfl, by cases rest <;> simp_all⟩
    · rw [reads_iff line] at h ⊢
      refine ⟨h.1, ?_⟩
      by_cases dot : kind = .dot
      · subst dot
        have no := h.2
        rcases rest with _ | ⟨d, rest⟩ <;> simp_all [lengthens]
      · rw [lengthens_eq_of_head? dot text
          (show (c :: rest ++ '\n' :: more).head? = (c :: rest).head? from rfl)]
        exact h.2

/-! ### What the lexer reads -/

theorem lineCommentLength_le (rest : Text) : lineCommentLength rest ≤ rest.length := by
  have := (List.takeWhile_sublist (· != '\n') (l := rest)).length_le
  simp only [lineCommentLength]
  split <;> omega

theorem scan_length_le {c : Char} {s : Text} {kind : Kind} {n : Nat}
    (h : scan c s = .ok (kind, n)) : n ≤ s.length := by
  unfold scan at h
  split at h
  case h_1 =>
    obtain ⟨-, rfl⟩ : _ ∧ _ = n := by simpa using h
    exact lineCommentLength_le _
  case h_2 => exact (starredLength_take (s := '*' :: _) (required_eq_ok h).2).1
  case h_3 => exact (quotedLength_take (required_eq_ok h).2).1
  case h_4 => exact (rawStringLength_take (required_eq_ok h).2).1
  case h_5 => exact (quotedLength_take (required_eq_ok h).2).1
  case h_7 =>
    split at h
    · obtain ⟨-, rfl⟩ : _ ∧ _ = n := by simpa using h
      exact numberLength_le ..
    · obtain ⟨-, rfl⟩ : _ ∧ _ = n := by simpa using h
      exact Nat.zero_le _
  case h_19 =>
    split at h
    · obtain ⟨-, rfl⟩ : _ ∧ _ = n := by simpa using h
      exact numberLength_le ..
    · split at h
      · obtain ⟨-, rfl⟩ : _ ∧ _ = n := by simpa using h
        exact (List.takeWhile_sublist _).length_le
      · obtain ⟨-, rfl⟩ : _ ∧ _ = n := by simpa using h
        exact Nat.zero_le _
  all_goals
    obtain ⟨-, rfl⟩ : _ ∧ _ = n := by simpa using h
    simp

/-- The lexer cuts the text behind a token so that the token is read. -/
theorem reads_of_scan {c : Char} {s : Text} {kind : Kind} {n : Nat} (solid : isSpace c = false)
    (h : scan c s = .ok (kind, n)) : Reads kind (c :: s.take n) (s.drop n) := by
  refine ⟨c, s.take n, rfl, solid, ?_⟩
  rw [List.take_append_drop, List.length_take, Nat.min_eq_left (scan_length_le h), h]

end GoSplit.Token
