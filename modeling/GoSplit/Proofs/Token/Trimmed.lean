import GoSplit.Proofs.Text.Lines
import GoSplit.Proofs.Token.Alike
import GoSplit.Proofs.Token.Moved
import GoSplit.Proofs.Token.Quoted
import GoSplit.Proofs.Token.Quiet
import GoSplit.Proofs.Token.Spellings

/-!
Trimming the text of tokens. Only operators and line comments can end in white space, so
trimming the end of a text whose last token is no operator changes at most the line
comment it ends with.
-/

namespace GoSplit.Token

open List (Forall₂)

/-- The code points of white space. -/
def blankCodes : List Nat :=
  [9, 10, 11, 12, 13, 0x20, 0x85, 0xA0, 0x1680, 0x2000, 0x2001, 0x2002, 0x2003, 0x2004, 0x2005,
    0x2006, 0x2007, 0x2008, 0x2009, 0x200A, 0x2028, 0x2029, 0x202F, 0x205F, 0x3000]

theorem toNat_mem_blankCodes {c : Char} (h : Text.isBlank c = true) : c.toNat ∈ blankCodes := by
  simp only [Text.isBlank, Bool.or_eq_true, Bool.and_eq_true, decide_eq_true_eq, beq_iff_eq] at h
  simp only [blankCodes, List.mem_cons, List.not_mem_nil, or_false]
  omega

theorem forall_isBlank {p : Char → Prop} (h : ∀ n ∈ blankCodes, p (Char.ofNat n)) {c : Char}
    (blank : Text.isBlank c = true) : p c := by
  have := h c.toNat (toNat_mem_blankCodes blank)
  rwa [Char.ofNat_toNat] at this

theorem not_isNumberPart_of_isBlank {c : Char} (h : Text.isBlank c = true) :
    isNumberPart c = false ∧ c ≠ '+' ∧ c ≠ '-' :=
  forall_isBlank (p := fun c => isNumberPart c = false ∧ c ≠ '+' ∧ c ≠ '-') (by decide) h

theorem isNumberPart_of_isDigit {c : Char} (h : c.isDigit = true) : isNumberPart c = true := by
  simp [isNumberPart, Char.isAlphanum, h]

/-- A number consists of the characters it may consist of. -/
theorem numberLength_parts {hex : Bool} {s : Text} {c : Char}
    (h : c ∈ s.take (numberLength hex s)) :
    isNumberPart c = true ∨ c = '+' ∨ c = '-' := by
  fun_induction numberLength hex s with
  | case1 => simp at h
  | case2 d part => simp_all
  | case3 d part => simp at h
  | case4 d e rest part => simp at h
  | case5 d e rest part sign ih =>
    simp only [Bool.not_eq_true', Bool.and_eq_true, Bool.or_eq_true, beq_iff_eq] at part sign
    simp only [List.take_succ_cons, List.mem_cons] at h
    rcases h with rfl | rfl | h
    · exact .inl (by simpa using part)
    · exact .inr sign.2
    · exact ih h
  | case6 d e rest part _ ih =>
    simp only [Bool.not_eq_true'] at part
    rw [List.take_succ_cons, List.mem_cons] at h
    rcases h with rfl | h
    · exact .inl (by simpa using part)
    · exact ih h

theorem getLast?_take_blockCommentLength {s : Text} {n : Nat}
    (h : blockCommentLength s = some n) : (s.take n).getLast? = some '/' := by
  fun_induction blockCommentLength s generalizing n with
  | case1 => simp at h
  | case2 rest =>
    obtain rfl : n = 2 := by simpa using h.symm
    rfl
  | case3 c cs _ ih =>
    obtain ⟨m, found, rfl⟩ := Option.map_eq_some_iff.1 h
    rw [List.take_succ_cons, List.getLast?_cons, ih found]
    rfl

/-- The characters of a number are no white space. -/
theorem not_isBlank_number {c d : Char} {hex : Bool} {s : Text} (digit : isNumberPart c = true)
    (h : d ∈ c :: s.take (numberLength hex s)) : Text.isBlank d = false := by
  by_contra blank
  obtain ⟨part, plus, minus⟩ := not_isNumberPart_of_isBlank (by simpa using blank)
  rcases List.mem_cons.1 h with rfl | mem
  · simp [digit] at part
  · rcases numberLength_parts mem with yes | rfl | rfl
    · simp [yes] at part
    · exact plus rfl
    · exact minus rfl

/-- Only operators and line comments end in white space. -/
theorem scan_last_visible {c : Char} {s : Text} {kind : Kind} {n : Nat}
    (h : scan c s = .ok (kind, n)) (code : kind ≠ .op) (other : kind ≠ .lineComment) :
    ∀ d ∈ (c :: s.take n).getLast?, Text.isBlank d = false := by
  have ends : ∀ {d e : Char} {t : Text}, t.getLast? = some e → Text.isBlank e = false →
      ∀ d' ∈ (d :: t).getLast?, Text.isBlank d' = false := by
    intro d e t last visible d' mem
    rw [List.getLast?_cons, last] at mem
    obtain rfl : e = d' := by simpa using mem
    exact visible
  have one : ∀ {d : Char}, Text.isBlank d = false → n = 0 →
      ∀ d' ∈ (d :: s.take n).getLast?, Text.isBlank d' = false := by
    rintro d visible rfl d' mem
    obtain rfl : d = d' := by simpa using mem
    exact visible
  unfold scan at h
  split at h
  case h_1 =>
    simp only [Except.ok.injEq, Prod.mk.injEq] at h
    exact absurd h.1.symm other
  case h_2 body =>
    obtain ⟨m, found, rfl⟩ := Option.map_eq_some_iff.1 (required_eq_ok h).2
    have last : (('*' :: body).take (m + 1)).getLast? = some '/' := by
      rw [List.take_succ_cons, List.getLast?_cons, getLast?_take_blockCommentLength found]
      rfl
    exact ends last (by decide)
  case h_3 => exact ends (getLast?_take_quotedLength (required_eq_ok h).2) (by decide)
  case h_4 => exact ends (getLast?_take_rawStringLength (required_eq_ok h).2) (by decide)
  case h_5 => exact ends (getLast?_take_quotedLength (required_eq_ok h).2) (by decide)
  case h_6 =>
    simp only [Except.ok.injEq, Prod.mk.injEq] at h
    exact absurd h.1.symm code
  case h_7 =>
    split at h
    · simp only [Except.ok.injEq, Prod.mk.injEq] at h
      obtain ⟨-, rfl⟩ := h
      exact fun d mem => not_isBlank_number (by decide) (List.mem_of_getLast? mem)
    · simp only [Except.ok.injEq, Prod.mk.injEq] at h
      exact one (by decide) h.2.symm
  case h_17 rest =>
    simp only [Except.ok.injEq, Prod.mk.injEq] at h
    obtain ⟨-, rfl⟩ := h
    have last : (('+' :: rest).take 1).getLast? = some '+' := rfl
    exact ends last (by decide)
  case h_18 rest =>
    simp only [Except.ok.injEq, Prod.mk.injEq] at h
    obtain ⟨-, rfl⟩ := h
    have last : (('-' :: rest).take 1).getLast? = some '-' := rfl
    exact ends last (by decide)
  case h_19 =>
    split at h
    · next digit =>
      simp only [Except.ok.injEq, Prod.mk.injEq] at h
      obtain ⟨-, rfl⟩ := h
      exact fun d mem => not_isBlank_number (isNumberPart_of_isDigit digit)
        (List.mem_of_getLast? mem)
    · split at h
      · next start =>
        simp only [Except.ok.injEq, Prod.mk.injEq] at h
        obtain ⟨-, rfl⟩ := h
        intro d mem
        by_contra blank
        have part := Text.not_isNamePart_of_isBlank (by simpa using blank)
        rcases List.mem_cons.1 (List.mem_of_getLast? mem) with rfl | mem
        · simp [Text.isNamePart_of_isNameStart start] at part
        · have taken := List.prefix_iff_eq_take.1 (List.takeWhile_prefix Text.isNamePart (l := s))
          rw [identLength, ← taken] at mem
          have := List.all_eq_true.1 List.all_takeWhile d mem
          simp [part] at this
      · simp only [Except.ok.injEq, Prod.mk.injEq] at h
        exact absurd h.1.symm code
  all_goals
    simp only [Except.ok.injEq, Prod.mk.injEq] at h
    exact one (by decide) h.2.symm

/-- Trimming leaves every other token as it is, and of a line comment its beginning. -/
theorem Reads.trimEnd {kind : Kind} {text rest : Text} (h : Reads kind text rest)
    (code : kind ≠ .op) : Text.trimEnd text ≠ [] ∧ Reads kind (Text.trimEnd text) [] := by
  by_cases line : kind = .lineComment
  · subst line
    obtain ⟨body, rfl, whole, -⟩ := (reads_lineComment_iff text rest).1 h
    have slashes : ∃ body', Text.trimEnd ('/' :: '/' :: body) = '/' :: '/' :: body' ∧
        '\n' ∉ body' := by
      by_cases empty : Text.trimEnd body = []
      · obtain ⟨blank, eq, all⟩ := Text.exists_trimEnd_append body
        rw [empty, List.nil_append] at eq
        refine ⟨[], ?_, by simp⟩
        exact Text.trimEnd_append_blank (s := ['/', '/']) (eq ▸ all)
      · obtain ⟨blank, eq, all⟩ := Text.exists_trimEnd_append body
        refine ⟨Text.trimEnd body, ?_, fun mem => whole (by rw [eq]; simp [mem])⟩
        exact Text.trimEnd_append (s := ['/', '/']) empty
    obtain ⟨body', eq, whole'⟩ := slashes
    refine ⟨by simp [eq], ?_⟩
    rw [reads_lineComment_iff]
    refine ⟨body', eq, whole', .inl ⟨by simp, fun last => ?_⟩⟩
    have := Text.getLast?_trimEnd last
    exact absurd this (by decide)
  · have alone := ((reads_iff line text rest).1 h).1
    obtain ⟨c, body, rfl, solid, read⟩ := alone
    have visible := scan_last_visible read code line
    rw [List.append_nil, List.take_length] at visible
    obtain ⟨d, last⟩ : ∃ d, (c :: body).getLast? = some d := by simp [List.getLast?_cons]
    have same := Text.trimEnd_of_getLast? last (visible d last)
    rw [same]
    exact ⟨by simp, c, body, rfl, solid, read⟩

/-- Chained tokens, the text behind the last of which is trimmed. -/
theorem Chained.trimLast {ts : List Token} {last : Token} {after : Text}
    (h : Chained (ts ++ [last]) after) (code : last.kind ≠ .op) :
    Chained (ts ++ [{ last with text := Text.trimEnd last.text }]) [] := by
  obtain ⟨blank, eq, -⟩ := Text.exists_trimEnd_append last.text
  induction ts with
  | nil =>
    obtain ⟨blankGap, reads, -⟩ := h
    exact ⟨blankGap, by simpa using (reads.trimEnd code).2, trivial⟩
  | cons t ts ih =>
    obtain ⟨blankGap, reads, more⟩ := h
    refine ⟨blankGap, ?_, ih more⟩
    have trimmed := ((chained_append.1 more).2.2.1.trimEnd code).1
    have cut : written (ts ++ [last]) ++ after =
        (written (ts ++ [{ last with text := Text.trimEnd last.text }]) ++ []) ++
          (blank ++ after) := by
      simp only [written_append, written_cons, written_nil, List.append_nil, List.append_assoc]
      conv => lhs; rw [eq]
      simp
    have longer : Reads t.kind t.text (written (ts ++ [last]) ++ after) := reads
    rw [cut] at longer
    exact longer.truncate (by simp [trimmed])

/-! ### Copies of tokens -/

/-- Tokens that say the same as others, where other white space comes first. -/
inductive Copied : List Token → List Token → Prop
  | nil : Copied [] []
  | cons {t u : Token} {ts us : List Token} : t.kind = u.kind →
    (t.isComment = false → t.text = u.text) → Forall₂ Alike ts us → Copied (t :: ts) (u :: us)

theorem isComment_eq_of_kind {t u : Token} (h : t.kind = u.kind) : t.isComment = u.isComment := by
  rw [isComment, isComment, h]

theorem Same.alike_trans {t u v : Token} (h : Same t u) (like : Alike u v) : Alike t v := by
  obtain ⟨gap, shape⟩ := like
  have string : t.isString = u.isString := by rw [isString, isString, h.kind]
  refine ⟨by rw [h.gap, gap], ?_⟩
  rwa [h.kind, h.text, string, isComment_eq_of_kind h.kind]

theorem alike_of_same {ts us vs : List Token} (h : Forall₂ Same ts us)
    (like : Forall₂ Alike us vs) : Forall₂ Alike ts vs := by
  induction h generalizing vs with
  | nil => exact like
  | cons same _ ih =>
    cases like with
    | cons like more => exact .cons (same.alike_trans like) (ih more)

theorem Copied.of_moved {ts us vs : List Token} (moved : Moved ts us) (h : Copied us vs) :
    Copied ts vs := by
  cases h with
  | nil =>
    cases moved
    exact .nil
  | cons kind text more =>
    cases moved with
    | cons kind' text' same =>
      refine .cons (kind'.trans kind) (fun code => ?_) (alike_of_same same more)
      rw [text', text (by rwa [← isComment_eq_of_kind kind'])]

/-- Cuts in front of a token. -/
theorem Copied.exists_cons {ts before after : List Token} {u : Token}
    (h : Copied ts (before ++ u :: after)) :
    ∃ before' t after', ts = before' ++ t :: after' ∧
      Forall₂ (fun t u => t.isSeparator = u.isSeparator ∧ t.isComment = u.isComment)
        before' before ∧
      (∀ w, t.isWord w = u.isWord w) ∧ Forall₂ Alike after' after := by
  have separator : ∀ {t u : Token}, t.kind = u.kind → t.isSeparator = u.isSeparator := by
    intro t u kind
    rw [isSeparator, isSeparator, isComment_eq_of_kind kind, kind]
  cases before with
  | nil =>
    cases h with
    | @cons t _ ts _ kind text more =>
      refine ⟨[], t, ts, rfl, .nil, fun w => ?_, more⟩
      rw [isWord, isWord, kind]
      by_cases ident : u.kind = .ident
      · rw [text (by simp [isComment, kind, ident])]
      · rw [beq_eq_false_iff_ne.2 ident, Bool.false_and, Bool.false_and]
  | cons v before =>
    cases h with
    | @cons t _ ts _ kind text more =>
      have left := List.forall₂_take_append _ _ _ more
      have right := List.forall₂_drop_append _ _ _ more
      obtain ⟨t', after', like, rest, eq⟩ := List.forall₂_cons_right_iff.1 right
      refine ⟨t :: ts.take before.length, t', after', ?_, ?_, like.isWord_eq, rest⟩
      · rw [List.cons_append, ← eq, List.take_append_drop]
      · exact .cons ⟨separator kind, isComment_eq_of_kind kind⟩
          (left.imp fun _ _ like => ⟨like.isSeparator_eq, like.isComment_eq⟩)

/-- The tokens without the white space in front of them. -/
def dropGap : List Token → List Token
  | [] => []
  | t :: ts => { t with gap := [] } :: ts

theorem written_dropGap (ts : List Token) : written (dropGap ts) = spell ts := by
  cases ts with
  | nil => rfl
  | cons t ts => rfl

theorem spell_dropGap (ts : List Token) : spell (dropGap ts) = spell ts := by
  cases ts with
  | nil => rfl
  | cons t ts => rfl

theorem Chained.dropGap {ts : List Token} {after : Text} (h : Chained ts after) :
    Chained (Token.dropGap ts) after := by
  cases ts with
  | nil => trivial
  | cons t ts => exact ⟨blank_nil, h.2⟩

theorem alike_trimEnd {t : Token} {rest : Text} (reads : Reads t.kind t.text rest)
    (code : t.kind ≠ .op) :
    Alike { t with text := Text.trimEnd t.text } t ∧
      (t.isComment = false → Text.trimEnd t.text = t.text) := by
  by_cases line : t.kind = .lineComment
  · have none_broken : ∀ {text rest : Text}, Reads .lineComment text rest → text.newlines = 0 := by
      intro text rest reads
      obtain ⟨body, rfl, whole, -⟩ := (reads_lineComment_iff _ _).1 reads
      simpa [Text.newlines, List.count_eq_zero] using whole
    have trimmed := (reads.trimEnd code).2
    rw [line] at reads trimmed
    have comment : t.isComment = true := by simp [isComment, line]
    refine ⟨⟨rfl, .inr (.inr ⟨?_, rfl, ?_⟩)⟩, by simp [comment]⟩
    · simp [isComment, line]
    · rw [none_broken reads]
      exact none_broken trimmed
  · obtain ⟨c, body, eq, solid, read⟩ := ((reads_iff line t.text rest).1 reads).1
    have visible := scan_last_visible read code line
    rw [List.append_nil, List.take_length, ← eq] at visible
    obtain ⟨d, last⟩ : ∃ d, t.text.getLast? = some d := by simp [eq, List.getLast?_cons]
    have same := Text.trimEnd_of_getLast? last (visible d last)
    rw [same]
    exact ⟨⟨rfl, .inl ⟨rfl, rfl⟩⟩, fun _ => rfl⟩

/-- Trimming the last token trims the text. -/
theorem spell_trimLast {init : List Token} {last : Token} (filled : Text.trimEnd last.text ≠ []) :
    spell (init ++ [{ last with text := Text.trimEnd last.text }]) =
      Text.trimEnd (spell (init ++ [last])) := by
  cases init with
  | nil => simp [spell]
  | cons t init =>
    simp only [List.cons_append, spell, List.flatMap_append, List.flatMap_singleton,
      ← List.append_assoc]
    rw [Text.trimEnd_append filled]

/-- The text of tokens, trimmed at its end, holds copies of them. -/
theorem Chained.exists_copied {ts : List Token} {after : Text} (h : Chained ts after)
    (code : ∀ t ∈ ts.getLast?, t.kind ≠ .op) :
    ∃ us, Copied us ts ∧ Covers us (Text.trimEnd (spell ts)) ∧
      spell us = Text.trimEnd (spell ts) := by
  rcases List.eq_nil_or_concat ts with rfl | ⟨init, last, rfl⟩
  · exact ⟨[], .nil, covers_nil blank_nil, rfl⟩
  · rw [List.concat_eq_append] at h code ⊢
    have op : last.kind ≠ .op := code last (by simp)
    have trimmed := h.trimLast op
    have reads := (chained_append.1 h).2.2.1
    obtain ⟨like, text⟩ := alike_trimEnd reads op
    have spelled := @spell_trimLast init last (reads.trimEnd op).1
    generalize eq : ({ last with text := Text.trimEnd last.text } : Token) =
      last' at trimmed like spelled
    refine ⟨Token.dropGap (init ++ [last']), ?_, ⟨[], ?_, trimmed.dropGap, blank_nil⟩, ?_⟩
    · cases init with
      | nil =>
        subst eq
        exact .cons rfl text .nil
      | cons t init =>
        exact .cons rfl (fun _ => rfl) (List.rel_append (List.forall₂_refl _) (.cons like .nil))
    · rw [List.append_nil, written_dropGap, spelled]
    · rw [spell_dropGap, spelled]

end GoSplit.Token
