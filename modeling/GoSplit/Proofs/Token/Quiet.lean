import GoSplit.Draft
import GoSplit.Proofs.Text.Lines
import GoSplit.Proofs.Token.Alike
import GoSplit.Proofs.Token.Chained

/-!
Texts made of comments and white space. A small automaton reads such a text; the main
statements are that it accepts exactly what the lexer turns into comments, and that
trimming the lines of such a text, or indenting them, gives such a text again.
-/

namespace GoSplit.Token

/-- Where in a text of comments a character stands. -/
inductive CommentMode where
  | outside
  /-- Behind a slash that starts a comment. -/
  | slash
  | line
  | block
  /-- In a block comment, behind a star. -/
  | star
  /-- Something else than a comment came up. -/
  | broken
  deriving DecidableEq, Repr

namespace CommentMode

def step : CommentMode → Char → CommentMode
  | .outside, c => if c = '/' then .slash else if isSpace c then .outside else .broken
  | .slash, c => if c = '/' then .line else if c = '*' then .block else .broken
  | .line, c => if c = '\n' then .outside else .line
  | .block, c => if c = '*' then .star else .block
  | .star, c => if c = '/' then .outside else if c = '*' then .star else .block
  | .broken, _ => .broken

def run (mode : CommentMode) (s : Text) : CommentMode := s.foldl step mode

@[simp] theorem run_nil (mode : CommentMode) : run mode [] = mode := rfl

@[simp] theorem run_cons (mode : CommentMode) (c : Char) (s : Text) :
    run mode (c :: s) = run (mode.step c) s := rfl

theorem run_append (mode : CommentMode) (s t : Text) :
    run mode (s ++ t) = run (run mode s) t := by
  simp [run, List.foldl_append]

@[simp] theorem run_broken (s : Text) : run .broken s = .broken := by
  induction s with
  | nil => rfl
  | cons c s ih => exact ih

theorem run_blank {s : Text} (h : Blank s) : run .outside s = .outside := by
  induction s with
  | nil => rfl
  | cons c s ih =>
    have space := h c (by simp)
    have solid : c ≠ '/' := by
      rintro rfl
      simp [isSpace] at space
    rw [run_cons, step, if_neg solid, if_pos space]
    exact ih fun d mem => h d (by simp [mem])

theorem run_line {s : Text} (h : '\n' ∉ s) : run .line s = .line := by
  induction s with
  | nil => rfl
  | cons c s ih =>
    simp only [List.mem_cons, not_or] at h
    rw [run_cons, step, if_neg (Ne.symm h.1)]
    exact ih h.2

/-- A block comment ends where the lexer finds its end. -/
theorem run_block (s : Text) :
    match blockCommentLength s with
    | some n => run .block s = run .outside (s.drop n)
    | none => run .block s = .block ∨ run .block s = .star := by
  fun_induction blockCommentLength s with
  | case1 => exact .inl rfl
  | case2 rest => rfl
  | case3 c cs other ih =>
    -- A star that no slash follows is as good as any other character.
    have same : run .block (c :: cs) = run .block cs ∨ cs = [] ∧ c = '*' := by
      by_cases star : c = '*'
      · subst star
        cases cs with
        | nil => exact .inr ⟨rfl, rfl⟩
        | cons d ds =>
          have solid : d ≠ '/' := by
            rintro rfl
            exact other _ rfl rfl
          left
          simp only [run_cons, step, if_true, if_neg solid]
      · left
        simp only [run_cons, step, if_neg star]
    rcases same with same | ⟨rfl, rfl⟩
    · rw [same]
      cases length : blockCommentLength cs with
      | none => simpa [length] using ih
      | some n => simpa [length] using ih
    · exact .inr rfl

end CommentMode

open CommentMode

/-- Comments and white space only. -/
def Quiet (s : Text) : Prop := run .outside s = .outside ∨ run .outside s = .line

theorem quiet_nil : Quiet [] := .inl rfl

/-! ### Quiet texts are those that hold comments only -/

theorem exists_line_split (s : Text) :
    ∃ line after, s = line ++ after ∧ '\n' ∉ line ∧ ∀ c ∈ after.head?, c = '\n' := by
  refine ⟨s.takeWhile (· != '\n'), s.dropWhile (· != '\n'), ?_, ?_, ?_⟩
  · exact (List.takeWhile_append_dropWhile ..).symm
  · intro mem
    have := List.all_eq_true.1 List.all_takeWhile _ mem
    simp at this
  · intro c mem
    have := List.head?_dropWhile_not (· != '\n') s
    rw [Option.mem_def.1 mem] at this
    simpa using this

theorem run_line_blank {gap : Text} (blank : Blank gap) (breaks : '\n' ∈ gap) :
    run .line gap = .outside := by
  obtain ⟨line, after, rfl, whole, ends⟩ := exists_line_split gap
  rcases after with _ | ⟨c, after⟩
  · exact absurd (by simpa using breaks) whole
  · obtain rfl := ends c rfl
    have rest : Blank after := fun d mem => blank d (by simp [mem])
    rw [run_append, run_line whole, run_cons, step, if_pos rfl, run_blank rest]

/-- A line comment takes its line, or leaves a carriage return of it. -/
theorem drop_lineCommentLength {line after : Text} (whole : '\n' ∉ line)
    (ends : ∀ c ∈ after.head?, c = '\n') :
    ∃ kept, (line ++ after).drop (lineCommentLength ('/' :: (line ++ after)) - 1) = kept ++ after ∧
      Blank kept ∧ 1 ≤ lineCommentLength ('/' :: (line ++ after)) := by
  have taken : ('/' :: (line ++ after)).takeWhile (· != '\n') = '/' :: line := by
    rw [List.takeWhile_cons, if_pos (by decide), takeWhile_newline_append whole,
      (takeWhile_newline_eq_nil_iff after).2 ends, List.append_nil]
  simp only [lineCommentLength, taken]
  rcases List.eq_nil_or_concat line with rfl | ⟨init, last, rfl⟩
  · exact ⟨[], by simp, blank_nil, by simp⟩
  · by_cases back : last = '\r'
    · subst back
      refine ⟨['\r'], ?_, by simp [Blank, isSpace], ?_⟩
      · simp [List.getLast?_cons]
      · simp [List.getLast?_cons]
    · refine ⟨[], ?_, blank_nil, ?_⟩
      · simp [List.getLast?_cons, List.drop_append, back]
      · simp [List.getLast?_cons, back]

/-- A token in front of a text that is covered already. -/
theorem Covers.cons {ts : List Token} {c : Char} {rest : Text} {kind : Kind} {n : Nat}
    (solid : isSpace c = false) (read : scan c rest = .ok (kind, n))
    (h : Covers ts (rest.drop n)) : Covers (⟨kind, [], c :: rest.take n, 0⟩ :: ts) (c :: rest) := by
  obtain ⟨tail, eq, chained, blank⟩ := h
  refine ⟨tail, ?_, ⟨blank_nil, eq ▸ reads_of_scan solid read, chained⟩, blank⟩
  rw [written_cons, List.nil_append, List.append_assoc, ← eq, List.cons_append,
    List.take_append_drop]

/-- Behind its first comment a quiet text is quiet again. -/
theorem exists_scan_of_quiet {s : Text} (h : Quiet ('/' :: s)) :
    ∃ kind n, scan '/' s = .ok (kind, n) ∧ (kind = .lineComment ∨ kind = .blockComment) ∧
      Quiet (s.drop n) := by
  rcases s with _ | ⟨d, s⟩
  · rcases h with h | h <;> simp [step] at h
  by_cases line : d = '/'
  · subst line
    obtain ⟨line, after, rfl, whole, ends⟩ := exists_line_split s
    obtain ⟨kept, cut, blank, pos⟩ := drop_lineCommentLength whole ends
    refine ⟨.lineComment, lineCommentLength ('/' :: (line ++ after)), by simp [scan], .inl rfl, ?_⟩
    have left : List.drop (lineCommentLength ('/' :: (line ++ after)))
        ('/' :: (line ++ after)) = kept ++ after := by
      obtain ⟨m, eq⟩ := Nat.exists_eq_add_of_le' pos
      rw [eq] at cut ⊢
      simpa using cut
    have inside : run .outside ('/' :: '/' :: (line ++ after)) = run .line after := by
      rw [run_cons, run_cons, run_append]
      simp only [step, if_true]
      rw [run_line whole]
    unfold Quiet at h ⊢
    rw [inside] at h
    rw [left, run_append, run_blank blank]
    cases after with
    | nil => exact .inl rfl
    | cons e after =>
      obtain rfl := ends e rfl
      simpa [step, isSpace] using h
  by_cases block : d = '*'
  · subst block
    have ended := run_block s
    have inside : run .outside ('/' :: '*' :: s) = run .block s := by simp [step]
    unfold Quiet at h
    rw [inside] at h
    cases length : blockCommentLength s with
    | none =>
      simp only [length] at ended
      rcases ended with e | e <;> simp [e] at h
    | some n =>
      simp only [length] at ended
      rw [ended] at h
      exact ⟨.blockComment, n + 1, by simp [scan, length, required], .inr rfl, h⟩
  · rcases h with h | h <;> simp [step, line, block] at h

/-- The lexer finds comments in a quiet text and nothing else. -/
theorem exists_covers_of_quiet {s : Text} (h : Quiet s) :
    ∃ cs, Covers cs s ∧ ∀ c ∈ cs, c.isComment = true := by
  induction length : s.length using Nat.strongRecOn generalizing s with
  | _ size ih =>
    rcases s with _ | ⟨c, s⟩
    · exact ⟨[], covers_nil blank_nil, by simp⟩
    by_cases slash : c = '/'
    · subst slash
      obtain ⟨kind, n, read, comment, quiet⟩ := exists_scan_of_quiet h
      have shorter : (s.drop n).length < size := by
        simp only [List.length_drop, ← length, List.length_cons]
        omega
      obtain ⟨cs, covers, comments⟩ := ih _ shorter quiet rfl
      refine ⟨_, covers.cons (by decide) read, ?_⟩
      rcases comment with rfl | rfl <;> simpa [isComment] using comments
    · by_cases space : isSpace c = true
      · have quiet : Quiet s := by
          simpa [Quiet, step, slash, space] using h
        obtain ⟨cs, covers, comments⟩ := ih s.length (by simp [← length]) quiet rfl
        refine ⟨pushGap [c] cs, covers.prepend (by simpa [Blank] using space), ?_⟩
        cases cs with
        | nil => simp [pushGap]
        | cons t ts => simpa [pushGap, isComment] using comments
      · rcases h with h | h <;> simp [step, slash, space] at h

theorem scan_eq_blockComment {c : Char} {s : Text} {n : Nat}
    (h : scan c s = .ok (.blockComment, n)) :
    c = '/' ∧ ∃ more m, s = '*' :: more ∧ blockCommentLength more = some m ∧ n = m + 1 := by
  unfold scan at h
  split at h
  case h_2 more =>
    obtain ⟨m, length, eq⟩ := Option.map_eq_some_iff.1 (required_eq_ok h).2
    exact ⟨rfl, more, m, rfl, length, eq.symm⟩
  case h_19 =>
    split at h
    · simp at h
    · split at h <;> simp at h
  case h_7 => split at h <;> simp at h
  all_goals
    first
    | exact absurd (required_eq_ok h).1 (by simp)
    | simp at h

/-- How a comment leaves the automaton. -/
theorem run_comment {kind : Kind} {text rest : Text} (h : Reads kind text rest) :
    (kind = .lineComment → run .outside text = .line) ∧
      (kind = .blockComment → run .outside text = .outside) := by
  constructor
  · rintro rfl
    obtain ⟨body, rfl, whole, -⟩ := (reads_lineComment_iff text rest).1 h
    simpa [step] using run_line whole
  · rintro rfl
    obtain ⟨c, body, rfl, -, read⟩ := ((reads_iff (by simp) text rest).1 h).1
    obtain ⟨rfl, more, m, eq, length, size⟩ := scan_eq_blockComment read
    rw [List.append_nil] at eq
    subst eq
    have ended := run_block more
    simp only [length] at ended
    have all : m = more.length := by simpa using size.symm
    simpa [step, all] using ended

/-- The lexer leaves a line comment with the line. -/
theorem newline_mem_gap {t u : Token} {ts : List Token} {after : Text}
    (line : t.kind = .lineComment) (h : Chained (t :: u :: ts) after) : '\n' ∈ u.gap := by
  obtain ⟨-, reads, -, ⟨c, body, text, solid, -⟩, -⟩ := h
  rw [line] at reads
  obtain ⟨-, -, -, ends⟩ := (reads_lineComment_iff _ _).1 reads
  have visible : c ≠ '\n' ∧ c ≠ '\r' := by
    constructor <;> rintro rfl <;> simp [isSpace] at solid
  rw [written_cons, text] at ends
  rcases ends with ⟨ends, -⟩ | ⟨more, eq, ends⟩
  · rcases gap : u.gap with _ | ⟨g, gs⟩
    · simp [gap, visible] at ends
    · simp [gap] at ends
      simp [ends]
  · rcases gap : u.gap with _ | ⟨g, _ | ⟨g', gs⟩⟩
    · simp [gap, visible] at eq
    · simp [gap] at eq
      simp [← eq.2, visible] at ends
    · simp [gap] at eq
      simp [← eq.2] at ends
      simp [ends]

/-- Text that the lexer turns into comments is quiet. -/
theorem Chained.quiet {cs : List Token} {after : Text} (h : Chained cs after)
    (comments : ∀ c ∈ cs, c.isComment = true) : Quiet (written cs) := by
  -- A line comment is left with the gap of the next comment.
  have go : ∀ mode, mode = .outside ∨ mode = .line ∧ (∀ t ∈ cs.head?, '\n' ∈ t.gap) →
      run mode (written cs) = .outside ∨ run mode (written cs) = .line := by
    induction cs with
    | nil =>
      rintro mode (rfl | ⟨rfl, -⟩)
      · exact .inl rfl
      · exact .inr rfl
    | cons t ts ih =>
      intro mode start
      have blank := h.1
      have gap : run mode t.gap = .outside := by
        rcases start with rfl | ⟨rfl, breaks⟩
        · exact run_blank blank
        · exact run_line_blank blank (breaks t rfl)
      have leaves := run_comment h.2.1
      have later := ih h.2.2 fun c mem => comments c (by simp [mem])
      rw [written_cons, run_append, run_append, gap]
      rcases isComment_iff.1 (comments t (by simp)) with kind | kind
      · rw [leaves.1 kind]
        refine later _ (.inr ⟨rfl, ?_⟩)
        intro u mem
        cases ts with
        | nil => simp at mem
        | cons v ts =>
          obtain rfl : v = u := by simpa using mem
          exact newline_mem_gap kind h
      · rw [leaves.2 kind]
        exact later _ (.inl rfl)
  exact go .outside (.inl rfl)

/-- So are comments without the white space in front of them. -/
theorem Chained.quiet_spell {cs : List Token} {after : Text} (h : Chained cs after)
    (comments : ∀ c ∈ cs, c.isComment = true) : Quiet (spell cs) := by
  cases cs with
  | nil => exact quiet_nil
  | cons c cs =>
    have whole := h.quiet comments
    rw [Quiet, written_cons, List.append_assoc, run_append, run_blank h.1] at whole
    exact whole

/-! ### Laying out quiet texts -/

theorem Quiet.run_newline {s : Text} (h : Quiet s) : run .outside (s ++ ['\n']) = .outside := by
  rw [run_append]
  rcases h with h | h <;> rw [h] <;> rfl

theorem quiet_of_run_newline {s : Text} (h : run .outside (s ++ ['\n']) = .outside) : Quiet s := by
  rw [run_append, run_cons, run_nil] at h
  unfold Quiet
  generalize run .outside s = mode at h ⊢
  cases mode <;> simp_all [step]

theorem Quiet.appendLine {s t : Text} (hs : Quiet s) (ht : Quiet t) : Quiet (s ++ '\n' :: t) := by
  have cut : s ++ '\n' :: t = (s ++ ['\n']) ++ t := by simp
  rw [Quiet, cut, run_append, hs.run_newline]
  exact ht

theorem quiet_joinWith {ts : List Text} (h : ∀ t ∈ ts, Quiet t) :
    Quiet (Text.joinWith ['\n'] ts) := by
  induction ts with
  | nil => exact quiet_nil
  | cons t ts ih =>
    have first := h t (by simp)
    have rest := ih fun t mem => h t (by simp [mem])
    cases ts with
    | nil => exact first
    | cons u ts =>
      rw [Text.joinWith_cons (by simp), List.append_assoc]
      exact first.appendLine rest

theorem solid_of_isBlank {c : Char} (h : Text.isBlank c = true) : c ≠ '/' ∧ c ≠ '*' := by
  constructor <;> rintro rfl <;> exact absurd h (by decide)

theorem run_block_blank {s : Text} (blank : ∀ c ∈ s, Text.isBlank c = true) :
    run .block s = .block := by
  induction s with
  | nil => rfl
  | cons c s ih =>
    have star := (solid_of_isBlank (blank c (by simp))).2
    rw [run_cons, step, if_neg star]
    exact ih fun c mem => blank c (by simp [mem])

theorem Quiet.trimEnd {s : Text} (h : Quiet s) : Quiet (Text.trimEnd s) := by
  obtain ⟨b, eq, blank⟩ := Text.exists_trimEnd_append s
  rw [Quiet, eq, run_append] at h
  cases mode : run .outside (Text.trimEnd s) with
  | outside => exact .inl mode
  | line => exact .inr mode
  | block => simp [mode, run_block_blank blank] at h
  | broken => simp [mode] at h
  | slash =>
    rw [mode] at h
    cases b with
    | nil => simp at h
    | cons c b =>
      obtain ⟨slash, star⟩ := solid_of_isBlank (blank c (by simp))
      simp [step, slash, star] at h
  | star =>
    rw [mode] at h
    cases b with
    | nil => simp at h
    | cons c b =>
      obtain ⟨slash, star⟩ := solid_of_isBlank (blank c (by simp))
      rw [run_cons, step, if_neg slash, if_neg star,
        run_block_blank fun c mem => blank c (by simp [mem])] at h
      simp at h

/-- White space behind a line is of no account to the next line. -/
theorem step_run_blank {s : Text} (blank : ∀ c ∈ s, Text.isBlank c = true) (whole : '\n' ∉ s)
    (mode : CommentMode) :
    run mode s = .broken ∨ (run mode s).step '\n' = mode.step '\n' := by
  induction s generalizing mode with
  | nil => exact .inr rfl
  | cons c s ih =>
    obtain ⟨slash, star⟩ := solid_of_isBlank (blank c (by simp))
    simp only [List.mem_cons, not_or] at whole
    have one : mode.step c = .broken ∨ (mode.step c).step '\n' = mode.step '\n' := by
      cases mode with
      | outside =>
        by_cases space : isSpace c = true
        · exact .inr (by simp [step, slash, space])
        · exact .inl (by simp [step, slash, space])
      | slash => exact .inl (by simp [step, slash, star])
      | line => exact .inr (by simp [step, Ne.symm whole.1])
      | block => exact .inr (by simp [step, star])
      | star => exact .inr (by simp [step, slash, star])
      | broken => exact .inl rfl
    rcases one with one | one
    · left
      rw [run_cons, one, run_broken]
    · rw [run_cons, ← one]
      exact ih (fun c mem => blank c (by simp [mem])) whole.2 _

/-- White space in front of a line is of no account. -/
theorem run_blank_of_lineStart {s : Text} (blank : ∀ c ∈ s, Text.isBlank c = true)
    {mode : CommentMode} (start : mode = .outside ∨ mode = .block) :
    run mode s = .broken ∨ run mode s = mode := by
  induction s with
  | nil => exact .inr rfl
  | cons c s ih =>
    obtain ⟨slash, star⟩ := solid_of_isBlank (blank c (by simp))
    have rest := ih fun c mem => blank c (by simp [mem])
    rcases start with rfl | rfl
    · by_cases space : isSpace c = true
      · simpa [step, slash, space] using rest
      · simp [step, slash, space]
    · simpa [step, star] using rest

theorem run_tabs {indent : Text} (tabs : ∀ c ∈ indent, c = '\t') {mode : CommentMode}
    (start : mode = .outside ∨ mode = .block) : run mode indent = mode := by
  induction indent with
  | nil => rfl
  | cons c cs ih =>
    obtain rfl := tabs c (by simp)
    have rest := ih fun c mem => tabs c (by simp [mem])
    rcases start with rfl | rfl <;> exact rest

/-- A line keeps its effect when it is trimmed and indented. -/
theorem run_trim_line {line indent : Text} (whole : '\n' ∉ line) (tabs : ∀ c ∈ indent, c = '\t')
    {mode : CommentMode} (start : mode = .outside ∨ mode = .block)
    (sound : run mode (line ++ ['\n']) ≠ .broken) :
    run mode (indent ++ Text.trim line ++ ['\n']) = run mode (line ++ ['\n']) := by
  obtain ⟨a, b, eq, blankA, blankB⟩ := Text.exists_trim_append line
  have wholeB : '\n' ∉ b := fun mem => whole (by rw [eq]; simp [mem])
  have parts : run mode (line ++ ['\n']) =
      (run (run (run mode a) (Text.trim line)) b).step '\n' := by
    conv => lhs; rw [eq]
    simp only [run_append, run_cons, run_nil]
  rw [parts] at sound ⊢
  rw [run_append, run_append, run_tabs tabs start, run_cons, run_nil]
  rcases run_blank_of_lineStart blankA start with gone | same
  · simp [gone, step] at sound
  · rw [same] at sound ⊢
    rcases step_run_blank blankB wholeB (run mode (Text.trim line)) with gone | kept
    · simp [gone, step] at sound
    · exact kept.symm

theorem run_newline (mode : CommentMode) (s : Text) :
    run mode (s ++ ['\n']) = .outside ∨ run mode (s ++ ['\n']) = .block ∨
      run mode (s ++ ['\n']) = .broken := by
  rw [run_append, run_cons, run_nil]
  cases run mode s <;> simp [step, isSpace]

/-- So do all lines of a text. -/
theorem run_lines {indent : Text} (tabs : ∀ c ∈ indent, c = '\t') (pieces : List Text)
    (whole : ∀ piece ∈ pieces, '\n' ∉ piece) {mode : CommentMode}
    (start : mode = .outside ∨ mode = .block)
    (sound : run mode (Text.joinWith ['\n'] pieces ++ ['\n']) ≠ .broken) (some : pieces ≠ []) :
    run mode (pieces.flatMap fun line => indent ++ Text.trim line ++ ['\n']) =
      run mode (Text.joinWith ['\n'] pieces ++ ['\n']) := by
  induction pieces generalizing mode with
  | nil => exact absurd rfl some
  | cons piece others ih =>
    have first := whole piece (by simp)
    cases others with
    | nil =>
      rw [Text.joinWith] at sound ⊢
      rw [List.flatMap_singleton]
      exact run_trim_line first tabs start sound
    | cons next others =>
      have cut : Text.joinWith ['\n'] (piece :: next :: others) ++ ['\n'] =
          (piece ++ ['\n']) ++ (Text.joinWith ['\n'] (next :: others) ++ ['\n']) := by
        rw [Text.joinWith_cons (by simp)]
        simp
      rw [cut, run_append] at sound ⊢
      have sound' : run mode (piece ++ ['\n']) ≠ .broken := by
        intro gone
        simp [gone] at sound
      have start' : run mode (piece ++ ['\n']) = .outside ∨
          run mode (piece ++ ['\n']) = .block := by
        rcases run_newline mode piece with e | e | e
        · exact .inl e
        · exact .inr e
        · exact absurd e sound'
      rw [List.flatMap_cons, run_append, run_trim_line first tabs start sound']
      exact ih (fun piece mem => whole piece (by simp [mem])) start' sound (by simp)

/-- An empty line at the end makes no difference. -/
theorem run_closeLines {indent : Text} (tabs : ∀ c ∈ indent, c = '\t') (pieces : List Text)
    (whole : ∀ piece ∈ pieces, '\n' ∉ piece) {mode : CommentMode}
    (start : mode = .outside ∨ mode = .block)
    (sound : run mode (Text.joinWith ['\n'] pieces ++ ['\n']) ≠ .broken) (some : pieces ≠ []) :
    run mode ((Text.closeLines pieces).flatMap fun line => indent ++ Text.trim line ++ ['\n']) =
      run mode (Text.joinWith ['\n'] pieces ++ ['\n']) := by
  have all := run_lines tabs pieces whole start sound some
  rw [← all] at sound ⊢
  obtain rfl | ⟨init, last, rfl⟩ := List.eq_nil_or_concat pieces
  · exact absurd rfl some
  · rw [List.concat_eq_append] at sound ⊢
    rw [Text.closeLines_concat, List.flatMap_append, List.flatMap_map, List.flatMap_append]
    simp only [Text.trim_dropReturn]
    split
    · next empty =>
      -- Where a line starts, a line of white space leaves everything as it is.
      have lineStart : run mode (init.flatMap fun line => indent ++ Text.trim line ++ ['\n']) =
          .outside ∨ run mode (init.flatMap fun line => indent ++ Text.trim line ++ ['\n']) =
            .block := by
        obtain rfl | ⟨before, line, rfl⟩ := List.eq_nil_or_concat init
        · exact start
        · rw [List.concat_eq_append, List.flatMap_append, List.flatMap_singleton,
            ← List.append_assoc]
          rcases run_newline mode
            ((before.flatMap fun line => indent ++ Text.trim line ++ ['\n']) ++
              (indent ++ Text.trim line)) with e | e | e
          · exact .inl e
          · exact .inr e
          · refine absurd ?_ sound
            rw [List.concat_eq_append, List.flatMap_append, List.flatMap_append,
              List.flatMap_singleton, run_append, ← List.append_assoc, e, run_broken]
      rw [List.isEmpty_iff.1 empty, List.flatMap_nil, List.append_nil, List.flatMap_singleton,
        run_append]
      generalize run mode _ = mode' at lineStart ⊢
      rw [run_append, run_append, run_tabs tabs lineStart]
      rcases lineStart with rfl | rfl <;> rfl
    · rfl

/-- The comments above an import stay comments when they are laid out anew. -/
theorem run_docLines {indent : Text} (tabs : ∀ c ∈ indent, c = '\t') {doc : Option Text}
    (h : ∀ d ∈ doc, Quiet d) : run .outside (Draft.docLines indent doc) = .outside := by
  cases doc with
  | none => rfl
  | some d =>
    have whole := (h d rfl).run_newline
    have start : CommentMode.outside = .outside ∨ CommentMode.outside = .block := .inl rfl
    have lines := run_closeLines tabs (Text.pieces '\n' d) (Text.sep_not_mem_pieces '\n' d) start
    rw [Text.joinWith_pieces, whole] at lines
    exact lines (by simp) (Text.pieces_ne_nil '\n' d)

theorem docLines_cases (indent : Text) (doc : Option Text) :
    Draft.docLines indent doc = [] ∨ ∃ s, Draft.docLines indent doc = s ++ ['\n'] := by
  cases doc with
  | none => exact .inl rfl
  | some d =>
    rcases List.eq_nil_or_concat (Text.lines d) with none | ⟨before, last, eq⟩
    · left
      simp [Draft.docLines, none]
    · right
      refine ⟨(before.flatMap fun line => indent ++ Text.trim line ++ ['\n']) ++
        (indent ++ Text.trim last), ?_⟩
      simp [Draft.docLines, eq]

/-- Comments on lines of their own come first in a text they are written above. -/
theorem Covers.below {us : List Token} {s t : Text} (h : Covers us t)
    (outside : run .outside s = .outside) (lines : s = [] ∨ ∃ before, s = before ++ ['\n']) :
    ∃ cs gap, (∀ c ∈ cs, c.isComment = true) ∧ Covers (cs ++ pushGap gap us) (s ++ t) := by
  rcases lines with rfl | ⟨before, rfl⟩
  · exact ⟨[], [], by simp, by cases us <;> exact h⟩
  · obtain ⟨cs, covers, comments⟩ := exists_covers_of_quiet (quiet_of_run_newline outside)
    obtain ⟨gap, -, -, both⟩ := covers.appendLine h
    refine ⟨cs, gap, comments, ?_⟩
    rw [List.append_assoc]
    exact both

theorem Covers.below_docLines {us : List Token} {t : Text} {doc : Option Text}
    (h : Covers us t) (indent : Text) (tabs : ∀ c ∈ indent, c = '\t')
    (quiet : ∀ d ∈ doc, Quiet d) :
    ∃ cs gap, (∀ c ∈ cs, c.isComment = true) ∧
      Covers (cs ++ pushGap gap us) (Draft.docLines indent doc ++ t) :=
  h.below (run_docLines tabs quiet) (docLines_cases indent doc)

end GoSplit.Token
