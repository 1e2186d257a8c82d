import GoSplit.Proofs.Token.Fills
import Mathlib.Data.List.Induction

/-!
The comments above an import, written and read again. They are written line by line, each
line trimmed and indented, so what is read is not the text that was written; but written
again it gives the same lines. In a list of imports an empty line cuts off the comments
above it, so there the comments have to stand without an empty line between them.
-/

namespace GoSplit

open Token (Blank Chained Covers Fills Quiet Reads isSpace written)
open Token.CommentMode (run run_append)

/-! ### Comments behind each other -/

namespace Token

theorem exists_text_of_comment {c : Token} {rest : Text} (reads : Reads c.kind c.text rest)
    (comment : c.isComment = true) : ∃ body, c.text = '/' :: body := by
  rcases isComment_iff.1 comment with kind | kind
  · rw [kind] at reads
    obtain ⟨body, text, -, -⟩ := (reads_lineComment_iff _ _).1 reads
    exact ⟨_, text⟩
  · rw [kind] at reads
    obtain ⟨d, body, text, -, read⟩ := ((reads_iff (by simp) _ _).1 reads).1
    obtain ⟨rfl, -⟩ := scan_eq_blockComment read
    exact ⟨body, text⟩

theorem getLast?_text_of_blockComment {text rest : Text} (reads : Reads .blockComment text rest) :
    text.getLast? = some '/' := by
  obtain ⟨d, body, rfl, -, read⟩ := ((reads_iff (by simp) _ _).1 reads).1
  obtain ⟨rfl, more, n, eq, length, size⟩ := scan_eq_blockComment read
  rw [List.append_nil] at eq
  subst eq
  have all : n = more.length := by simpa using size.symm
  have last := getLast?_take_blockCommentLength length
  rw [all, List.take_length] at last
  simp [List.getLast?_cons, last]

theorem exists_spell_concat (init : List Token) (last : Token) :
    ∃ before, spell (init ++ [last]) = before ++ last.text := by
  cases init with
  | nil => exact ⟨[], by simp [spell]⟩
  | cons t ts =>
    refine ⟨t.text ++ (ts.flatMap fun u => u.gap ++ u.text) ++ last.gap, ?_⟩
    simp [spell]

/-- Every comment starts outside of the one before it. -/
theorem Chained.run_gap {init : List Token} {last : Token} {after : Text}
    (h : Chained (init ++ [last]) after) (comments : ∀ c ∈ init, c.isComment = true) :
    run .outside (written init ++ last.gap) = .outside := by
  induction init using List.reverseRecOn generalizing last after with
  | nil =>
    rw [written_nil, List.nil_append]
    exact CommentMode.run_blank h.1
  | append_singleton init prev ih =>
    obtain ⟨front, blank, -, -⟩ := chained_append.1 h
    have before := ih front fun c mem => comments c (by simp [mem])
    have pair : Chained [prev, last] after := by
      rw [List.append_assoc] at h
      exact (chained_append.1 h).2
    have leaves := run_comment pair.2.1
    rw [written_append, written_cons, written_nil, List.append_nil, ← List.append_assoc,
      run_append, run_append, before]
    rcases isComment_iff.1 (comments prev (by simp)) with kind | kind
    · rw [leaves.1 kind]
      exact run_line_blank blank (newline_mem_gap kind pair)
    · rw [leaves.2 kind]
      exact CommentMode.run_blank blank

theorem Chained.run_written {init : List Token} {last : Token} {after : Text}
    (h : Chained (init ++ [last]) after) (comments : ∀ c ∈ init ++ [last], c.isComment = true) :
    run .outside (written (init ++ [last])) = run .outside last.text := by
  have before := h.run_gap fun c mem => comments c (by simp [mem])
  rw [written_append, written_cons, written_nil, List.append_nil, ← List.append_assoc, run_append,
    before]

theorem Chained.run_spell {cs : List Token} {after : Text} (h : Chained cs after) :
    run .outside (spell cs) = run .outside (written cs) := by
  cases cs with
  | nil => rfl
  | cons c cs =>
    rw [written_cons, List.append_assoc, run_append, CommentMode.run_blank h.1]
    rfl

/-- A text of comments ends with the last of them when it ends in a slash, or in a line
comment without white space at its end. -/
theorem Covers.fills_comments {cs : List Token} {s : Text} (h : Covers cs s)
    (comments : ∀ c ∈ cs, c.isComment = true) {c : Char} (last : s.getLast? = some c)
    (visible : Text.isBlank c = false) (ends : run .outside s = .line ∨ c = '/') :
    Fills cs s := by
  rcases ends with line | rfl
  · obtain ⟨tail, rfl, chained, blank⟩ := h
    obtain rfl | ⟨init, final, rfl⟩ := List.eq_nil_or_concat cs
    · rw [written_nil, List.nil_append, CommentMode.run_blank blank] at line
      simp at line
    · rw [List.concat_eq_append] at *
      have leaves := run_comment (chained_append.1 chained).2.2.1
      rw [run_append, chained.run_written comments] at line
      rcases isComment_iff.1 (comments final (by simp)) with kind | kind
      · rw [leaves.1 kind] at line
        have same : '\n' ∉ tail := by
          intro breaks
          rw [run_line_blank blank breaks] at line
          simp at line
        have reads := (chained_append.1 chained).2.2.1
        rw [kind] at reads
        obtain ⟨-, -, -, ends⟩ := (reads_lineComment_iff _ _).1 reads
        rw [written_nil, List.nil_append] at ends
        rcases tail with _ | ⟨d, tail⟩
        · exact ⟨by simp, chained⟩
        · rcases ends with ⟨ends, -⟩ | ⟨more, eq, ends⟩
          · exact absurd (by simp [ends d rfl]) same
          · obtain ⟨rfl, rfl⟩ := List.cons.inj eq
            rcases tail with _ | ⟨e, tail⟩
            · obtain rfl : '\r' = c := by simpa using last
              simp [Text.isBlank] at visible
            · exact absurd (by simp [ends e rfl]) same
      · rw [leaves.2 kind, CommentMode.run_blank blank] at line
        simp at line
  · exact h.fills fun d mem => by
      obtain rfl : '/' = d := by simpa [last] using mem
      rfl

end Token

namespace Draft

/-- Comments with no white space in front of them and behind them. -/
structure Shown (doc : Text) : Prop where
  quiet : Quiet doc
  first : doc.head? = some '/'
  last : ∀ line ∈ (Text.pieces '\n' doc).getLast?, '/' ∈ line
  ends : run .outside doc = .line ∨ doc.getLast? = some '/'

theorem shown_spell {cs : List Token} {after : Text} (chained : Chained cs after)
    (comments : ∀ c ∈ cs, c.isComment = true) (filled : cs ≠ []) : Shown (Token.spell cs) := by
  have quiet := chained.quiet_spell comments
  have first : (Token.spell cs).head? = some '/' := by
    cases cs with
    | nil => exact absurd rfl filled
    | cons c cs =>
      obtain ⟨body, text⟩ := Token.exists_text_of_comment chained.2.1 (comments c (by simp))
      simp [Token.spell, text]
  obtain rfl | ⟨init, c, rfl⟩ := List.eq_nil_or_concat cs
  · exact absurd rfl filled
  rw [List.concat_eq_append] at *
  have reads := (Token.chained_append.1 chained).2.2.1
  obtain ⟨before, eq⟩ := Token.exists_spell_concat init c
  -- The last line holds the end of the last comment.
  have line : ∀ {s t : Text}, Token.spell (init ++ [c]) = s ++ t → '\n' ∉ t → '/' ∈ t →
      ∀ line ∈ (Text.pieces '\n' (Token.spell (init ++ [c]))).getLast?, '/' ∈ line := by
    intro s t cut whole slash line mem
    obtain ⟨final, ends⟩ : ∃ final, (Text.pieces '\n' s).getLast? = some final :=
      ⟨_, List.getLast?_eq_some_getLast (Text.pieces_ne_nil _ _)⟩
    rw [cut, Text.getLast?_pieces_append whole ends] at mem
    obtain rfl := Option.some.inj mem
    simp [slash]
  rcases Token.isComment_iff.1 (comments c (by simp)) with kind | kind
  · have leaves := (Token.run_comment reads).1 kind
    rw [kind] at reads
    obtain ⟨body, text, whole, -⟩ := (Token.reads_lineComment_iff _ _).1 reads
    refine ⟨quiet, first, line eq ?_ ?_, .inl ?_⟩
    · simpa [text] using whole
    · simp [text]
    · rw [chained.run_spell, chained.run_written comments, leaves]
  · rw [kind] at reads
    have slash := Token.getLast?_text_of_blockComment reads
    obtain ⟨more, text⟩ := List.getLast?_eq_some_iff.1 slash
    rw [text, ← List.append_assoc] at eq
    exact ⟨quiet, first, line eq (by simp) (by simp), .inr (by simp [eq])⟩

/-! ### The lines of the comments -/

/-- Lines below each other, trimmed, each but the first behind `indent`. -/
def laid (indent : Text) : List Text → Text
  | [] => []
  | line :: lines =>
    Text.joinWith ['\n'] (Text.trim line :: lines.map fun l => indent ++ Text.trim l)

/-- The comments as they are read again. -/
def relaid (indent doc : Text) : Text := laid indent (Text.pieces '\n' doc)

/-- A line of the comments as it is written. -/
def laidLine (indent line : Text) : Text := indent ++ Text.trim line ++ ['\n']

theorem blank_of_tabs {indent : Text} (tabs : ∀ c ∈ indent, c = '\t') :
    ∀ c ∈ indent, Text.isBlank c = true := by
  intro c mem
  rw [tabs c mem]
  rfl

theorem flatMap_newline (f : Text → Text) (lines : List Text) :
    '\n' :: lines.flatMap (fun l => f l ++ ['\n']) =
      (lines.flatMap fun l => '\n' :: f l) ++ ['\n'] := by
  induction lines with
  | nil => rfl
  | cons line lines ih =>
    rw [List.flatMap_cons, List.flatMap_cons, List.append_assoc, List.append_assoc, ← ih]
    simp

theorem flatMap_laidLine (indent line : Text) (lines : List Text) :
    (line :: lines).flatMap (laidLine indent) =
      indent ++ laid indent (line :: lines) ++ ['\n'] := by
  have behind := flatMap_newline (fun l => indent ++ Text.trim l) lines
  unfold laidLine
  rw [laid, List.flatMap_cons, Text.joinWith_eq_flatMap, List.flatMap_map]
  simp only [List.append_assoc, List.singleton_append] at behind ⊢
  rw [behind]

theorem flatMap_pieces (indent doc : Text) :
    (Text.pieces '\n' doc).flatMap (laidLine indent) = indent ++ relaid indent doc ++ ['\n'] := by
  unfold relaid
  cases eq : Text.pieces '\n' doc with
  | nil => exact absurd eq (Text.pieces_ne_nil _ _)
  | cons line lines => exact flatMap_laidLine indent line lines

theorem flatMap_lines (line : Text) (lines : List Text) :
    (line :: lines).flatMap (fun line => line ++ ['\n']) =
      Text.joinWith ['\n'] (line :: lines) ++ ['\n'] := by
  have shifted := flatMap_newline id lines
  simp only [id] at shifted
  rw [List.flatMap_cons, Text.joinWith_eq_flatMap, List.append_assoc, List.singleton_append,
    shifted]
  simp

theorem pieces_relaid {indent : Text} (tabs : ∀ c ∈ indent, c = '\t') {doc line : Text}
    {lines : List Text} (eq : Text.pieces '\n' doc = line :: lines) :
    Text.pieces '\n' (relaid indent doc) =
      Text.trim line :: lines.map fun l => indent ++ Text.trim l := by
  have whole := Text.sep_not_mem_pieces '\n' doc
  rw [relaid, eq, laid]
  rw [eq] at whole
  refine Text.pieces_joinWith (by simp) ?_
  intro t mem
  rcases List.mem_cons.1 mem with rfl | mem
  · exact fun mem => whole line (by simp) ((Text.trim_sublist line).subset mem)
  · obtain ⟨l, memL, rfl⟩ := List.mem_map.1 mem
    intro mem
    rcases List.mem_append.1 mem with mem | mem
    · exact absurd (tabs _ mem) (by decide)
    · exact whole l (by simp [memL]) ((Text.trim_sublist l).subset mem)

/-- Laying the comments out again changes nothing. -/
theorem relaid_relaid {indent : Text} (tabs : ∀ c ∈ indent, c = '\t') (doc : Text) :
    relaid indent (relaid indent doc) = relaid indent doc := by
  cases eq : Text.pieces '\n' doc with
  | nil => exact absurd eq (Text.pieces_ne_nil _ _)
  | cons line lines =>
    have again := pieces_relaid tabs eq
    have blank := blank_of_tabs tabs
    have left : relaid indent (relaid indent doc) = Text.joinWith ['\n']
        (Text.trim (Text.trim line) ::
          (lines.map fun l => indent ++ Text.trim l).map fun l => indent ++ Text.trim l) := by
      rw [relaid, again, laid]
    have right : relaid indent doc = Text.joinWith ['\n']
        (Text.trim line :: lines.map fun l => indent ++ Text.trim l) := by
      rw [relaid, eq, laid]
    rw [left, right]
    simp [Text.trim_append_trim blank, Function.comp_def]

theorem run_eq_line_of_blank {s : Text} (blank : ∀ c ∈ s, Text.isBlank c = true)
    {mode : Token.CommentMode} (line : run mode s = .line) : mode = .line := by
  induction s generalizing mode with
  | nil => exact line
  | cons c s ih =>
    obtain ⟨slash, star⟩ := Token.solid_of_isBlank (blank c (by simp))
    have next : mode.step c = .line := ih (fun c mem => blank c (by simp [mem])) line
    cases mode with
    | outside =>
      rw [Token.CommentMode.step, if_neg slash] at next
      split at next <;> simp at next
    | line => rfl
    | slash => simp [Token.CommentMode.step, slash, star] at next
    | block => simp [Token.CommentMode.step, star] at next
    | star => simp [Token.CommentMode.step, slash, star] at next
    | broken => simp [Token.CommentMode.step] at next

theorem docLines_eq {doc : Text} (filled : ∀ line ∈ (Text.pieces '\n' doc).getLast?, line ≠ [])
    (indent : Text) : docLines indent (some doc) = indent ++ relaid indent doc ++ ['\n'] := by
  rw [← flatMap_pieces, docLines, Text.lines]
  obtain eq | ⟨init, last, eq⟩ := List.eq_nil_or_concat (Text.pieces '\n' doc)
  · exact absurd eq (Text.pieces_ne_nil _ _)
  · rw [List.concat_eq_append] at eq
    have some : last.isEmpty = false := by
      simpa using filled last (by rw [eq]; simp)
    unfold laidLine
    simp [eq, Text.closeLines_concat, some, List.flatMap_map, Text.trim_dropReturn]

section Laying

variable {doc : Text} (h : Shown doc) {indent : Text} (tabs : ∀ c ∈ indent, c = '\t')

include h in
theorem Shown.docLines_eq (indent : Text) :
    docLines indent (some doc) = indent ++ relaid indent doc ++ ['\n'] := by
  refine Draft.docLines_eq ?_ indent
  rintro line mem rfl
  simpa using h.last _ mem

include h in
theorem Shown.head?_relaid (indent : Text) : (relaid indent doc).head? = some '/' := by
  obtain ⟨body, eq⟩ := List.head?_eq_some_iff.1 h.first
  have other : '/' ≠ '\n' := by decide
  obtain ⟨piece, others, pieces⟩ := Text.exists_pieces_cons other body
  rw [← eq] at pieces
  have kept : (Text.trim ('/' :: piece)).head? = some '/' := by
    obtain ⟨a, b, cut, blank, -⟩ := Text.exists_trim_append ('/' :: piece)
    have filled : Text.trim ('/' :: piece) ≠ [] := Text.trim_ne_nil (c := '/') (by simp) (by decide)
    rcases a with _ | ⟨c, a⟩
    · have first := congrArg List.head? cut
      rw [List.nil_append, List.head?_append_of_ne_nil _ filled] at first
      exact first.symm
    · obtain rfl : '/' = c := by simpa using congrArg List.head? cut
      exact absurd (blank '/' (by simp)) (by decide)
  obtain ⟨rest, eq'⟩ := List.head?_eq_some_iff.1 kept
  rw [relaid, pieces, laid, Text.joinWith_eq_flatMap, eq']
  rfl

/-- The mode in which the last line starts, before and after the lines are laid out. -/
theorem run_front {init : List Text} (tabs : ∀ c ∈ indent, c = '\t')
    (whole : ∀ line ∈ init, '\n' ∉ line)
    (sound : run .outside (init.flatMap fun line => line ++ ['\n']) ≠ .broken) :
    run .outside (init.flatMap (laidLine indent)) =
        run .outside (init.flatMap fun line => line ++ ['\n']) ∧
      (run .outside (init.flatMap fun line => line ++ ['\n']) = .outside ∨
        run .outside (init.flatMap fun line => line ++ ['\n']) = .block) := by
  cases init with
  | nil => exact ⟨rfl, .inl rfl⟩
  | cons line lines =>
    rw [flatMap_lines] at sound ⊢
    refine ⟨Token.run_lines tabs _ whole (.inl rfl) sound (by simp), ?_⟩
    rcases Token.run_newline .outside (Text.joinWith ['\n'] (line :: lines)) with e | e | e
    · exact .inl e
    · exact .inr e
    · exact absurd e sound

include h tabs in
/-- The last line ends as it did. -/
theorem Shown.ends_relaid :
    ∃ c, (indent ++ relaid indent doc).getLast? = some c ∧ Text.isBlank c = false ∧
      (run .outside (indent ++ relaid indent doc) = .line ∨ c = '/') := by
  obtain eq | ⟨init, last, eq⟩ := List.eq_nil_or_concat (Text.pieces '\n' doc)
  · exact absurd eq (Text.pieces_ne_nil _ _)
  rw [List.concat_eq_append] at eq
  have laid : indent ++ relaid indent doc =
      init.flatMap (laidLine indent) ++ (indent ++ Text.trim last) := by
    have both := flatMap_pieces indent doc
    rw [eq, List.flatMap_append, List.flatMap_singleton, laidLine, ← List.append_assoc] at both
    exact (List.append_cancel_right both).symm
  have cut : doc = (init.flatMap fun line => line ++ ['\n']) ++ last := by
    have joined := Text.joinWith_pieces '\n' doc
    rw [eq, Text.joinWith_append_cons] at joined
    simpa using joined.symm
  have slash := h.last last (by rw [eq]; simp)
  have filled : Text.trim last ≠ [] := Text.trim_ne_nil slash (by decide)
  obtain ⟨c, final⟩ : ∃ c, (Text.trim last).getLast? = some c :=
    ⟨_, List.getLast?_eq_some_getLast filled⟩
  refine ⟨c, ?_, Text.getLast?_trim final, ?_⟩
  · rw [laid, ← List.append_assoc, List.getLast?_append, final]
    rfl
  obtain ⟨a, b, around, blankA, blankB⟩ := Text.exists_trim_append last
  rcases h.ends with line | slash
  · left
    have whole := Text.sep_not_mem_pieces '\n' doc
    rw [eq] at whole
    have quiet := h.quiet
    rw [cut] at line
    rw [Quiet, cut, run_append] at quiet
    have sound : run .outside (init.flatMap fun line => line ++ ['\n']) ≠ .broken := by
      intro gone
      simp [gone] at quiet
    obtain ⟨same, start⟩ := run_front tabs
      (fun line mem => whole line (by simp [mem])) sound
    rw [laid, run_append, same, run_append, Token.run_tabs tabs start]
    rw [run_append] at line
    generalize run .outside (init.flatMap fun line => line ++ ['\n']) = mode at line start
    rw [around, run_append, run_append] at line
    have inner := run_eq_line_of_blank blankB line
    rcases Token.run_blank_of_lineStart blankA start with gone | kept
    · simp [gone] at inner
    · rwa [kept] at inner
  · right
    rw [cut, List.getLast?_append, around] at slash
    obtain rfl | ⟨init, d, rfl⟩ := List.eq_nil_or_concat b
    · rw [List.append_nil, List.getLast?_append, final] at slash
      simpa using slash
    · have blank := blankB d (by simp)
      obtain rfl : d = '/' := by simpa using slash
      simp [Text.isBlank] at blank

include h tabs in
theorem Shown.quiet_relaid : Quiet (indent ++ relaid indent doc) := by
  have outside : run .outside (docLines indent (some doc)) = .outside :=
    Token.run_docLines tabs (by simpa using h.quiet)
  rw [h.docLines_eq indent] at outside
  exact Token.quiet_of_run_newline outside

include h tabs in
/-- Written again the comments give the same lines. -/
theorem Shown.docLines_relaid :
    docLines indent (some (relaid indent doc)) = docLines indent (some doc) := by
  rw [Draft.docLines_eq ?_ indent, relaid_relaid tabs, h.docLines_eq indent]
  have last := h.last
  cases eq : Text.pieces '\n' doc with
  | nil => exact absurd eq (Text.pieces_ne_nil _ _)
  | cons line lines =>
    rw [pieces_relaid tabs eq]
    rw [eq] at last
    obtain rfl | ⟨init, final, rfl⟩ := List.eq_nil_or_concat lines
    · have slash := last line rfl
      simpa using Text.trim_ne_nil slash (by decide)
    · have slash := last final (by simp [List.getLast?_cons])
      have filled := Text.trim_ne_nil slash (by decide)
      simp [List.getLast?_cons, filled]

end Laying

/-! ### Comments without an empty line between them -/

/-- Every empty line stands inside a comment. -/
def Dense (doc : Text) : Prop :=
  ∀ before line after, doc = before ++ '\n' :: (line ++ '\n' :: after) → Blank line → ¬ Quiet before

theorem blank_of_run {s : Text} (blank : ∀ c ∈ s, Text.isBlank c = true)
    (sound : run .outside s ≠ .broken) : Blank s := by
  induction s with
  | nil => exact Token.blank_nil
  | cons c s ih =>
    obtain ⟨slash, -⟩ := Token.solid_of_isBlank (blank c (by simp))
    by_cases space : isSpace c = true
    · have rest := ih (fun c mem => blank c (by simp [mem])) (by
        simpa [Token.CommentMode.step, slash, space] using sound)
      intro d mem
      rcases List.mem_cons.1 mem with rfl | mem
      · exact space
      · exact rest d mem
    · simp [Token.CommentMode.step, slash, space] at sound

/-- A line that shows nothing when it is trimmed is white space. -/
theorem blank_of_trim {line : Text} (blank : Blank (Text.trim line))
    (sound : run .outside line ≠ .broken) : Blank line := by
  obtain ⟨a, b, eq, blankA, blankB⟩ := Text.exists_trim_append line
  rw [eq, run_append, run_append] at sound
  have front : Blank a := blank_of_run blankA fun gone => by simp [gone] at sound
  rw [Token.CommentMode.run_blank front, Token.CommentMode.run_blank blank] at sound
  rw [eq]
  exact Token.blank_append.2 ⟨Token.blank_append.2 ⟨front, blank⟩, blank_of_run blankB sound⟩

/-- The first of the lines of white space between two texts. -/
theorem exists_blank_line {line : Text} (blank : Blank line) (after : Text) :
    ∃ first rest, line ++ '\n' :: after = first ++ '\n' :: rest ∧ Blank first ∧ '\n' ∉ first := by
  obtain ⟨first, rest, eq, whole, ends⟩ := Token.exists_line_split (line ++ '\n' :: after)
  rcases rest with _ | ⟨c, rest⟩
  · rw [List.append_nil] at eq
    exact absurd (eq ▸ by simp) whole
  · obtain rfl := ends c rfl
    refine ⟨first, rest, eq, ?_, whole⟩
    have before : first <+: line ++ '\n' :: after := ⟨_, eq.symm⟩
    have behind : line ++ ['\n'] <+: line ++ '\n' :: after := ⟨after, by simp⟩
    rcases List.prefix_or_prefix_of_prefix before behind with part | part
    · intro d mem
      rcases List.mem_append.1 (part.subset mem) with mem | mem
      · exact blank d mem
      · exact Token.blank_newline d mem
    · exact absurd (part.subset (by simp)) whole

theorem Shown.dense_relaid {doc : Text} (h : Shown doc) {indent : Text}
    (tabs : ∀ c ∈ indent, c = '\t') (dense : Dense doc) : Dense (relaid indent doc) := by
  intro before line after eq blank quiet
  obtain ⟨first, rest, cut, blankFirst, whole⟩ := exists_blank_line blank after
  rw [cut] at eq
  cases pieces : Text.pieces '\n' doc with
  | nil => exact absurd pieces (Text.pieces_ne_nil _ _)
  | cons p ps =>
    have again := pieces_relaid tabs pieces
    rw [eq, Text.pieces_append, Text.pieces_append, Text.pieces_eq_singleton whole] at again
    cases front : Text.pieces '\n' before with
    | nil => exact absurd front (Text.pieces_ne_nil _ _)
    | cons q qs =>
      rw [front, List.cons_append, List.singleton_append, List.cons.injEq] at again
      obtain ⟨rfl, again⟩ := again
      obtain ⟨ps', others, rfl, rfl, behind⟩ := List.map_eq_append_iff.1 again.symm
      obtain ⟨l, ls, rfl, rfl, last⟩ := List.map_eq_cons_iff.1 behind
      cases ls with
      | nil => exact absurd last.symm (Text.pieces_ne_nil _ _)
      | cons r rs =>
        have lines := Text.sep_not_mem_pieces '\n' doc
        rw [pieces] at lines
        -- The text up to the empty line, before it is laid out.
        have joined : doc = (Text.joinWith ['\n'] (p :: ps') ++ ['\n']) ++
            (l ++ '\n' :: Text.joinWith ['\n'] (r :: rs)) := by
          have whole := Text.joinWith_pieces '\n' doc
          rw [pieces, ← List.cons_append, Text.joinWith_append_cons, flatMap_lines] at whole
          rw [← whole, Text.joinWith_eq_flatMap ['\n'] r]
          simp
        have sound := h.quiet
        rw [Quiet, joined, run_append] at sound
        have sound' : run .outside (Text.joinWith ['\n'] (p :: ps') ++ ['\n']) ≠ .broken := by
          intro gone
          simp [gone] at sound
        rw [← flatMap_lines] at sound'
        have same := (run_front tabs (fun line mem => lines line (by
          simp only [List.mem_cons, List.mem_append] at mem ⊢
          tauto)) sound').1
        have written : before = laid indent (p :: ps') := by
          rw [← Text.joinWith_pieces '\n' before, front, laid]
        rw [flatMap_laidLine, ← written, List.append_assoc, run_append,
          Token.run_tabs tabs (.inl rfl), quiet.run_newline, flatMap_lines] at same
        rw [← same, run_append] at sound
        refine dense (Text.joinWith ['\n'] (p :: ps')) l (Text.joinWith ['\n'] (r :: rs)) ?_ ?_
          (Token.quiet_of_run_newline same.symm)
        · simpa using joined
        · refine blank_of_trim ?_ fun gone => by simp [gone, Token.CommentMode.step] at sound
          exact (Token.blank_append.1 blankFirst).2

theorem exists_two_newlines {gap : Text} (h : gap.hasBlankLine = true) :
    ∃ u w v, gap = u ++ '\n' :: (w ++ '\n' :: v) := by
  replace h : 2 ≤ gap.count '\n' := of_decide_eq_true h
  have mem : '\n' ∈ gap := List.count_pos_iff.1 (by omega)
  obtain ⟨u, rest, rfl, first⟩ := List.eq_append_cons_of_mem mem
  rw [List.count_append, List.count_cons_self, List.count_eq_zero.2 first] at h
  have mem' : '\n' ∈ rest := List.count_pos_iff.1 (by omega)
  obtain ⟨w, v, rfl⟩ := List.append_of_mem mem'
  exact ⟨u, w, v, rfl⟩

theorem quiet_append_blank {s u : Text} (quiet : Quiet s) (blank : Blank u) : Quiet (s ++ u) := by
  rw [Quiet, run_append]
  rcases quiet with e | e
  · rw [e, Token.CommentMode.run_blank blank]
    exact .inl rfl
  · rw [e]
    by_cases breaks : '\n' ∈ u
    · exact .inl (Token.run_line_blank blank breaks)
    · exact .inr (Token.CommentMode.run_line breaks)

/-- No empty line separates the tokens of dense comments. -/
theorem not_hasBlankLine_of_dense {cs : List Token} {after : Text} (chained : Chained cs after)
    (comments : ∀ c ∈ cs, c.isComment = true) (dense : Dense (Token.spell cs)) :
    ∀ c ∈ cs.tail, c.gap.hasBlankLine = false := by
  cases cs with
  | nil => simp
  | cons first cs =>
    intro c mem
    rw [List.tail_cons] at mem
    obtain ⟨a, b, rfl⟩ := List.append_of_mem mem
    cases empty : c.gap.hasBlankLine with
    | false => rfl
    | true =>
      obtain ⟨u, w, v, gap⟩ := exists_two_newlines empty
      rw [← List.cons_append] at chained
      obtain ⟨front, blank, -, -⟩ := Token.chained_append.1 chained
      rw [gap, Token.blank_append] at blank
      have inner : Blank (w ++ '\n' :: v) := fun d mem => blank.2 d (by simp [mem])
      have quiet : Quiet (Token.spell (first :: a)) :=
        front.quiet_spell fun c mem => comments c (by
          rcases List.mem_cons.1 mem with rfl | mem
          · simp
          · simp [mem])
      refine absurd (quiet_append_blank quiet blank.1)
        (dense _ w (v ++ c.text ++ b.flatMap fun u => u.gap ++ u.text) ?_
          (Token.blank_append.1 inner).1)
      simp [Token.spell, gap]

/-- What stands above an entry, if anything does. -/
def above (cs : List Token) : Option Text := if cs.isEmpty then none else some (Token.spell cs)

/-- The tokens of the comments as they are written above a text. -/
theorem exists_comments_above {us : List Token} {t indent : Text} (fills : Fills us t)
    (some : us ≠ []) (tabs : ∀ c ∈ indent, c = '\t') {doc : Option Text}
    (shown : ∀ d ∈ doc, d = [] ∨ Shown d) :
    ∃ cs gap, (∀ c ∈ cs, c.isComment = true) ∧ docLines indent (above cs) = docLines indent doc ∧
      (cs = [] ∧ gap = [] ∨ gap = ['\n']) ∧
      Fills (cs ++ Token.pushGap gap us) (docLines indent doc ++ t) ∧
      ((∀ d ∈ doc, Dense d) → ∀ c ∈ cs.tail, c.gap.hasBlankLine = false) := by
  have bare : docLines indent doc = [] → ∃ cs gap, (∀ c ∈ cs, c.isComment = true) ∧
      docLines indent (above cs) = docLines indent doc ∧ (cs = [] ∧ gap = [] ∨ gap = ['\n']) ∧
      Fills (cs ++ Token.pushGap gap us) (docLines indent doc ++ t) ∧
      ((∀ d ∈ doc, Dense d) → ∀ c ∈ cs.tail, c.gap.hasBlankLine = false) := by
    intro empty
    rw [empty]
    refine ⟨[], [], by simp, rfl, .inl ⟨rfl, rfl⟩, ?_, by simp⟩
    cases us <;> exact fills
  cases doc with
  | none => exact bare rfl
  | some d =>
    rcases shown d rfl with rfl | h
    · exact bare rfl
    · obtain ⟨cs, covers, comments⟩ := Token.exists_covers_of_quiet (h.quiet_relaid tabs)
      obtain ⟨c, last, visible, ends⟩ := h.ends_relaid tabs
      have filled := covers.fills_comments comments last visible ends
      have blank : Blank indent := fun c mem => by rw [tabs c mem]; rfl
      have spelled : Token.spell cs = relaid indent d := by
        refine filled.spell_eq blank fun c mem => ?_
        rw [h.head?_relaid indent] at mem
        obtain rfl := Option.some.inj mem
        rfl
      have nonempty : cs ≠ [] := by
        rintro rfl
        have first := h.head?_relaid indent
        rw [← spelled] at first
        simp [Token.spell] at first
      refine ⟨cs, ['\n'], comments, ?_, .inr rfl, ?_, ?_⟩
      · rw [above, if_neg (by simpa using nonempty), spelled, h.docLines_relaid tabs]
      · have below := fills.prepend some Token.blank_newline
        rw [h.docLines_eq indent, List.append_assoc]
        exact filled.append below
      · intro dense
        refine not_hasBlankLine_of_dense filled.chained comments ?_
        rw [spelled]
        exact h.dense_relaid tabs (dense d rfl)

end Draft

end GoSplit
