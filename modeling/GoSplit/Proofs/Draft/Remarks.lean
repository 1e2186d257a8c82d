import GoSplit.Proofs.Draft.Headers

/-!
Comments above the package clause, followed through a file that is written and read again.
A comment that goes on its own may lose white space at its end; a comment without any stays
as it is. Only those of the package comment depend on whether it is written.
-/

namespace GoSplit

open List (Forall₂)

namespace Text

/-- The first text is the second one with white space behind it. -/
def Trims (s t : Text) : Prop := ∃ blank, s = t ++ blank ∧ ∀ c ∈ blank, isBlank c = true

namespace Trims

variable {s t u : Text}

theorem refl (s : Text) : Trims s s := ⟨[], by simp, by simp⟩

theorem trans (h : Trims s t) (h' : Trims t u) : Trims s u := by
  obtain ⟨blank, rfl, all⟩ := h
  obtain ⟨blank', rfl, all'⟩ := h'
  refine ⟨blank' ++ blank, List.append_assoc .., fun c mem => ?_⟩
  rcases List.mem_append.1 mem with mem | mem
  · exact all' c mem
  · exact all c mem

theorem trimEnd (s : Text) : Trims s (trimEnd s) := exists_trimEnd_append s

theorem trimEnd_eq (h : Trims s t) : Text.trimEnd t = Text.trimEnd s := by
  obtain ⟨blank, rfl, all⟩ := h
  exact (trimEnd_append_blank all).symm

/-- A text without white space at its end has nothing to lose. -/
theorem eq_of_trimmed (h : Trims s t) (trimmed : Text.trimEnd s = s) : t = s := by
  have same := h.trimEnd_eq
  obtain ⟨blank, eq, -⟩ := h
  obtain ⟨blank', eq', -⟩ := trimEnd t
  rw [same, trimmed] at eq'
  have sizes := congrArg List.length eq
  have sizes' := congrArg List.length eq'
  simp only [List.length_append] at sizes sizes'
  have none_left : blank = [] := List.length_eq_zero_iff.1 (by omega)
  rw [none_left, List.append_nil] at eq
  exact eq.symm

end Trims

end Text

namespace Token

/-! ### Texts that hold a comment -/

/-- The text consists of comments, one of which is `w`, up to white space at its end. -/
def Remarks (s w : Text) : Prop :=
  ∃ cs, Covers cs s ∧ (∀ c ∈ cs, c.isComment = true) ∧ ∃ c ∈ cs, Text.Trims w c.text

namespace Remarks

variable {s t w w' : Text}

theorem trims (h : Remarks s w) (shorter : Text.Trims w' w) : Remarks s w' := by
  obtain ⟨cs, covers, comments, c, mem, trims⟩ := h
  exact ⟨cs, covers, comments, c, mem, shorter.trans trims⟩

theorem appendLine (h : Remarks s w) (quiet : Quiet t) : Remarks (s ++ '\n' :: t) w := by
  obtain ⟨cs, covers, comments, c, mem, trims⟩ := h
  obtain ⟨cs', covers', comments'⟩ := exists_covers_of_quiet quiet
  obtain ⟨gap, -, -, both⟩ := covers.appendLine covers'
  refine ⟨_, both, fun c mem => ?_, c, List.mem_append_left _ mem, trims⟩
  rcases List.mem_append.1 mem with mem | mem
  · exact comments c mem
  · exact Header.isComment_pushGap comments' c mem

/-- A comment below whole lines of comments. -/
theorem below (h : Remarks t w) (outside : CommentMode.run .outside s = .outside)
    (lines : s = [] ∨ ∃ before, s = before ++ ['\n']) : Remarks (s ++ t) w := by
  obtain ⟨cs, covers, comments, c, mem, trims⟩ := h
  obtain ⟨cs', gap, comments', both⟩ := covers.below outside lines
  have texts : ∃ c' ∈ pushGap gap cs, c'.text = c.text := by
    cases cs with
    | nil => cases mem
    | cons first cs =>
      rcases List.mem_cons.1 mem with rfl | later
      · exact ⟨_, List.mem_cons_self .., rfl⟩
      · exact ⟨c, List.mem_cons_of_mem _ later, rfl⟩
  obtain ⟨c', mem', text⟩ := texts
  refine ⟨_, both, fun c mem => ?_, c', List.mem_append_right _ mem', by rwa [text]⟩
  rcases List.mem_append.1 mem with mem | mem
  · exact comments' c mem
  · exact Header.isComment_pushGap comments c mem

end Remarks

theorem remarks_joinWith {texts : List Text} {text w : Text} (quiet : ∀ t ∈ texts, Quiet t)
    (mem : text ∈ texts) (h : Remarks text w) : Remarks (Text.joinWith ['\n'] texts) w := by
  induction texts with
  | nil => cases mem
  | cons first texts ih =>
    obtain ⟨here, others⟩ := List.forall_mem_cons.1 quiet
    cases texts with
    | nil =>
      obtain rfl := List.mem_singleton.1 mem
      exact h
    | cons next texts =>
      have cut : Text.joinWith ['\n'] (first :: next :: texts) =
          (first ++ ['\n']) ++ Text.joinWith ['\n'] (next :: texts) := by
        rw [Text.joinWith]
        simp
      rw [cut]
      rcases List.mem_cons.1 mem with rfl | later
      · rw [List.append_assoc]
        exact h.appendLine (quiet_joinWith others)
      · exact (ih others later).below here.run_newline (.inr ⟨first, rfl⟩)

/-! ### Comments at the end of a text -/

/-- A comment at the end of a text loses at most a carriage return. -/
theorem Reads.exists_covers {t : Token} {rest : Text} (reads : Reads t.kind t.text rest)
    (comment : t.isComment = true) (blank : Blank t.gap) :
    ∃ c, Covers [c] (t.gap ++ t.text) ∧ c.isComment = true ∧ Text.Trims t.text c.text := by
  by_cases kept : t.kind = .lineComment → t.text.getLast? ≠ some '\r'
  · refine ⟨t, ⟨[], by simp, ⟨blank, ?_, trivial⟩, blank_nil⟩, comment, .refl _⟩
    simpa using reads.atEnd kept
  · rw [Classical.not_imp, not_not] at kept
    obtain ⟨line, last⟩ := kept
    obtain ⟨init, text⟩ := List.getLast?_eq_some_iff.1 last
    rw [line] at reads
    obtain ⟨body, slashes, whole, -⟩ := (reads_lineComment_iff _ _).1 reads
    obtain ⟨body', rfl, rfl⟩ : ∃ body', init = '/' :: '/' :: body' ∧ body = body' ++ ['\r'] := by
      rw [slashes] at text
      match init, text with
      | [], eq => simp at eq
      | [_], eq => simp at eq
      | _ :: _ :: body', eq =>
        simp only [List.cons_append, List.cons.injEq] at eq
        obtain ⟨rfl, rfl, rfl⟩ := eq
        exact ⟨body', rfl, rfl⟩
    refine ⟨{ t with text := '/' :: '/' :: body' }, ⟨['\r'], ?_, ⟨blank, ?_, trivial⟩, ?_⟩, comment,
      ⟨['\r'], text, List.forall_mem_singleton.2 rfl⟩⟩
    · simp [text]
    · rw [line]
      refine (reads_lineComment_iff _ _).2 ⟨body', rfl, fun mem => ?_, .inr ⟨[], rfl, by simp⟩⟩
      exact whole (List.mem_append_left _ mem)
    · simp [Blank, isSpace]

/-- Comments can be read where the text ends behind them. -/
theorem Chained.exists_covers {cs : List Token} {after : Text} (h : Chained cs after)
    (comments : ∀ c ∈ cs, c.isComment = true) :
    ∃ cs', Covers cs' (written cs) ∧ (∀ c ∈ cs', c.isComment = true) ∧
      ∀ c ∈ cs, ∃ c' ∈ cs', Text.Trims c.text c'.text := by
  induction cs with
  | nil => exact ⟨[], covers_nil blank_nil, by simp, by simp⟩
  | cons c cs ih =>
    obtain ⟨blank, reads, more⟩ := h
    obtain ⟨comment, others⟩ := List.forall_mem_cons.1 comments
    by_cases last : cs = []
    · obtain ⟨c', covers, comment', trims⟩ := reads.exists_covers comment blank
      subst last
      exact ⟨[c'], by simpa using covers, by simpa using comment', by simpa using trims⟩
    · obtain ⟨cs', ⟨tail, eq, chained, blank'⟩, comments', found⟩ := ih more others
      have front := reads.truncate (more.written_ne_nil last)
      rw [eq] at front
      refine ⟨c :: cs', ⟨tail, ?_, ⟨blank, front, chained⟩, blank'⟩,
        List.forall_mem_cons.2 ⟨comment, comments'⟩, List.forall_mem_cons.2 ⟨?_, fun d mem => ?_⟩⟩
      · rw [written_cons, written_cons, eq, List.append_assoc _ _ tail]
      · exact ⟨c, List.mem_cons_self .., .refl _⟩
      · obtain ⟨d', mem', trims⟩ := found d mem
        exact ⟨d', List.mem_cons_of_mem _ mem', trims⟩

theorem Chained.remarks_spell {cs : List Token} {after : Text} (h : Chained cs after)
    (comments : ∀ c ∈ cs, c.isComment = true) {t : Token} (mem : t ∈ cs) :
    Remarks (spell cs) t.text := by
  cases cs with
  | nil => cases mem
  | cons c cs =>
    obtain ⟨cs', covers, comments', found⟩ :=
      h.dropGap.exists_covers (by simpa [Token.dropGap, isComment] using comments)
    rw [written_dropGap] at covers
    refine ⟨cs', covers, comments', ?_⟩
    rcases List.mem_cons.1 mem with rfl | later
    · exact found { t with gap := [] } (List.mem_cons_self ..)
    · exact found t (List.mem_cons_of_mem _ later)

/-! ### Comments at the head of a text -/

theorem collect_append_eq_ok {ε α : Type} {as ts : List α} {rest : List (Except ε α)}
    (h : collect (as.map .ok ++ rest) = .ok ts) : ∃ us, ts = as ++ us := by
  induction as generalizing ts with
  | nil => exact ⟨ts, rfl⟩
  | cons a as ih =>
    rw [List.map_cons, List.cons_append, collect] at h
    split at h
    · cases h
    · next others found =>
      cases h
      obtain ⟨us, rfl⟩ := ih found
      exact ⟨us, rfl⟩

theorem isComment_place {cs : List Token} (h : ∀ c ∈ cs, c.isComment = true) (offset : Nat) :
    ∀ u ∈ place offset cs, u.isComment = true := by
  induction cs generalizing offset with
  | nil => simp [place]
  | cons c cs ih =>
    obtain ⟨first, others⟩ := List.forall_mem_cons.1 h
    exact List.forall_mem_cons.2 ⟨first, ih others _⟩

theorem exists_mem_place {cs : List Token} {c : Token} (mem : c ∈ cs) (offset : Nat) :
    ∃ u ∈ place offset cs, u.text = c.text := by
  induction cs generalizing offset with
  | nil => cases mem
  | cons d cs ih =>
    rcases List.mem_cons.1 mem with rfl | later
    · exact ⟨_, List.mem_cons_self .., rfl⟩
    · obtain ⟨u, memU, text⟩ := ih later _
      exact ⟨u, List.mem_cons_of_mem _ memU, text⟩

/-- A comment in a line of its own at the head of a text is a token in front of all code. -/
theorem Remarks.exists_token {before more w : Text} (h : Remarks before w) {ts : List Token}
    (tokens : tokenize (before ++ '\n' :: more) = .ok ts) :
    ∃ u ∈ ts.takeWhile isComment, Text.Trims w u.text := by
  obtain ⟨cs, ⟨tail, rfl, chained, -⟩, comments, c, mem, trims⟩ := h
  have read := streamFrom_append (chained.insertNewline more) 0
  rw [← List.append_assoc] at read
  rw [tokenize, stream, read] at tokens
  obtain ⟨us, rfl⟩ := collect_append_eq_ok tokens
  obtain ⟨u, memU, text⟩ := exists_mem_place mem 0
  refine ⟨u, ?_, by rwa [text]⟩
  rw [List.takeWhile_append_of_pos (isComment_place comments 0)]
  exact List.mem_append_left _ memU

end Token

/-! ### Headers that hold a comment -/

namespace Header

variable {header : Header} {w w' : Text}

/-- The comment `w` is one of the header, up to white space at its end; one of the package
comment counts if `documented`. -/
def Remarks (header : Header) (documented : Bool) (w : Text) : Prop :=
  (∃ text ∈ header.texts, Token.Remarks text w) ∨
    documented = true ∧ ∃ text ∈ header.packageDoc, Token.Remarks text w

theorem Remarks.trims {documented : Bool} (h : header.Remarks documented w)
    (shorter : Text.Trims w' w) : header.Remarks documented w' := by
  rcases h with ⟨text, mem, remarks⟩ | ⟨documented, text, mem, remarks⟩
  · exact .inl ⟨text, mem, remarks.trims shorter⟩
  · exact .inr ⟨documented, text, mem, remarks.trims shorter⟩

theorem remarks_of_constraint (quiet : header.Quiet) {text : Text}
    (mem : text ∈ header.buildConstraints) (h : Token.Remarks text w) (documented : Bool) :
    header.Remarks documented w := by
  refine .inl ⟨_, ?_, Token.remarks_joinWith quiet.buildConstraints mem h⟩
  have filled : header.buildConstraints.isEmpty = false := by
    rw [List.isEmpty_eq_false_iff]
    exact List.ne_nil_of_mem mem
  simp [texts, filled]

/-- Where a group of comments goes. -/
theorem ofGroups_cases {attached : Bool} {gs : List (List Token)} {group : List Token}
    (mem : group ∈ gs) :
    (constrains group = true →
        ∀ t ∈ group, Text.trimEnd t.text ∈ (ofGroups attached gs).buildConstraints) ∧
      (constrains group = false →
        Token.spell group ∈ (ofGroups attached gs).comments ∨
          gs.getLast? = some group ∧
            (ofGroups attached gs).packageDoc = some (Token.spell group)) := by
  induction gs with
  | nil => cases mem
  | cons first gs ih =>
    rw [ofGroups, addGroup]
    rcases List.mem_cons.1 mem with rfl | later
    · split
      · next all =>
        refine ⟨fun _ t memT => List.mem_append_left _ (List.mem_map.2 ⟨t, memT, rfl⟩),
          fun none => ?_⟩
        rw [constrains, all] at none
        cases none
      · next other =>
        refine ⟨fun all => absurd all other, fun _ => ?_⟩
        split
        · next isDoc =>
          rw [Bool.and_eq_true, List.isEmpty_iff] at isDoc
          exact .inr ⟨by simp [isDoc.1], rfl⟩
        · exact .inl (List.mem_cons_self ..)
    · -- A later group is not moved by the groups in front of it.
      obtain ⟨kept, kept'⟩ := ih later
      have still : (first :: gs).getLast? = gs.getLast? := by
        cases gs with
        | nil => cases later
        | cons next gs => rfl
      have notLast : (gs.isEmpty && attached) = false := by
        rw [List.isEmpty_eq_false_iff.2 (List.ne_nil_of_mem later), Bool.false_and]
      rw [notLast, still]
      split
      · exact ⟨fun all t memT => List.mem_append_right _ (kept all t memT), kept'⟩
      · refine ⟨kept, fun free => ?_⟩
        rcases kept' free with standing | doc
        · exact .inl (List.mem_cons_of_mem _ standing)
        · exact .inr doc

end Header

/-! ### Drafts that hold a comment -/

/-- A comment of the header comes in front of the package clause. -/
theorem Draft.exists_remarks {draft : Draft} {w : Text} (quiet : draft.header.Quiet)
    (h : draft.header.Remarks draft.withPackageDoc w) (classifier : Classifier) :
    ∃ before more, draft.render classifier = before ++ '\n' :: more ∧ Token.Remarks before w := by
  have above := quiet_headerTexts quiet
  rw [render_eq, preamble]
  rcases h with ⟨text, mem, remarks⟩ | ⟨documented, text, mem, remarks⟩
  · obtain ⟨front, rest, eq⟩ := List.append_of_mem mem
    have same : draft.headerTexts = front ++ text :: rest := eq
    rw [same] at above ⊢
    refine ⟨(front.flatMap fun t => t ++ ['\n', '\n']) ++ text, ?_, ?_, remarks.below ?_ ?_⟩
    · exact ['\n'] ++ (rest.flatMap fun t => t ++ ['\n', '\n']) ++ draft.docText ++
        ("package".toList ++ ' ' :: draft.package) ++
        ((draft.bodyTexts classifier).flatMap fun t => '\n' :: '\n' :: t) ++ ['\n']
    · simp
    · exact run_flatMap_quiet fun t mem => above t (by simp [mem])
    · exact sections_lines front
  · have doc : draft.docText = text ++ ['\n'] := by
      rw [docText, documented, Option.mem_def.1 mem]
    refine ⟨(draft.headerTexts.flatMap fun t => t ++ ['\n', '\n']) ++ text, ?_, ?_,
      remarks.below (run_flatMap_quiet above) (sections_lines _)⟩
    · exact ("package".toList ++ ' ' :: draft.package) ++
        ((draft.bodyTexts classifier).flatMap fun t => '\n' :: '\n' :: t) ++ ['\n']
    · rw [doc]
      simp

/-! ### Files that hold a comment -/

namespace SourceFile

variable {src : Text} {file : SourceFile}

/-- The comments in front of the package clause. -/
def headComments (file : SourceFile) : List Token := file.tokens.takeWhile Token.isComment

/-- The comment is in the group that is kept as the package comment. -/
def InPackageDoc (file : SourceFile) (t : Token) : Prop :=
  ∃ group ∈ (Header.groups file.headComments).getLast?,
    t ∈ group ∧ file.header.packageDoc = some (Token.spell group)

instance (file : SourceFile) (t : Token) : Decidable (file.InPackageDoc t) :=
  inferInstanceAs (Decidable (∃ group ∈ (Header.groups file.headComments).getLast?, _))

/-- The comment is in a group of build constraints only. -/
def AmongConstraints (file : SourceFile) (t : Token) : Prop :=
  ∃ group ∈ Header.groups file.headComments, t ∈ group ∧ Header.constrains group = true

instance (file : SourceFile) (t : Token) : Decidable (file.AmongConstraints t) :=
  inferInstanceAs (Decidable (∃ group ∈ Header.groups file.headComments, _))

/-- The tokens of a parsed file up to the package clause. -/
theorem exists_keyword (parsed : ofSource src = .ok file) :
    ∃ keyword rest, file.tokens = file.headComments ++ keyword :: rest ∧
      file.package.span.start = keyword.start ∧
      file.header =
        Header.ofGroups (!keyword.gap.hasBlankLine) (Header.groups file.headComments) := by
  obtain ⟨ts, -, found⟩ := ofSource_eq_ok_iff.1 parsed
  obtain ⟨package, rest, items, trailing, clause, -, rfl⟩ := ofTokens_eq_ok_iff.1 found
  obtain ⟨keyword, cs, name, after, eq, -, -, -, rfl, -⟩ := readPackage_eq_ok_iff.1 clause
  have cut := List.takeWhile_append_dropWhile (p := Token.isComment) (l := ts)
  rw [eq] at cut
  refine ⟨keyword, cs ++ name :: after, cut.symm, rfl, ?_⟩
  simp [readHeader, eq, Header.ofComments, headComments]

/-- Only comments stand in front of the package clause. -/
theorem mem_headComments_iff (parsed : ofSource src = .ok file) {t : Token} :
    t ∈ file.headComments ↔ t ∈ file.tokens ∧ t.start < file.package.span.start := by
  obtain ⟨tail, -, chained, -, placed⟩ := Token.tokenize_eq_ok_iff.1 (tokens_of_parsed parsed)
  have ordered := Token.pairwise_start chained placed
  obtain ⟨keyword, rest, tokens, start, -⟩ := exists_keyword parsed
  rw [tokens] at ordered
  obtain ⟨-, behind, before⟩ := List.pairwise_append.1 ordered
  rw [start]
  constructor
  · intro mem
    refine ⟨?_, before t mem keyword (List.mem_cons_self ..)⟩
    rw [tokens]
    exact List.mem_append_left _ mem
  · rintro ⟨mem, early⟩
    rw [tokens] at mem
    rcases List.mem_append.1 mem with mem | mem
    · exact mem
    · rcases List.mem_cons.1 mem with rfl | later
      · omega
      · have late := (List.pairwise_cons.1 behind).1 t later
        omega

theorem quiet_header (parsed : ofSource src = .ok file) : file.header.Quiet := by
  obtain ⟨tail, -, chained, -, -⟩ := Token.tokenize_eq_ok_iff.1 (tokens_of_parsed parsed)
  obtain ⟨ts, -, found⟩ := ofSource_eq_ok_iff.1 parsed
  obtain ⟨package, rest, items, trailing, -, -, rfl⟩ := ofTokens_eq_ok_iff.1 found
  exact Header.quiet_readHeader chained

theorem chained_group (parsed : ofSource src = .ok file) {group : List Token}
    (mem : group ∈ Header.groups file.headComments) :
    ∃ after, Token.Chained group after ∧ ∀ c ∈ group, c.isComment = true := by
  obtain ⟨tail, -, chained, -, -⟩ := Token.tokenize_eq_ok_iff.1 (tokens_of_parsed parsed)
  obtain ⟨keyword, rest, tokens, -⟩ := exists_keyword parsed
  obtain ⟨front, behind, eq⟩ := List.append_of_mem mem
  have all := Header.groups_flatten file.headComments
  rw [eq, List.flatten_append, List.flatten_cons] at all
  rw [tokens, ← all] at chained
  have head := (Token.chained_append.1 chained).1
  refine ⟨_, (Token.chained_append.1 (Token.chained_append.1 head).2).1, fun c memC => ?_⟩
  have here : c ∈ file.headComments := by
    rw [← all]
    simp [memC]
  exact List.all_eq_true.1 List.all_takeWhile c here

/-- A group of constraints is kept without white space at the ends of its lines. -/
theorem remarks_of_amongConstraints (parsed : ofSource src = .ok file) {t : Token}
    (among : file.AmongConstraints t) (documented : Bool) :
    file.header.Remarks documented (Text.trimEnd t.text) := by
  obtain ⟨group, mem, memT, all⟩ := among
  obtain ⟨keyword, -, -, -, header⟩ := exists_keyword parsed
  obtain ⟨after, chained, comments⟩ := chained_group parsed mem
  obtain ⟨behind, reads⟩ := chained.reads_of_mem memT
  have comment := comments t memT
  have code : t.kind ≠ .op := by
    intro op
    simp [Token.isComment, op] at comment
  have alone : Token.Covers [⟨t.kind, [], Text.trimEnd t.text, 0⟩] (Text.trimEnd t.text) :=
    ⟨[], by simp, ⟨Token.blank_nil, by simpa using (reads.trimEnd code).2, trivial⟩,
      Token.blank_nil⟩
  have remarks : Token.Remarks (Text.trimEnd t.text) (Text.trimEnd t.text) :=
    ⟨_, alone, List.forall_mem_singleton.2 comment, _, List.mem_singleton_self _, .refl _⟩
  have kept := (@Header.ofGroups_cases (!keyword.gap.hasBlankLine) _ _ mem).1 all t memT
  rw [← header] at kept
  exact Header.remarks_of_constraint (quiet_header parsed) kept remarks documented

/-- The header holds every comment in front of the package clause. -/
theorem remarks_header (parsed : ofSource src = .ok file) {t : Token} (mem : t ∈ file.headComments)
    {documented : Bool} (kept : ¬ file.InPackageDoc t ∨ documented = true) :
    file.header.Remarks documented t.text := by
  obtain ⟨keyword, -, -, -, header⟩ := exists_keyword parsed
  rw [← Header.groups_flatten file.headComments] at mem
  obtain ⟨group, memGroup, memT⟩ := List.mem_flatten.1 mem
  obtain ⟨after, chained, comments⟩ := chained_group parsed memGroup
  have whole := chained.remarks_spell comments memT
  cases all : Header.constrains group with
  | true =>
    exact (remarks_of_amongConstraints parsed ⟨group, memGroup, memT, all⟩ documented).trims
      (.trimEnd t.text)
  | false =>
    have goes := (@Header.ofGroups_cases (!keyword.gap.hasBlankLine) _ _ memGroup).2 all
    rw [← header] at goes
    rcases goes with standing | ⟨last, doc⟩
    · exact .inl ⟨_, List.mem_append_left _ standing, whole⟩
    · rcases kept with out | documented
      · exact absurd ⟨group, last, memT, doc⟩ out
      · exact .inr ⟨documented, _, doc, whole⟩

/-- A comment of a header is in front of the package clause of the file written with it. -/
theorem exists_headComment {draft : Draft} {classifier : Classifier} {w : Text}
    (quiet : draft.header.Quiet) (remarks : draft.header.Remarks draft.withPackageDoc w)
    (parsed : ofSource (draft.render classifier) = .ok file) :
    ∃ u ∈ file.headComments, Text.Trims w u.text := by
  obtain ⟨before, more, eq, head⟩ := Draft.exists_remarks quiet remarks classifier
  have tokens := tokens_of_parsed parsed
  rw [eq] at tokens
  exact head.exists_token tokens

end SourceFile

end GoSplit
