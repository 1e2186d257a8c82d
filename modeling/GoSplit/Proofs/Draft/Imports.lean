import GoSplit.Proofs.SourceFile.Found
import GoSplit.Proofs.Token.Moved
import GoSplit.Proofs.Token.Quoted

/-!
Imports as a draft writes them. An entry whose name, path and comments can be written is
laid out as tokens that an import declaration is read from again, alone or in a
parenthesised list, in front of every line break.
-/

namespace GoSplit

open List (Forall₂)
open Token (Covers Moved Plain Quiet Reads Same)
open SourceFile (SameLine StartsLine)

namespace ImportSpec

/-- What the entry imports, and under which name. -/
def key (spec : ImportSpec) : Option Text × Text := (spec.localName, spec.path)

/-- The texts of the entry are texts of tokens that may stand at their place. -/
structure Writable (spec : ImportSpec) : Prop where
  localName : ∀ name ∈ spec.localName,
    ∃ kind, (kind = .ident ∨ kind = .dot) ∧ ∃ rest, Reads kind name rest
  path : spec.path ≠ []
  quoted : ∃ rest, Reads .string (ImportPath.quote spec.path) rest
  doc : ∀ text ∈ spec.doc, Quiet text
  comment : ∀ text ∈ spec.comment,
    ∃ kind, (kind = .lineComment ∨ kind = .blockComment) ∧ ∃ rest, Reads kind text rest

/-- What has been read can be written, provided that the path fits between double
quotes. -/
theorem Found.writable {ts : List Token} {after : Text} {spec : ImportSpec} (h : Found ts spec)
    (chained : Token.Chained ts after)
    (plain : ∀ t ∈ ts, t.kind = .rawString → t.span = spec.literal → Plain spec.path) :
    Writable spec where
  localName := by
    intro name mem
    obtain ⟨t, memT, kind, rfl⟩ := h.localName name mem
    exact ⟨t.kind, kind, chained.reads_of_mem memT⟩
  path := h.path_ne_nil
  quoted := by
    obtain ⟨t, memT, string, span, path⟩ := h.path
    obtain ⟨rest, reads⟩ := chained.reads_of_mem memT
    rcases Token.isString_iff.1 string with kind | kind
    · rw [kind] at reads
      rw [← path, reads.quote_eq]
      exact ⟨rest, reads⟩
    · exact ⟨[], (plain t memT kind span).fits.reads []⟩
  doc := by
    intro text mem
    obtain ⟨cs, inside, comments, rfl⟩ := h.doc text mem
    obtain ⟨after', part⟩ := chained.within inside
    exact part.quiet_spell comments
  comment := by
    intro text mem
    obtain ⟨t, memT, comment, rfl⟩ := h.comment text mem
    exact ⟨t.kind, Token.isComment_iff.1 comment, chained.reads_of_mem memT⟩

end ImportSpec

namespace Draft

/-! ### The tokens of an entry -/

/-- A token with a blank behind it. -/
theorem covers_consSpace {kind : Token.Kind} {text rest s : Text} {us : List Token}
    (reads : Reads kind text rest) (code : kind ≠ .lineComment) (h : Covers us s) :
    Covers (⟨kind, [], text, 0⟩ :: Token.pushGap [' '] us) (text ++ ' ' :: s) := by
  have space : Token.Blank [' '] := by simp [Token.Blank, Token.isSpace]
  obtain ⟨tail, eq, chained, blank⟩ := h.prepend space
  refine ⟨tail, by simpa using eq, ⟨Token.blank_nil, ?_, chained⟩, blank⟩
  rw [← eq]
  exact (reads.atEnd fun line => absurd line code).beforeSpace rfl s fun line => absurd line code

/-- A comment at the end of a text. A line comment may lose a carriage return. -/
theorem exists_covers_comment {kind : Token.Kind} {text rest : Text} (reads : Reads kind text rest)
    (comment : kind = .lineComment ∨ kind = .blockComment) :
    ∃ text', Covers [⟨kind, [], text', 0⟩] text := by
  by_cases back : kind = .lineComment ∧ text.getLast? = some '\r'
  · obtain ⟨rfl, last⟩ := back
    obtain ⟨body, rfl, whole, -⟩ := (Token.reads_lineComment_iff text rest).1 reads
    obtain ⟨before, eq⟩ := List.getLast?_eq_some_iff.1 last
    rcases before with _ | ⟨c, _ | ⟨d, init⟩⟩
    · simp at eq
    · simp at eq
    · simp only [List.cons_append, List.cons.injEq] at eq
      obtain ⟨rfl, rfl, rfl⟩ := eq
      have line : Reads .lineComment ('/' :: '/' :: init) ['\r'] := by
        rw [Token.reads_lineComment_iff]
        exact ⟨init, rfl, fun mem => whole (by simp [mem]), .inr ⟨[], rfl, by simp⟩⟩
      exact ⟨'/' :: '/' :: init, ['\r'], by simp, ⟨Token.blank_nil, line, trivial⟩,
        by simp [Token.Blank, Token.isSpace]⟩
  · have kept := reads.atEnd fun line last => back ⟨line, last⟩
    exact ⟨text, [], by simp, ⟨Token.blank_nil, kept, trivial⟩, Token.blank_nil⟩

/-- The tokens of an entry with this name and path: the path with the name in front of it,
if there is one, and comments on the line. -/
inductive EntryTokens : Option Text × Text → List Token → Prop
  | bare {literal : Token} {comments : List Token} {path : Text} : literal.kind = .string →
    literal.text.tail.dropLast = path → path ≠ [] → SameLine comments →
      EntryTokens (none, path) (literal :: comments)
  | named {name literal : Token} {comments : List Token} {word path : Text} :
    name.kind = .ident ∨ name.kind = .dot → name.text = word → literal.kind = .string →
    literal.text.tail.dropLast = path → path ≠ [] → literal.onNewLine = false →
    SameLine comments → EntryTokens (some word, path) (name :: literal :: comments)

theorem EntryTokens.of_moved {key : Option Text × Text} {ts us : List Token}
    (h : EntryTokens key us) (moved : Moved ts us) : EntryTokens key ts := by
  cases h with
  | bare string path some same =>
    cases moved with
    | cons kind text more =>
      exact .bare (kind.trans string) (by rwa [text]) some
        (same.congr (more.imp fun _ _ same => same.alike))
  | named name word string path some line same =>
    cases moved with
    | cons kind text more =>
      cases more with
      | cons literal rest =>
        exact .named (by rwa [kind]) (text.trans word) (literal.kind.trans string)
          (by rwa [literal.text]) some (by rwa [literal.alike.onNewLine_eq])
          (same.congr (rest.imp fun _ _ same => same.alike))

theorem exists_covers_specLine {spec : ImportSpec} (h : spec.Writable) :
    ∃ entry, EntryTokens spec.key entry ∧ Covers entry (specLine spec) := by
  obtain ⟨rest, reads⟩ := h.quoted
  have path : (ImportPath.quote spec.path).tail.dropLast = spec.path :=
    Token.dropLast_tail_quote spec.path
  -- The path with the comment behind it.
  have literal : ∃ comments : List Token, SameLine comments ∧
      Covers (⟨.string, [], ImportPath.quote spec.path, 0⟩ :: comments)
        (specLine { spec with localName := none }) := by
    simp only [specLine, List.nil_append]
    cases comment : spec.comment with
    | none =>
      refine ⟨[], by simp [SameLine], [], by simp, ⟨Token.blank_nil, ?_, trivial⟩, Token.blank_nil⟩
      exact reads.atEnd (by simp)
    | some text =>
      obtain ⟨kind, isComment, rest', reads'⟩ := h.comment text comment
      obtain ⟨text', covers⟩ := exists_covers_comment reads' isComment
      refine ⟨_, ?_, covers_consSpace reads (by simp) covers⟩
      rcases isComment with rfl | rfl <;>
        simp [SameLine, Token.pushGap, Token.isComment, Token.onNewLine, Text.hasNewline]
  obtain ⟨comments, same, covers⟩ := literal
  unfold specLine at covers ⊢
  rw [ImportSpec.key]
  cases name : spec.localName with
  | none =>
    simp only [List.nil_append]
    exact ⟨_, .bare rfl path h.path same, covers⟩
  | some text =>
    obtain ⟨kind, isName, rest', reads'⟩ := h.localName text name
    have code : kind ≠ .lineComment := by
      rcases isName with rfl | rfl <;> simp
    have whole := covers_consSpace reads' code covers
    simp only [List.append_assoc, List.singleton_append]
    refine ⟨_, .named isName rfl rfl path h.path ?_ same, whole⟩
    simp [Token.onNewLine, Text.hasNewline]

/-! ### Import declarations -/

theorem reads_import (rest : Text) : Reads .ident "import".toList (' ' :: rest) := by
  have alone : Reads .ident "import".toList [] := ⟨'i', "mport".toList, rfl, rfl, by decide +kernel⟩
  exact alone.beforeSpace rfl rest (by simp)

/-- Tokens that belong to no delimiter and are a list of imports with these names and
paths. -/
inductive Listed : List (Option Text × Text) → List Token → Prop
  | nil : Listed [] []
  | comment {c : Token} {keys : List (Option Text × Text)} {ts : List Token} :
    c.isComment = true → Listed keys ts → Listed keys (c :: ts)
  | bare {literal : Token} {path : Text} {keys : List (Option Text × Text)} {ts : List Token} :
    literal.kind = .string → literal.text.tail.dropLast = path → path ≠ [] → Listed keys ts →
      Listed ((none, path) :: keys) (literal :: ts)
  | named {name literal : Token} {word path : Text} {keys : List (Option Text × Text)}
      {ts : List Token} : name.kind = .ident ∨ name.kind = .dot → name.text = word →
    literal.kind = .string → literal.text.tail.dropLast = path → path ≠ [] → Listed keys ts →
      Listed ((some word, path) :: keys) (name :: literal :: ts)

section

variable {keys : List (Option Text × Text)} {ts : List Token}

theorem Listed.comments_append {cs : List Token} (comments : ∀ c ∈ cs, c.isComment = true)
    (h : Listed keys ts) : Listed keys (cs ++ ts) := by
  induction cs with
  | nil => exact h
  | cons c cs ih =>
    exact .comment (comments c (by simp)) (ih fun c mem => comments c (by simp [mem]))

theorem EntryTokens.listed {key : Option Text × Text} {entry : List Token}
    (h : EntryTokens key entry) (rest : Listed keys ts) : Listed (key :: keys) (entry ++ ts) := by
  cases h with
  | bare string path some same =>
    exact .bare string path some (rest.comments_append same.isComment)
  | named name word string path some _ same =>
    exact .named name word string path some (rest.comments_append same.isComment)

theorem Listed.of_kinds {us : List Token} (h : Listed keys us)
    (same : Forall₂ (fun t u => t.kind = u.kind ∧ t.text = u.text) ts us) : Listed keys ts := by
  induction h generalizing ts with
  | nil =>
    cases same
    exact .nil
  | comment comment _ ih =>
    cases same with
    | cons both more =>
      refine .comment ?_ (ih more)
      rw [Token.isComment_iff] at comment ⊢
      rwa [both.1]
  | bare string path some _ ih =>
    cases same with
    | cons both more => exact .bare (both.1.trans string) (by rwa [both.2]) some (ih more)
  | named name word string path some _ ih =>
    cases same with
    | cons both more =>
      cases more with
      | cons both' more =>
        exact .named (by rwa [both.1]) (both.2.trans word) (both'.1.trans string)
          (by rwa [both'.2]) some (ih more)

theorem Listed.tail_of_comment {c : Token} (h : Listed keys (c :: ts))
    (comment : c.isComment = true) :
    Listed keys ts := by
  have kind := Token.isComment_iff.1 comment
  cases h with
  | comment _ rest => exact rest
  | bare string _ _ _ => simp [string] at kind
  | named name _ _ _ _ _ => rcases name with e | e <;> simp [e] at kind

theorem Listed.drop_trailingComment (h : Listed keys ts) :
    Listed keys (ts.drop (if (ImportSpec.trailingComment ts).isSome then 1 else 0)) := by
  cases ts with
  | nil => simpa using h
  | cons t ts =>
    by_cases comment : t.isComment = true
    · have rest := h.tail_of_comment comment
      split
      · exact rest
      · exact h
    · simpa [ImportSpec.trailingComment, comment] using h

/-- An entry is read where one starts. -/
theorem Listed.read {t : Token} (h : Listed keys (t :: ts)) (code : t.isComment = false) :
    t.kind ≠ .semicolon ∧ ∃ spec n others, ImportSpec.read t ts = .ok (spec, n) ∧
      keys = spec.key :: others ∧ Listed others (ts.drop n) := by
  have literal : ∀ {literal : Token} {path : Text} (name : Option Text), literal.kind = .string →
      literal.text.tail.dropLast = path → path ≠ [] →
        ∃ spec, ImportSpec.ofLiteral name literal = .ok spec ∧ spec.key = (name, path) := by
    rintro literal _ name string rfl filled
    refine ⟨_, ImportSpec.ofLiteral_eq_ok_iff.2 ⟨by simp [Token.isString, string], filled, rfl⟩,
      rfl⟩
  cases h with
  | comment comment _ => simp [comment] at code
  | bare string path filled rest =>
    obtain ⟨spec, found, key⟩ := literal none string path filled
    refine ⟨by simp [string], spec, 0, _, ?_, by rw [key], rest⟩
    simp [ImportSpec.read, string, found, Except.map]
  | @named _ literal' _ _ _ _ name word string path filled rest =>
    obtain ⟨spec, found, key⟩ := literal (some t.text) string path filled
    have solid : literal'.isComment = false := by simp [Token.isComment, string]
    refine ⟨by rcases name with e | e <;> simp [e], spec, 1, _, ?_, by rw [key, word], rest⟩
    rcases name with e | e <;> simp [ImportSpec.read, e, solid, found, Except.map]

/-- A list of imports can be read, and these imports are found in it. -/
theorem Listed.readList (h : Listed keys ts) (doc : List Token) (since : Nat) :
    ∃ specs, ImportSpec.readList doc since ts = .ok specs ∧ specs.map ImportSpec.key = keys := by
  fun_induction ImportSpec.readList doc since ts generalizing keys with
  | case1 =>
    cases h
    exact ⟨[], rfl, rfl⟩
  | case2 doc since t rest comment apart =>
    rename_i ih
    exact ih (h.tail_of_comment comment)
  | case3 doc since t rest code semicolon ih =>
    exact absurd (by simpa using semicolon) (h.read (by simpa using code)).1
  | case4 doc since t rest code _ fault failed =>
    obtain ⟨-, spec, n, others, found, -⟩ := h.read (by simpa using code)
    simp [failed] at found
  | case5 doc since t rest code _ spec n found after comment fault failed =>
    rename_i ih
    obtain ⟨-, spec', n', others, found', -, rest'⟩ := h.read (by simpa using code)
    obtain ⟨-, rfl⟩ : spec' = spec ∧ n' = n := by simpa [found] using found'.symm
    obtain ⟨specs, ok, -⟩ := ih rest'.drop_trailingComment
    exact absurd (failed.symm.trans ok) (by simp)
  | case6 doc since t rest code _ spec n found after comment specs read =>
    rename_i ih
    obtain ⟨-, spec', n', others, found', rfl, rest'⟩ := h.read (by simpa using code)
    obtain ⟨rfl, rfl⟩ : spec' = spec ∧ n' = n := by simpa [found] using found'.symm
    obtain ⟨specs', ok, same⟩ := ih rest'.drop_trailingComment
    obtain rfl : specs = specs' := Except.ok.inj (read.symm.trans ok)
    exact ⟨_, rfl, by rw [List.map_cons, same]; rfl⟩

/-- Inside a delimiter such tokens are passed over. -/
theorem Listed.extentFrom_append (h : Listed keys ts) {stack : List Token}
    (inside : stack ≠ []) (rest : List Token) :
    extentFrom stack (ts ++ rest) =
      (extentFrom stack rest).map (Extent.shift ts.length) := by
  have pass : ∀ {t : Token} (us : List Token), t.isComment = true ∨ t.kind = .string ∨
      t.kind = .ident ∨ t.kind = .dot →
      extentFrom stack (t :: us) = (extentFrom stack us).map Extent.succ := by
    intro t us kind
    have closed : stack.isEmpty = false := by simpa using inside
    rw [extentFrom]
    split
    · rfl
    · next code =>
      rcases kind with comment | kind | kind | kind
      · exact absurd comment code
      all_goals simp [nest, kind, closed]
  have shifted : ∀ (n : Nat), (extentFrom stack rest).map (Extent.shift (n + 1)) =
      ((extentFrom stack rest).map (Extent.shift n)).map Extent.succ :=
    fun n => (map_shift_succ n _).symm
  induction h with
  | nil =>
    cases result : extentFrom stack rest <;> simp [Except.map, result]
  | comment comment _ ih =>
    rw [List.cons_append, pass _ (.inl comment), ih, List.length_cons, shifted]
  | bare string _ _ _ ih =>
    rw [List.cons_append, pass _ (.inr (.inl string)), ih, List.length_cons, shifted]
  | named name _ string _ _ _ ih =>
    rw [List.cons_append, List.cons_append, pass _ (.inr (.inr name)), pass _ (.inr (.inl string)),
      ih, List.length_cons, List.length_cons, shifted, shifted]

end

theorem exists_readSpecs {keyword first : Token} {rest : List Token} {spec : ImportSpec} {n : Nat}
    (code : first.isComment = false) (bare : first.kind ≠ .opening .paren)
    (found : ImportSpec.read first rest = .ok (spec, n)) (leading after : List Token)
    (detached : Bool) :
    ∃ specs, ImportDecl.readSpecs keyword leading detached (first :: rest) after =
      .ok (false, specs) ∧ specs.map ImportSpec.key = [spec.key] := by
  simp [ImportDecl.readSpecs, code, bare, found, ImportSpec.key]

section Reading

variable {keyword : Token} {before next : List Token} (word : keyword.isWord "import" = true)
  (apart : StartsLine next)
include word apart

/-- An import declaration of the tokens `core`, with comments on its last line. -/
theorem read_of_specs (core comments : List Token) {grouped : Bool} {specs : List ImportSpec}
    (extent : extentFrom [] (core ++ (comments ++ next)) = .ok ⟨core.length, false⟩)
    (content : ImportDecl.readSpecs keyword (SourceFile.Item.leadingComments before)
      (decide (2 ≤ SourceFile.Item.newlinesBelowComments before keyword)) core (comments ++ next) =
      .ok (grouped, specs))
    (same : SameLine comments) :
    SourceFile.Item.read before keyword (core ++ comments ++ next) =
      .ok ⟨before, keyword, core ++ comments, [], .imports grouped specs⟩ := by
  rw [List.append_assoc]
  refine SourceFile.Item.read_of_ends (by simp [SourceFile.Item.starts, word]) extent ?_ ?_
  · simp [SourceFile.Item.readContent, word, content, Except.map]
  · simp [SourceFile.Item.close, SourceFile.sameLineComments_append same apart]

theorem EntryTokens.read_item {key : Option Text × Text} {entry : List Token}
    (h : EntryTokens key entry) :
    ∃ specs, SourceFile.Item.read before keyword (entry ++ next) =
      .ok ⟨before, keyword, entry, [], .imports false specs⟩ ∧
      specs.map ImportSpec.key = [key] := by
  cases h with
  | @bare literal comments path string text filled same =>
    have code : literal.isComment = false := by simp [Token.isComment, string]
    have breaks := breaksBeforeNext_comments same.isComment apart
    obtain ⟨-, spec, n, others, found, keys, -⟩ := (Listed.bare string text filled .nil).read code
    obtain ⟨specs, content, same'⟩ := exists_readSpecs code (by simp [string]) found
      (SourceFile.Item.leadingComments before) (comments ++ next)
      (decide (2 ≤ SourceFile.Item.newlinesBelowComments before keyword))
    refine ⟨specs, read_of_specs word apart [literal] comments ?_ content same, ?_⟩
    · simp [extentFrom, code, string, nest, Token.endsStatement, breaks]
    · rw [same', (List.cons.inj keys).1]
  | @named name literal comments _ path kind text string text' filled line same =>
    have code : name.isComment = false := by
      rcases kind with e | e <;> simp [Token.isComment, e]
    have solid : literal.isComment = false := by simp [Token.isComment, string]
    have breaks := breaksBeforeNext_comments same.isComment apart
    have bare : name.kind ≠ .opening .paren := by
      rcases kind with e | e <;> simp [e]
    obtain ⟨-, spec, n, others, found, keys, -⟩ :=
      (Listed.named kind text string text' filled .nil).read code
    obtain ⟨specs, content, same'⟩ := exists_readSpecs code bare found
      (SourceFile.Item.leadingComments before) (comments ++ next)
      (decide (2 ≤ SourceFile.Item.newlinesBelowComments before keyword))
    refine ⟨specs, read_of_specs word apart [name, literal] comments ?_ content same, ?_⟩
    · -- The path stands on the line of the name.
      rcases kind with e | e <;>
        simp [extentFrom, code, solid, string, nest, e, breaksBeforeNext, line,
          Token.endsStatement, breaks, Except.map, Extent.succ]
    · rw [same', (List.cons.inj keys).1]

theorem Listed.read_list {opening closing : Token} {keys : List (Option Text × Text)}
    {ts : List Token} (h : Listed keys ts)
    (opens : opening.kind = .opening .paren) (closes : closing.kind = .closing .paren)
    {specs : List ImportSpec} (found : ImportSpec.readList [] 0 ts = .ok specs) :
    SourceFile.Item.read before keyword (opening :: (ts ++ [closing]) ++ next) =
      .ok ⟨before, keyword, opening :: (ts ++ [closing]), [], .imports true specs⟩ := by
  have code : opening.isComment = false := by simp [Token.isComment, opens]
  have code' : closing.isComment = false := by simp [Token.isComment, closes]
  have none_same : SameLine [] := by simp [SameLine]
  have breaks : breaksBeforeNext next = true := breaksBeforeNext_comments none_same.isComment apart
  have inside : extentFrom [opening] (ts ++ closing :: next) =
      .ok ⟨ts.length + 1, false⟩ := by
    rw [h.extentFrom_append (by simp) (closing :: next)]
    simp [extentFrom, code', nest, opens, closes, Token.endsStatement, breaks, Except.map,
      Extent.shift]
    omega
  have extent : extentFrom [] (opening :: (ts ++ [closing]) ++ ([] ++ next)) =
      .ok ⟨(opening :: (ts ++ [closing])).length, false⟩ := by
    rw [List.cons_append, List.append_assoc, extentFrom]
    simp [code, nest, opens, inside, Except.map, Extent.succ]
  have content : ImportDecl.readSpecs keyword (SourceFile.Item.leadingComments before)
      (decide (2 ≤ SourceFile.Item.newlinesBelowComments before keyword))
      (opening :: (ts ++ [closing])) ([] ++ next) = .ok (true, specs) := by
    simp [ImportDecl.readSpecs, code, opens, found, Except.map]
  simpa using read_of_specs word apart _ _ extent content none_same

theorem Listed.read_item {opening closing : Token} {keys : List (Option Text × Text)}
    {ts : List Token} (h : Listed keys ts)
    (opens : opening.kind = .opening .paren) (closes : closing.kind = .closing .paren) :
    ∃ specs, SourceFile.Item.read before keyword (opening :: (ts ++ [closing]) ++ next) =
      .ok ⟨before, keyword, opening :: (ts ++ [closing]), [], .imports true specs⟩ ∧
      specs.map ImportSpec.key = keys := by
  obtain ⟨specs, found, same⟩ := h.readList [] 0
  exact ⟨specs, h.read_list word apart opens closes found, same⟩

end Reading

/-! ### Import declarations as they are written -/

/-- The tokens behind the keyword of an import declaration of these names and paths. -/
inductive ImportBody : List (Option Text × Text) → List Token → Prop
  | single {key : Option Text × Text} {entry : List Token} : EntryTokens key entry →
    ImportBody [key] entry
  | grouped {opening closing : Token} {keys : List (Option Text × Text)} {ts : List Token} :
    opening.kind = .opening .paren → closing.kind = .closing .paren → Listed keys ts →
      ImportBody keys (opening :: (ts ++ [closing]))

/-- The tokens of an import declaration of these names and paths, with comments above it. -/
inductive ImportTokens : List (Option Text × Text) → List Token → Prop
  | mk {cs body : List Token} {keyword : Token} {keys : List (Option Text × Text)} :
    (∀ c ∈ cs, c.isComment = true) → keyword.isWord "import" = true → ImportBody keys body →
      ImportTokens keys (cs ++ keyword :: body)

section

variable {keys : List (Option Text × Text)} {ts : List Token}

theorem ImportBody.of_moved {us : List Token} (h : ImportBody keys us) (moved : Moved ts us) :
    ImportBody keys ts := by
  cases h with
  | single entry => exact .single (entry.of_moved moved)
  | @grouped opening closing _ list opens closes listed =>
    cases moved with
    | @cons t _ ts _ kind _ more =>
      have left := List.forall₂_take_append _ _ _ more
      have right := List.forall₂_drop_append _ _ _ more
      obtain ⟨closing', _, same, none_left, eq⟩ := List.forall₂_cons_right_iff.1 right
      obtain rfl := List.forall₂_nil_right_iff.1 none_left
      rw [← List.take_append_drop list.length ts, eq]
      exact .grouped (kind.trans opens) (same.kind.trans closes)
        (listed.of_kinds (left.imp fun _ _ same => ⟨same.kind, same.text⟩))

theorem ImportTokens.of_moved {us : List Token} (h : ImportTokens keys us) (moved : Moved ts us) :
    ImportTokens keys ts := by
  obtain ⟨comments, word, body⟩ := h
  obtain ⟨cs', keyword', body', rfl, movedCs, kind, text, same⟩ := moved.exists_cons
  refine .mk ?_ ?_ (body.of_moved (.of_same same))
  · have kinds := movedCs.forall_kind (p := fun k => k = .lineComment ∨ k = .blockComment)
      fun c mem => Token.isComment_iff.1 (comments c mem)
    exact fun c mem => Token.isComment_iff.2 (kinds c mem)
  · simpa [Token.isWord, kind, text] using word

/-- Reading an import declaration finds its imports and leaves what follows. -/
theorem ImportTokens.items {next : List Token} (h : ImportTokens keys ts)
    (apart : StartsLine next) :
    ∃ item grouped specs, item.content = .imports grouped specs ∧
      specs.map ImportSpec.key = keys ∧ item.tokens = ts ∧ item.closing = [] ∧
      ∀ {items : List SourceFile.Item} {trailing : List Token},
        SourceFile.ItemsOf next items trailing →
          SourceFile.ItemsOf (ts ++ next) (item :: items) trailing := by
  obtain @⟨cs, body, keyword, keys, comments, word, body'⟩ := h
  have read : ∃ grouped specs, SourceFile.Item.read cs keyword (body ++ next) =
      .ok ⟨cs, keyword, body, [], .imports grouped specs⟩ ∧ specs.map ImportSpec.key = keys := by
    cases body' with
    | single entry =>
      obtain ⟨specs, read, same⟩ := entry.read_item word apart
      exact ⟨false, specs, read, same⟩
    | grouped opens closes listed =>
      obtain ⟨specs, read, same⟩ := listed.read_item word apart opens closes
      exact ⟨true, specs, read, same⟩
  obtain ⟨grouped, specs, read, same⟩ := read
  refine ⟨⟨cs, keyword, body, [], .imports grouped specs⟩, grouped, specs, rfl, same,
    by simp [SourceFile.Item.tokens], rfl, fun rest => ?_⟩
  have separators : ∀ t ∈ cs, t.isSeparator = true := fun t mem => by
    simp [Token.isSeparator, comments t mem]
  rw [List.append_assoc, List.cons_append]
  refine .cons separators read ?_
  simpa [SourceFile.Item.size] using rest

/-- Paths are written between double quotes. -/
theorem ImportTokens.not_rawString (h : ImportTokens keys ts) :
    ∀ t ∈ ts, t.kind ≠ .rawString := by
  have comment : ∀ {t : Token}, t.isComment = true → t.kind ≠ .rawString := by
    intro t comment
    rcases Token.isComment_iff.1 comment with e | e <;> simp [e]
  have listed : ∀ {keys : List (Option Text × Text)} {ts : List Token}, Listed keys ts →
      ∀ t ∈ ts, t.kind ≠ .rawString := by
    intro keys ts h
    induction h with
    | nil => simp
    | comment isComment _ ih => simpa [comment isComment] using ih
    | bare string _ _ _ ih => simpa [string] using ih
    | named name _ string _ _ _ ih => rcases name with e | e <;> simpa [e, string] using ih
  obtain ⟨comments, word, body⟩ := h
  intro t mem
  simp only [List.mem_append, List.mem_cons] at mem
  rcases mem with mem | rfl | mem
  · exact comment (comments t mem)
  · have := word
    simp only [Token.isWord, Bool.and_eq_true, beq_iff_eq] at this
    simp [this.1]
  · cases body with
    | single entry => exact listed (entry.listed .nil) t (by simpa using mem)
    | grouped opens closes list =>
      simp only [List.mem_cons, List.mem_append, List.not_mem_nil, or_false] at mem
      rcases mem with rfl | mem | rfl
      · simp [opens]
      · exact listed list t mem
      · simp [closes]

end

theorem exists_covers_singleImport {spec : ImportSpec} (h : spec.Writable) :
    ∃ ts, ImportTokens [spec.key] ts ∧ Covers ts (singleImport spec) := by
  obtain ⟨entry, tokens, covers⟩ := exists_covers_specLine h
  have line := covers_consSpace (reads_import []) (by simp) covers
  obtain ⟨cs, gap, comments, whole⟩ := line.below_docLines [] (by simp) h.doc
  have word : Token.isWord "import" ⟨.ident, gap ++ [], "import".toList, 0⟩ = true := rfl
  refine ⟨_, .mk comments word (.single (tokens.of_moved (.pushGap [' '] entry))), ?_⟩
  have cut : "import ".toList ++ specLine spec = "import".toList ++ ' ' :: specLine spec := rfl
  rw [singleImport, List.append_assoc, cut]
  exact whole

/-- Entries of a list with these names and paths, and the parenthesis that closes it. -/
def ListText (keys : List (Option Text × Text)) (s : Text) : Prop :=
  ∃ ts closing, Listed keys ts ∧ closing.kind = .closing .paren ∧ Covers (ts ++ [closing]) s

section

variable {keys : List (Option Text × Text)} {s : Text}

theorem listed_pushGap {ts : List Token} {closing : Token} (h : Listed keys ts)
    (closes : closing.kind = .closing .paren) (gap : Text) :
    ∃ ts' closing', Token.pushGap gap (ts ++ [closing]) = ts' ++ [closing'] ∧ Listed keys ts' ∧
      closing'.kind = .closing .paren := by
  cases ts with
  | nil => exact ⟨[], _, rfl, h, closes⟩
  | cons t ts =>
    refine ⟨_ :: ts, closing, rfl, h.of_kinds (.cons ⟨rfl, rfl⟩ ?_), closes⟩
    exact List.forall₂_same.2 fun _ _ => ⟨rfl, rfl⟩

theorem ListText.newline (h : ListText keys s) : ListText keys ('\n' :: s) := by
  obtain ⟨ts, closing, listed, closes, covers⟩ := h
  obtain ⟨ts', closing', eq, listed', closes'⟩ := listed_pushGap listed closes ['\n']
  have := covers.prepend Token.blank_newline
  rw [eq] at this
  exact ⟨ts', closing', listed', closes', this⟩

theorem listText_paren : ListText [] [')'] := by
  refine ⟨[], ⟨.closing .paren, [], [')'], 0⟩, .nil, rfl, [], rfl, ⟨Token.blank_nil, ?_, trivial⟩,
    Token.blank_nil⟩
  exact ⟨')', [], rfl, rfl, rfl⟩

/-- An entry on a line of its own. -/
theorem ListText.entry {spec : ImportSpec} (h : ListText keys s) (writable : spec.Writable) :
    ListText (spec.key :: keys) (docLines ['\t'] spec.doc ++ '\t' :: specLine spec ++
      ['\n'] ++ s) := by
  obtain ⟨ts, closing, listed, closes, covers⟩ := h
  obtain ⟨entry, tokens, covers'⟩ := exists_covers_specLine writable
  have tab : Token.Blank ['\t'] := by simp [Token.Blank, Token.isSpace]
  obtain ⟨gap, -, -, both⟩ := (covers'.prepend tab).appendLine covers
  obtain ⟨cs, gap', comments, whole⟩ := both.below_docLines ['\t'] (by simp) writable.doc
  obtain ⟨ts', closing', eq, listed', closes'⟩ := listed_pushGap listed closes gap
  have lines : Listed (spec.key :: keys) (Token.pushGap ['\t'] entry ++ ts') :=
    (tokens.of_moved (.pushGap _ _)).listed listed'
  obtain ⟨ts'', closing'', eq', listed'', closes''⟩ := listed_pushGap lines closes' gap'
  rw [eq, ← List.append_assoc, eq', ← List.append_assoc] at whole
  refine ⟨cs ++ ts'', closing'', listed''.comments_append comments, closes'', ?_⟩
  simpa using whole

theorem ListText.importGroup {specs : List ImportSpec} (h : ListText keys s)
    (writable : ∀ spec ∈ specs, spec.Writable) :
    ListText ((specs.mergeSort specLe).map ImportSpec.key ++ keys) (importGroup specs ++ s) := by
  have sorted : ∀ spec ∈ specs.mergeSort specLe, spec.Writable :=
    fun spec mem => writable spec (List.mem_mergeSort.1 mem)
  unfold Draft.importGroup
  generalize specs.mergeSort specLe = specs at sorted ⊢
  induction specs with
  | nil => exact h
  | cons spec specs ih =>
    rw [List.flatMap_cons, List.append_assoc]
    exact (ih fun spec mem => sorted spec (by simp [mem])).entry (sorted spec (by simp))

end

/-- What a list of groups imports, in the order of the text. -/
def groupKeys (groups : List (List ImportSpec)) : List (Option Text × Text) :=
  groups.flatMap fun group => (group.mergeSort specLe).map ImportSpec.key

theorem listText_groups {groups : List (List ImportSpec)}
    (writable : ∀ group ∈ groups, ∀ spec ∈ group, spec.Writable) :
    ListText (groupKeys groups) (Text.joinWith ['\n'] (groups.map Draft.importGroup) ++ [')']) := by
  induction groups with
  | nil => exact listText_paren
  | cons group groups ih =>
    have first := writable group (by simp)
    have rest := ih fun group mem => writable group (by simp [mem])
    cases groups with
    | nil => exact listText_paren.importGroup first
    | cons next groups =>
      rw [List.map_cons, Text.joinWith_cons (by simp), List.append_assoc, List.append_assoc]
      exact rest.newline.importGroup first

theorem exists_covers_groups {groups : List (List ImportSpec)}
    (writable : ∀ group ∈ groups, ∀ spec ∈ group, spec.Writable) :
    ∃ ts, ImportTokens (groupKeys groups) ts ∧ Covers ts ("import (\n".toList ++
      Text.joinWith ['\n'] (groups.map Draft.importGroup) ++ [')']) := by
  obtain ⟨ts, closing, listed, closes, covers⟩ := (listText_groups writable).newline
  have paren :
      Token.scan '(' ('\n' :: (Text.joinWith ['\n'] (groups.map Draft.importGroup) ++ [')'])) =
        .ok (.opening .paren, 0) := rfl
  have whole := covers_consSpace (reads_import []) (by simp) (Token.Covers.cons rfl paren covers)
  have word : Token.isWord "import" ⟨.ident, [], "import".toList, 0⟩ = true := rfl
  have body : ImportBody (groupKeys groups)
      (Token.pushGap [' '] (⟨.opening .paren, [], ['('], 0⟩ :: (ts ++ [closing]))) :=
    .grouped rfl closes listed
  exact ⟨[] ++ _ :: _, .mk (by simp) word body, whole⟩

/-- Groups of a list hold what the list holds. -/
theorem groupKeys_perm {groups : List (List ImportSpec)} {specs : List ImportSpec}
    (perm : groups.flatten.Perm specs) : (groupKeys groups).Perm (specs.map ImportSpec.key) := by
  refine .trans ?_ (perm.map _)
  induction groups generalizing specs with
  | nil => exact .refl _
  | cons group groups ih =>
    rw [groupKeys, List.flatMap_cons, List.flatten_cons, List.map_append]
    exact ((List.mergeSort_perm group specLe).map _).append (ih (.refl _))

theorem importBlock_eq_none {classifier : Classifier} {specs : List ImportSpec}
    (h : importBlock classifier specs = none) : specs = [] := by
  unfold importBlock at h
  split at h
  · rfl
  · simp at h
  · simp at h

/-- All imports other than those of C. -/
theorem exists_covers_importBlock {classifier : Classifier} {specs : List ImportSpec} {text : Text}
    (writable : ∀ spec ∈ specs, spec.Writable) (h : importBlock classifier specs = some text) :
    ∃ ts keys, ImportTokens keys ts ∧ Covers ts text ∧ keys.Perm (specs.map ImportSpec.key) := by
  unfold importBlock at h
  split at h
  · simp at h
  · next spec =>
    obtain rfl := Option.some.inj h
    obtain ⟨ts, tokens, covers⟩ := exists_covers_singleImport (writable spec (by simp))
    exact ⟨ts, _, tokens, covers, .refl _⟩
  · simp only [List.partition_eq_filter_filter, Option.some.injEq] at h
    subst h
    refine (exists_covers_groups fun group mem spec memSpec => writable spec ?_).imp fun ts both =>
      ⟨_, both.1, both.2, groupKeys_perm ?_⟩
    · simp only [List.mem_filter, List.mem_cons, List.not_mem_nil, or_false] at mem
      rcases mem.1 with rfl | rfl
      · exact List.mem_of_mem_filter memSpec
      · exact List.mem_of_mem_filter memSpec
    · rw [List.flatten_filter_not_isEmpty]
      simpa [Function.comp_def] using List.perm_append_comm.trans
        (List.filter_append_perm (fun spec => classifier.isExternal spec.path) specs)

end Draft

end GoSplit
