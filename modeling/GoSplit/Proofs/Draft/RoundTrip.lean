import GoSplit.Proofs.SourceFile.Parsed

/-!
Reading back what a draft writes. When the parts of a draft can be printed, its text
parses to a file with the same package, the same imports in some order and, in order, the
declarations of the draft; and that file can be printed again.
-/

namespace GoSplit

open List (Forall₂)
open Token (Alike Chained Copied Covers Layout Moved Quiet Reads Same)
open SourceFile (Item ItemsOf StartsLine)

namespace Draft

/-- A declaration says what another one says, with the white space at its end trimmed. -/
structure Repeats (d' d : Decl) : Prop where
  heading : d'.heading = d.heading
  text : d'.text = Text.trimEnd d.text

/-! ### Reading the declarations -/

theorem startsLine_of_layout {groups : List (List Token)} {ts : List Token}
    (h : Layout groups ts) : StartsLine ts := by
  induction h with
  | nil => simp [StartsLine]
  | @cons group ts us groups _ starts _ ih =>
    cases ts with
    | nil => exact ih
    | cons t ts => exact starts

theorem startsLine_of_alike {ts us : List Token} (h : Forall₂ Alike ts us)
    (starts : StartsLine us) : StartsLine ts := by
  cases h with
  | nil => exact starts
  | @cons t u _ _ like _ =>
    intro t' mem
    obtain rfl := Option.some.inj mem
    rw [like.onNewLine_eq]
    exact starts u rfl

theorem leading_of_comment {before body closing : List Token} {keyword : Token}
    {content : Item.Content} (first : ∀ t ∈ before.head?, t.isComment = true) :
    Item.leading ⟨before, keyword, body, closing, content⟩ = before := by
  cases before with
  | nil => rfl
  | cons t ts => simp [Item.leading, Item.leadingComments, first t rfl]

theorem endsComplete_cons {t : Token} {ts : List Token} (h : SourceFile.endsComplete ts = true) :
    SourceFile.endsComplete (t :: ts) = true := by
  unfold SourceFile.endsComplete at h ⊢
  rw [List.filter_cons]
  split
  · cases code : ts.filter fun t => !t.isSeparator with
    | nil => simp [code] at h
    | cons u us =>
      rw [List.getLast?_cons_cons, ← code]
      exact h
  · exact h

/-- What is read from a copy of the tokens of a declaration. -/
theorem read_copied {d : Decl} {core closing tail : List Token} (h : d.Rereads core closing tail)
    {ts : List Token} (copied : Copied ts d.tokens) {next : List Token} (apart : StartsLine next) :
    ∃ before keyword core' closing' tail',
      ts = before ++ keyword :: (core' ++ (closing' ++ tail')) ∧
      (∀ t ∈ before, t.isSeparator = true) ∧ (∀ t ∈ before.head?, t.isComment = true) ∧
      Item.read before keyword (core' ++ (closing' ++ (tail' ++ next))) =
        .ok ⟨before, keyword, core', closing', .declares d.heading⟩ ∧
      (∀ c ∈ tail', c.isComment = true) ∧ (tail' = [] → closing' = []) ∧
      (tail = [] → tail' = []) ∧
      SourceFile.endsComplete (keyword :: (core' ++ (closing' ++ tail'))) = true := by
  rw [Decl.tokens, h.body] at copied
  obtain ⟨before, keyword, body, rfl, same, word, like⟩ := copied.exists_cons
  obtain ⟨core', others, rfl, likeCore, likeOthers⟩ := Token.exists_append_of_forall₂ like
  obtain ⟨closing', tail', rfl, likeClosing, likeTail⟩ :=
    Token.exists_append_of_forall₂ likeOthers
  have comments : ∀ c ∈ tail', c.isComment = true :=
    Token.forall_of_forall₂ (p := fun c => c.isComment = true) likeTail
      (fun _ _ like comment => by rwa [like.isComment_eq]) h.comments
  have starts : StartsLine (tail' ++ next) := by
    have first := startsLine_of_alike likeTail h.apart
    cases tail' with
    | nil => exact apart
    | cons t ts => exact first
  have complete : SourceFile.endsComplete (core' ++ (closing' ++ tail')) = true := by
    rw [SourceFile.endsComplete_congr like, ← h.body]
    have read : Item.read [] d.keyword (core ++ (closing ++ [])) =
        .ok ⟨[], d.keyword, core, closing, .declares d.heading⟩ :=
      h.read (fun _ => rfl) (List.forall₂_refl _) (List.forall₂_refl _) (by simp [StartsLine])
    exact Item.endsComplete_body read h.complete
  refine ⟨before, keyword, core', closing', tail', rfl, ?_, ?_,
    h.read word likeCore likeClosing starts, comments, ?_, ?_, endsComplete_cons complete⟩
  · exact Token.forall_of_forall₂ (p := fun t => t.isSeparator = true) same
      (fun _ _ same separator => by rwa [same.1]) h.leading
  · have first := h.first
    generalize d.leading = leading at same first
    cases same with
    | nil => simp
    | @cons t u _ _ same _ => simpa [same.2] using first u rfl
  · rintro rfl
    have none := List.forall₂_nil_left_iff.1 likeTail
    rw [h.unclosed none] at likeClosing
    exact List.forall₂_nil_right_iff.1 likeClosing
  · rintro rfl
    exact List.forall₂_nil_right_iff.1 likeTail

/-- The declaration of an item with comments behind it. -/
theorem declsOf_singleton {before core closing tail : List Token} {keyword : Token}
    {heading : Heading} (first : ∀ t ∈ before.head?, t.isComment = true)
    (comments : ∀ c ∈ tail, c.isComment = true) (unclosed : tail = [] → closing = []) :
    SourceFile.declsOf tail [⟨before, keyword, core, closing, .declares heading⟩] =
      [⟨heading, before, keyword, core ++ (closing ++ tail)⟩] := by
  have all : Item.leadingComments tail = tail := by
    have kept : (tail ++ []).takeWhile Token.isComment = tail ++ [] :=
      List.takeWhile_append_of_pos comments
    simpa [Item.leadingComments] using kept
  simp only [SourceFile.declsOf, leading_of_comment first, all, List.isEmpty_nil, Bool.true_and,
    List.flatMap_nil, List.append_nil]
  cases tail with
  | nil => simp [unclosed rfl]
  | cons t ts => simp

/-- The declaration of an item with other declarations behind it, or nothing. -/
theorem declsOf_cons {before core trailing : List Token} {keyword : Token} {heading : Heading}
    {items : List Item} (first : ∀ t ∈ before.head?, t.isComment = true)
    (declares : ∀ item ∈ items, ∃ heading, item.content = .declares heading)
    (none : items = [] → trailing = []) :
    SourceFile.declsOf trailing (⟨before, keyword, core, [], .declares heading⟩ :: items) =
      ⟨heading, before, keyword, core⟩ :: SourceFile.declsOf trailing items := by
  rw [SourceFile.declsOf]
  simp only [leading_of_comment first]
  cases items with
  | nil => simp [none rfl, Item.leadingComments]
  | cons item items =>
    obtain ⟨heading', content⟩ := declares item (by simp)
    have some : SourceFile.declsOf trailing (item :: items) ≠ [] :=
      SourceFile.declsOf_ne_nil trailing (List.mem_cons_self ..) content
    simp [List.isEmpty_eq_false_iff.2 some]

/-- Copies of printable declarations below each other are read as those declarations. -/
theorem exists_items_of_layout {ds : List Decl} (printable : Decl.Printable ds)
    {groups : List (List Token)}
    (copied : Forall₂ (fun group d => Copied group d.tokens ∧
      Token.spell group = Text.trimEnd d.text) groups ds)
    {ts : List Token} (layout : Layout groups ts) :
    ∃ items trailing, ItemsOf ts items trailing ∧
      (∀ item ∈ items, ∃ heading, item.content = .declares heading) ∧
      Forall₂ Repeats (SourceFile.declsOf trailing items) ds ∧
      (∀ d ∈ SourceFile.declsOf trailing items, d.isComplete = true) ∧
      (items = [] → trailing = []) := by
  induction printable generalizing groups ts with
  | nil =>
    cases copied
    cases layout
    exact ⟨[], [], .none (by simp), by simp, .nil, by simp [SourceFile.declsOf], fun _ => rfl⟩
  | @last d final =>
    obtain ⟨core, closing, tail, rereads⟩ := final
    cases copied with
    | cons both none_left =>
      cases none_left
      cases layout with
      | cons moved starts none_left =>
        cases none_left
        have apart : StartsLine [] := by simp [StartsLine]
        obtain ⟨before, keyword, core', closing', tail', rfl, separators, first, read, comments,
          unclosed, -, complete⟩ := read_copied rereads (both.1.of_moved moved) apart
        have decls : SourceFile.declsOf tail'
            [⟨before, keyword, core', closing', .declares d.heading⟩] =
              [⟨d.heading, before, keyword, core' ++ (closing' ++ tail')⟩] :=
          declsOf_singleton first comments unclosed
        refine ⟨[⟨before, keyword, core', closing', .declares d.heading⟩], tail', ?_, ?_,
          ?_, ?_, ?_⟩
        · have left : ItemsOf tail' [] tail' :=
            .none fun c mem => by simp [Token.isSeparator, comments c mem]
          rw [List.append_nil] at read ⊢
          refine .cons separators read ?_
          rw [Item.size, ← List.length_append, ← List.append_assoc, List.drop_left]
          exact left
        · simp
        · rw [decls]
          refine .cons ⟨rfl, ?_⟩ .nil
          rw [← both.2, ← moved.spell_eq]
          rfl
        · rw [decls]
          simpa [Decl.isComplete] using complete
        · simp
  | @cons d ds settled printable ih =>
    cases copied with
    | cons both others =>
      cases layout with
      | @cons _ ts us _ moved starts layout =>
        obtain ⟨items, trailing, found, declares, repeats, completes, none⟩ := ih others layout
        obtain ⟨before, keyword, core', closing', tail', rfl, separators, first, read, -,
          unclosed, untailed, complete⟩ :=
            read_copied settled (both.1.of_moved moved) (startsLine_of_layout layout)
        obtain rfl := untailed rfl
        obtain rfl := unclosed rfl
        simp only [List.nil_append, List.append_nil] at read complete moved ⊢
        have decls : SourceFile.declsOf trailing
            (⟨before, keyword, core', [], .declares d.heading⟩ :: items) =
              ⟨d.heading, before, keyword, core'⟩ :: SourceFile.declsOf trailing items :=
          declsOf_cons first declares none
        refine ⟨⟨before, keyword, core', [], .declares d.heading⟩ :: items, trailing, ?_, ?_,
          ?_, ?_, ?_⟩
        · rw [List.append_assoc, List.cons_append]
          refine .cons separators read ?_
          simpa [Item.size] using found
        · simpa using declares
        · rw [decls]
          refine .cons ⟨rfl, ?_⟩ repeats
          rw [← both.2, ← moved.spell_eq]
          rfl
        · rw [decls]
          simpa [Decl.isComplete, complete] using completes
        · simp

/-! ### Reading the imports -/

/-- Import declarations below each other are read one by one. -/
theorem exists_importItems {keys : List (List (Option Text × Text))}
    {imports decls : List (List Token)} (isImport : Forall₂ ImportTokens keys imports)
    {ts : List Token} (layout : Layout (imports ++ decls) ts) :
    ∃ us items, Layout decls us ∧ ts = items.flatMap Item.tokens ++ us ∧
      ((SourceFile.importsOf items).flatMap (·.specs)).map ImportSpec.key = keys.flatten ∧
      (∀ item ∈ items, (∃ grouped specs, item.content = .imports grouped specs) ∧
        item.closing = [] ∧ ∀ t ∈ item.tokens, t.kind ≠ .rawString) ∧
      ∀ {more : List Item} {trailing : List Token}, ItemsOf us more trailing →
        ItemsOf ts (items ++ more) trailing := by
  induction isImport generalizing ts with
  | nil => exact ⟨ts, [], layout, rfl, rfl, by simp, fun found => found⟩
  | @cons key group keys imports isImport _ ih =>
    cases layout with
    | @cons _ ts vs _ moved starts layout =>
      obtain ⟨us, items, rest, cut, names, known, read⟩ := ih layout
      have tokens := isImport.of_moved moved
      obtain ⟨item, grouped, specs, content, same, whole, unclosed, first⟩ :=
        tokens.items (startsLine_of_layout layout)
      refine ⟨us, item :: items, rest, ?_, ?_, ?_, fun found => first (read found)⟩
      · rw [List.flatMap_cons, List.append_assoc, ← cut, whole]
      · simp only [SourceFile.importsOf, content, List.flatMap_cons, List.map_append, same, names,
          List.flatten_cons]
      · refine List.forall_mem_cons.2 ⟨⟨⟨grouped, specs, content⟩, unclosed, ?_⟩, known⟩
        rw [whole]
        exact tokens.not_rawString

theorem exists_covers_imports {classifier : Classifier} {specs : List ImportSpec}
    (writable : ∀ spec ∈ specs, spec.Writable) :
    ∃ keys groups, Forall₂ ImportTokens keys groups ∧
      Forall₂ Covers groups ((specs.filter ImportSpec.isCgo).map singleImport ++
        (importBlock classifier (specs.filter fun spec => !spec.isCgo)).toList) ∧
      keys.flatten.Perm (specs.map ImportSpec.key) := by
  have singles : ∀ (specs : List ImportSpec), (∀ spec ∈ specs, spec.Writable) →
      ∃ groups, Forall₂ ImportTokens (specs.map fun spec => [spec.key]) groups ∧
        Forall₂ Covers groups (specs.map singleImport) := by
    intro specs
    induction specs with
    | nil => exact fun _ => ⟨[], .nil, .nil⟩
    | cons spec specs ih =>
      intro writable
      obtain ⟨groups, tokens, covers⟩ := ih fun spec mem => writable spec (by simp [mem])
      obtain ⟨group, token, cover⟩ := exists_covers_singleImport (writable spec (by simp))
      exact ⟨group :: groups, .cons token tokens, .cons cover covers⟩
  obtain ⟨groups, tokens, covers⟩ := singles (specs.filter ImportSpec.isCgo)
    fun spec mem => writable spec (List.mem_of_mem_filter mem)
  have alone : ((specs.filter ImportSpec.isCgo).map fun spec => [spec.key]).flatten =
      (specs.filter ImportSpec.isCgo).map ImportSpec.key := by
    rw [← List.flatMap_def, ← List.map_eq_flatMap]
  have all : ((specs.filter ImportSpec.isCgo).map ImportSpec.key ++
      (specs.filter fun spec => !spec.isCgo).map ImportSpec.key).Perm
        (specs.map ImportSpec.key) := by
    rw [← List.map_append]
    exact (List.filter_append_perm ImportSpec.isCgo specs).map _
  cases block : importBlock classifier (specs.filter fun spec => !spec.isCgo) with
  | none =>
    refine ⟨_, groups, tokens, by simpa using covers, ?_⟩
    rw [importBlock_eq_none block, List.map_nil, List.append_nil] at all
    rwa [alone]
  | some text =>
    obtain ⟨group, key, token, cover, perm⟩ := exists_covers_importBlock
      (fun spec mem => writable spec (List.mem_of_mem_filter mem)) block
    refine ⟨_, groups ++ [group], List.rel_append tokens (.cons token .nil),
      List.rel_append covers (.cons cover .nil), ?_⟩
    rw [List.flatten_append, alone, List.flatten_singleton]
    exact (perm.append_left _).trans all

/-! ### Reading the head of the file -/

theorem run_flatMap_quiet {texts : List Text} (h : ∀ t ∈ texts, Quiet t) :
    Token.CommentMode.run .outside (texts.flatMap fun t => t ++ ['\n', '\n']) = .outside := by
  induction texts with
  | nil => rfl
  | cons t texts ih =>
    have line := (h t (by simp)).run_newline
    have cut : t ++ ['\n', '\n'] = (t ++ ['\n']) ++ ['\n'] := by simp
    rw [List.flatMap_cons, Token.CommentMode.run_append, cut, Token.CommentMode.run_append, line]
    exact ih fun t mem => h t (by simp [mem])

/-- The comments of the header that stand on their own. -/
def headerTexts (draft : Draft) : List Text :=
  draft.header.comments ++
    if draft.header.buildConstraints.isEmpty then []
    else [Text.joinWith ['\n'] draft.header.buildConstraints]

/-- The package comment, if it is written. -/
def docText (draft : Draft) : Text :=
  match draft.withPackageDoc, draft.header.packageDoc with
  | true, some doc => doc ++ ['\n']
  | _, _ => []

/-- Everything above the package clause. -/
def preamble (draft : Draft) : Text :=
  (draft.headerTexts.flatMap fun t => t ++ ['\n', '\n']) ++ draft.docText

theorem quiet_headerTexts {draft : Draft} (quiet : draft.header.Quiet) :
    ∀ t ∈ draft.headerTexts, Quiet t := by
  intro t mem
  rcases List.mem_append.1 mem with mem | mem
  · exact quiet.comments t mem
  · split at mem
    · simp at mem
    · rw [List.mem_singleton.1 mem]
      exact Token.quiet_joinWith quiet.buildConstraints

theorem run_preamble {draft : Draft} (quiet : draft.header.Quiet) :
    Token.CommentMode.run .outside draft.preamble = .outside := by
  rw [preamble, Token.CommentMode.run_append, run_flatMap_quiet (quiet_headerTexts quiet), docText]
  split
  · next doc _ eq => exact (quiet.packageDoc doc eq).run_newline
  · rfl

theorem sections_lines (texts : List Text) :
    (texts.flatMap fun t => t ++ ['\n', '\n']) = [] ∨
      ∃ before, (texts.flatMap fun t => t ++ ['\n', '\n']) = before ++ ['\n'] := by
  rcases List.eq_nil_or_concat texts with none | ⟨init, last, eq⟩
  · exact .inl (by rw [none]; rfl)
  · exact .inr ⟨(init.flatMap fun t => t ++ ['\n', '\n']) ++ (last ++ ['\n']), by rw [eq]; simp⟩

theorem preamble_lines (draft : Draft) :
    draft.preamble = [] ∨ ∃ before, draft.preamble = before ++ ['\n'] := by
  unfold preamble docText
  split
  · exact .inr ⟨_, (List.append_assoc ..).symm⟩
  · rw [List.append_nil]
    exact sections_lines draft.headerTexts

/-- The parts of the text behind the package clause. -/
def bodyTexts (classifier : Classifier) (draft : Draft) : List Text :=
  (draft.imports.filter ImportSpec.isCgo).map singleImport ++
    (importBlock classifier (draft.imports.filter fun spec => !spec.isCgo)).toList ++
    draft.decls.map Text.trimEnd

/-- The text of a draft, cut behind the package clause. -/
theorem render_eq (classifier : Classifier) (draft : Draft) :
    draft.render classifier =
      draft.preamble ++ ("package".toList ++ ' ' :: draft.package) ++
        ((draft.bodyTexts classifier).flatMap fun t => '\n' :: '\n' :: t) ++ ['\n'] := by
  have clause : draft.packageClause = draft.docText ++
      ("package".toList ++ ' ' :: draft.package) := by
    rw [packageClause, List.append_assoc]
    rfl
  have parts : draft.sections classifier =
      draft.headerTexts ++ draft.packageClause :: draft.bodyTexts classifier := by
    simp [sections, headerTexts, bodyTexts, List.partition_eq_filter_filter, Function.comp_def]
  rw [render, parts, Text.joinWith_append_cons, clause, preamble]
  simp

theorem reads_package (rest : Text) : Reads .ident "package".toList (' ' :: rest) := by
  have alone : Reads .ident "package".toList [] :=
    ⟨'p', "ackage".toList, rfl, rfl, by decide +kernel⟩
  exact alone.beforeSpace rfl rest (by simp)

/-- The tokens of the head: comments and the package clause. -/
theorem exists_covers_head {draft : Draft} (quiet : draft.header.Quiet) {rest : Text}
    (reads : Reads .ident draft.package rest) :
    ∃ cs keyword name, (∀ c ∈ cs, c.isComment = true) ∧ keyword.isWord "package" = true ∧
      name.kind = .ident ∧ name.text = draft.package ∧
      Covers (cs ++ [keyword, name])
        (draft.preamble ++ ("package".toList ++ ' ' :: draft.package)) := by
  have name : Covers [⟨.ident, [], draft.package, 0⟩] draft.package :=
    ⟨[], by simp, ⟨Token.blank_nil, by simpa using reads.atEnd (by simp), trivial⟩, Token.blank_nil⟩
  have clause := covers_consSpace (reads_package []) (by simp) name
  obtain ⟨cs, gap, comments, covers⟩ := clause.below (run_preamble quiet) (preamble_lines draft)
  exact ⟨cs, _, _, comments, rfl, rfl, rfl, covers⟩

/-- The parts of the draft can be written and are found again. -/
structure Printable (draft : Draft) (ds : List Decl) : Prop where
  header : draft.header.Quiet
  package : (∃ rest, Reads .ident draft.package rest) ∧ isKeyword draft.package = false
  imports : ∀ spec ∈ draft.imports, spec.Writable
  texts : draft.decls = ds.map Decl.text
  decls : Decl.Printable ds

theorem kind_ne_op_of_endsComplete {ts : List Token} {t : Token}
    (complete : SourceFile.endsComplete ts = true) (last : t ∈ ts.getLast?) : t.kind ≠ .op := by
  intro op
  obtain ⟨init, rfl⟩ := List.getLast?_eq_some_iff.1 last
  simp [SourceFile.endsComplete, Token.isSeparator, Token.isComment, Token.endsStatement, op]
    at complete

/-- A complete declaration does not end with an operator. -/
theorem kind_ne_op_of_isComplete {d : Decl} (complete : d.isComplete = true) :
    ∀ t ∈ d.tokens.getLast?, t.kind ≠ .op := by
  intro t mem
  rw [Decl.tokens, List.getLast?_append, List.getLast?_cons, Option.some_or] at mem
  rw [← List.getLast?_cons] at mem
  exact kind_ne_op_of_endsComplete complete mem

/-- The declarations of a draft, as tokens. -/
theorem exists_copied {ds : List Decl} (h : Decl.Printable ds) :
    ∃ groups, Forall₂ (fun group d => Copied group d.tokens ∧
        Token.spell group = Text.trimEnd d.text) groups ds ∧
      Forall₂ Covers groups ((ds.map Decl.text).map Text.trimEnd) := by
  have one : ∀ {d : Decl} {core closing tail : List Token}, d.Rereads core closing tail →
      ∃ group, (Copied group d.tokens ∧ Token.spell group = Text.trimEnd d.text) ∧
        Covers group (Text.trimEnd d.text) := by
    intro d core closing tail rereads
    obtain ⟨after, chained⟩ := rereads.chained
    obtain ⟨group, copied, covers, spelled⟩ :=
      chained.exists_copied (kind_ne_op_of_isComplete rereads.complete)
    exact ⟨group, ⟨copied, spelled⟩, covers⟩
  induction h with
  | nil => exact ⟨[], .nil, .nil⟩
  | last final =>
    obtain ⟨core, closing, tail, rereads⟩ := final
    obtain ⟨group, copied, covers⟩ := one rereads
    exact ⟨[group], .cons copied .nil, .cons covers .nil⟩
  | cons settled _ ih =>
    obtain ⟨groups, copies, covered⟩ := ih
    obtain ⟨group, copied, covers⟩ := one settled
    exact ⟨group :: groups, .cons copied copies, .cons covers covered⟩

/-- What is read in the text that a draft writes. -/
structure Read (draft : Draft) (ds : List Decl) (file : SourceFile) : Prop where
  package : file.package.name = draft.package
  imports : (file.importSpecs.map ImportSpec.key).Perm (draft.imports.map ImportSpec.key)
  decls : Forall₂ Repeats file.decls ds
  printable : file.Printable
  first : file.ImportsFirst
  /-- Behind the imports there are the tokens of the texts of the declarations. -/
  behind : ∃ front last groups us, file.tokens = front ++ last :: us ∧
    last.stop = file.bodyStart ∧ Layout groups us ∧
    Forall₂ (fun group d => Covers group (Text.trimEnd d.text)) groups ds

/-- A text made of comments, a package clause, import declarations and copies of printable
declarations. -/
theorem exists_file_of_layout {src : Text} {ts cs us : List Token} {keyword name : Token}
    (tokens : Token.tokenize src = .ok ts) (cut : ts = cs ++ keyword :: name :: us)
    (comments : ∀ c ∈ cs, c.isComment = true) (word : keyword.isWord "package" = true)
    (isName : name.isName = true) {keys : List (List (Option Text × Text))}
    {imports groups : List (List Token)} (layout : Layout (imports ++ groups) us)
    (isImport : Forall₂ ImportTokens keys imports) {ds : List Decl} (printable : Decl.Printable ds)
    (copied : Forall₂ (fun group d => Copied group d.tokens ∧
      Token.spell group = Text.trimEnd d.text) groups ds) :
    ∃ file, SourceFile.ofSource src = .ok file ∧ file.package.name = name.text ∧
      file.importSpecs.map ImportSpec.key = keys.flatten ∧ Forall₂ Repeats file.decls ds ∧
      file.Printable ∧ file.ImportsFirst ∧ ∃ front last vs, file.tokens = front ++ last :: vs ∧
        last.stop = file.bodyStart ∧ Layout groups vs := by
  obtain ⟨vs, importItems, layoutDecls, cutImports, names, known, readImports⟩ :=
    exists_importItems isImport layout
  obtain ⟨items, trailing, found, declares, repeats, complete, -⟩ :=
    exists_items_of_layout printable copied layoutDecls
  have foundAll := readImports found
  have isImportItem : ∀ item ∈ importItems, ∃ grouped specs,
      item.content = .imports grouped specs := fun item mem => (known item mem).1
  have clause : SourceFile.readPackage src.byteLength (ts.dropWhile Token.isComment) =
      .ok (⟨name.text, keyword.start, name.stop⟩, us) := by
    have code : keyword.isComment = false := by
      simp only [Token.isWord, Bool.and_eq_true, beq_iff_eq] at word
      simp [Token.isComment, word.1]
    have head : ts.dropWhile Token.isComment = keyword :: ([] ++ name :: us) := by
      rw [cut, List.dropWhile_append_of_pos comments]
      simp [code]
    have apart : SourceFile.sameLineComments ([] ++ us) = [] :=
      SourceFile.sameLineComments_append (by simp [SourceFile.SameLine])
        (startsLine_of_layout layout)
    rw [SourceFile.readPackage_eq_ok_iff]
    refine ⟨keyword, [], name, us, head, by simp, word, isName, rfl, ?_⟩
    rw [List.nil_append] at apart
    rw [apart]
    rfl
  obtain ⟨tail, -, chained, -, -⟩ := Token.tokenize_eq_ok_iff.1 tokens
  refine ⟨⟨SourceFile.readHeader ts, ⟨name.text, keyword.start, name.stop⟩,
    SourceFile.importsOf (importItems ++ items),
    SourceFile.declsOf trailing (importItems ++ items), ts⟩, ?_, rfl, ?_, ?_, ?_,
    SourceFile.importsFirst_of_items tokens ?_ foundAll
      ⟨importItems, items, rfl, isImportItem, declares⟩, ?_⟩
  · rw [SourceFile.ofSource_eq_ok_iff]
    exact ⟨ts, tokens, SourceFile.ofTokens_eq_ok_iff.2 ⟨_, us, _, trailing, clause, foundAll, rfl⟩⟩
  · rw [SourceFile.importSpecs, SourceFile.importsOf_append, SourceFile.importsOf_eq_nil declares,
      List.append_nil]
    exact names
  · rw [SourceFile.declsOf_append isImportItem]
    exact repeats
  · refine SourceFile.printable_of_items chained clause foundAll
      ⟨importItems, items, rfl, isImportItem, declares⟩ ?_ ?_
    · rw [SourceFile.declsOf_append isImportItem]
      exact complete
    · intro spec mem
      obtain ⟨item, memItem, grouped, specs, content, memSpec⟩ := SourceFile.mem_importsOf mem
      have isImport : item ∈ importItems := by
        rcases List.mem_append.1 memItem with mem | mem
        · exact mem
        · obtain ⟨heading, content'⟩ := declares item mem
          simp [content] at content'
      obtain ⟨rest, read, -⟩ := foundAll.read memItem
      have inside : item.tokens <:+: ts := by
        refine (foundAll.within memItem).trans ?_
        exact ⟨cs ++ [keyword, name], [], by simp [cut]⟩
      obtain ⟨after, chained'⟩ := chained.within inside
      refine (SourceFile.Item.found read content spec memSpec).writable chained' ?_
      exact fun t memT raw _ => absurd raw ((known item isImport).2.2 t memT)
  · exact ⟨cs ++ [keyword, name], by simp [cut]⟩
  · rcases List.eq_nil_or_concat importItems with rfl | ⟨init, last, rfl⟩
    · refine ⟨cs ++ [keyword], name, vs, by simp [cut, cutImports], ?_, layoutDecls⟩
      simp [SourceFile.bodyStart, SourceFile.importsOf_eq_nil declares]
    · rw [List.concat_eq_append] at cutImports isImportItem known ⊢
      obtain ⟨front, z, ends, final⟩ : ∃ front z, last.tokens = front ++ [z] ∧
          last.body.getLastD last.keyword = z := by
        rw [Item.tokens, (known last (by simp)).2.1, List.append_nil]
        rcases List.eq_nil_or_concat last.body with none | ⟨body, z, eq⟩
        · exact ⟨last.before, last.keyword, by rw [none], by rw [none]; rfl⟩
        · refine ⟨last.before ++ last.keyword :: body, z, by simp [eq], ?_⟩
          rw [eq, List.concat_eq_append, List.getLastD_concat]
      refine ⟨cs ++ [keyword, name] ++ (init.flatMap Item.tokens ++ front), z, vs, ?_, ?_,
        layoutDecls⟩
      · simp [cut, cutImports, ends]
      · rw [SourceFile.bodyStart_of_items (isImportItem last (by simp)) declares, final]

/-- What a draft writes is read as what it holds, and can be printed again. -/
theorem Printable.exists_read {draft : Draft} {ds : List Decl} (h : draft.Printable ds)
    (classifier : Classifier) :
    ∃ file, SourceFile.ofSource (draft.render classifier) = .ok file ∧ draft.Read ds file := by
  obtain ⟨⟨rest, reads⟩, free⟩ := h.package
  obtain ⟨cs, keyword, name, comments, word, kind, text, head⟩ := exists_covers_head h.header reads
  obtain ⟨keys, imports, isImport, coversImports, perm⟩ := exists_covers_imports h.imports
  obtain ⟨groups, copied, coversDecls⟩ := exists_copied h.decls
  have covered := coversDecls
  rw [← h.texts] at coversDecls
  have body : Forall₂ Covers (imports ++ groups) (draft.bodyTexts classifier) :=
    List.rel_append coversImports coversDecls
  obtain ⟨us, layout, covers⟩ := Token.exists_covers_layout body head
  obtain ⟨gap, -, -, whole⟩ := covers.appendLine (Token.covers_nil Token.blank_nil)
  rw [Token.pushGap, List.append_nil, ← render_eq] at whole
  -- The tokens of the text are those of the parts, each in its place.
  have tokens := whole.tokenize
  have same := Token.forall₂_place 0 (cs ++ [keyword, name] ++ us)
  generalize Token.place 0 (cs ++ [keyword, name] ++ us) = ts at tokens same
  have sameHead := List.forall₂_take_append _ _ _ same
  have sameRest := List.forall₂_drop_append _ _ _ same
  obtain ⟨cs', keyword', others, eq, movedCs, kind', text', sameOthers⟩ :=
    (Token.Moved.of_same sameHead).exists_cons
  obtain ⟨name', _, sameName, none_left, rfl⟩ := List.forall₂_cons_right_iff.1 sameOthers
  obtain rfl := List.forall₂_nil_right_iff.1 none_left
  have cut := List.take_append_drop (cs ++ [keyword, name]).length ts
  rw [eq] at cut
  have comments' : ∀ c ∈ cs', c.isComment = true := by
    have kinds := movedCs.forall_kind (p := fun k => k = .lineComment ∨ k = .blockComment)
      fun c mem => Token.isComment_iff.1 (comments c mem)
    exact fun c mem => Token.isComment_iff.2 (kinds c mem)
  have isName : name'.isName = true := by
    simp [Token.isName, sameName.kind, sameName.text, kind, text, free]
  obtain ⟨file, parsed, package, names, repeats, printable, first, front, last, vs, behind, stop,
    layout'⟩ := exists_file_of_layout tokens (by simpa using cut.symm) comments'
      (by simpa [Token.isWord, kind', text'] using word) isName (layout.of_same sameRest) isImport
      h.decls copied
  refine ⟨file, parsed, package.trans (sameName.text.trans text),
    by rwa [names], repeats, printable,
    first, front, last, groups, vs, behind, stop, layout', ?_⟩
  rw [List.map_map] at covered
  exact List.forall₂_map_right_iff.1 covered

theorem Printable.parse_render {draft : Draft} {ds : List Decl} (h : draft.Printable ds)
    (classifier : Classifier) :
    ∃ file, SourceFile.ofSource (draft.render classifier) = .ok file ∧
      file.package.name = draft.package ∧ Forall₂ Repeats file.decls ds ∧ file.Printable ∧
      file.ImportsFirst := by
  obtain ⟨file, parsed, read⟩ := h.exists_read classifier
  exact ⟨file, parsed, read.package, read.decls, read.printable, read.first⟩

end Draft

end GoSplit
