import GoSplit.Proofs.Draft.Comments
import GoSplit.Proofs.Draft.Imports

/-!
Imports that are read from what a draft writes. Such an import has the name, the path and
the comment of the one that was written, and the comments above it are laid out to the same
lines; so it is written in the same way again.
-/

namespace GoSplit

open List (Forall₂)
open Token (Fills Moved Reads pushGap)
open SourceFile (Item ItemsOf SameLine StartsLine)

namespace ImportSpec

/-- The comments of the entry are read as they are written. -/
structure Legible (spec : ImportSpec) : Prop where
  writable : spec.Writable
  doc : ∀ text ∈ spec.doc, text = [] ∨ Draft.Shown text
  comment : ∀ text ∈ spec.comment, text.getLast? ≠ some '\r'

/-- What has been read is legible when no comment keeps a carriage return at its end. -/
theorem Found.legible {ts : List Token} {after : Text} {spec : ImportSpec} (h : Found ts spec)
    (chained : Token.Chained ts after) (writable : spec.Writable)
    (kept : ∀ t ∈ ts, t.isComment = true → t.text.getLast? ≠ some '\r') : Legible spec where
  writable := writable
  doc := by
    intro text mem
    obtain ⟨cs, inside, comments, rfl⟩ := h.doc text mem
    obtain ⟨after', part⟩ := chained.within inside
    by_cases filled : cs = []
    · rw [filled]
      exact .inl rfl
    · exact .inr (Draft.shown_spell part comments filled)
  comment := by
    intro text mem
    obtain ⟨t, memT, comment, rfl⟩ := h.comment text mem
    exact kept t memT comment

end ImportSpec

namespace Draft

/-- An import that is written like another one, in a place with this indentation. -/
structure Echoes (indent : Text) (spec' spec : ImportSpec) : Prop where
  localName : spec'.localName = spec.localName
  path : spec'.path = spec.path
  comment : spec'.comment = spec.comment
  doc : docLines indent spec'.doc = docLines indent spec.doc

theorem Echoes.specLine_eq {indent : Text} {spec' spec : ImportSpec}
    (h : Echoes indent spec' spec) :
    specLine spec' = specLine spec := by
  rw [specLine, specLine, h.localName, h.path, h.comment]

theorem Echoes.singleImport_eq {spec' spec : ImportSpec} (h : Echoes [] spec' spec) :
    singleImport spec' = singleImport spec := by
  rw [singleImport, singleImport, h.doc, h.specLine_eq]

/-! ### The tokens of an entry -/

theorem fills_consSpace {kind : Token.Kind} {text rest s : Text} {us : List Token}
    (reads : Reads kind text rest) (code : kind ≠ .lineComment) (h : Fills us s) (some : us ≠ []) :
    Fills (⟨kind, [], text, 0⟩ :: pushGap [' '] us) (text ++ ' ' :: s) := by
  have space : Token.Blank [' '] := by simp [Token.Blank, Token.isSpace]
  have behind := h.prepend some space
  refine ⟨by simp [behind.text], Token.blank_nil, ?_, behind.chained⟩
  rw [behind.text, List.append_nil]
  exact (reads.atEnd fun line => absurd line code).beforeSpace rfl s fun line => absurd line code

/-- The tokens of an entry on its line. -/
inductive Spells (spec : ImportSpec) : List Token → Prop
  | bare {literal : Token} {comments : List Token} : spec.localName = none →
    literal.kind = .string → literal.text = ImportPath.quote spec.path → SameLine comments →
    comments.map (·.text) = spec.comment.toList → Spells spec (literal :: comments)
  | named {name literal : Token} {comments : List Token} : spec.localName = some name.text →
    name.kind = .ident ∨ name.kind = .dot → literal.kind = .string →
    literal.text = ImportPath.quote spec.path → literal.onNewLine = false → SameLine comments →
    comments.map (·.text) = spec.comment.toList → Spells spec (name :: literal :: comments)

theorem Spells.pushGap {spec : ImportSpec} {entry : List Token} (h : Spells spec entry)
    (gap : Text) :
    Spells spec (Token.pushGap gap entry) := by
  cases h with
  | bare alone string text same texts => exact .bare alone string text same texts
  | named name kind string text line same texts =>
    exact .named name kind string text line same texts

theorem Spells.ne_nil {spec : ImportSpec} {entry : List Token} (h : Spells spec entry) :
    entry ≠ [] := by
  cases h <;> simp

theorem exists_fills_specLine {spec : ImportSpec} (h : spec.Legible) :
    ∃ entry, Spells spec entry ∧ (∀ t ∈ entry.head?, t.gap = []) ∧ Fills entry (specLine spec) := by
  obtain ⟨rest, reads⟩ := h.writable.quoted
  -- The path with the comment behind it.
  have literal : ∃ comments : List Token, SameLine comments ∧
      comments.map (·.text) = spec.comment.toList ∧
      Fills (⟨.string, [], ImportPath.quote spec.path, 0⟩ :: comments)
        (specLine { spec with localName := none }) := by
    simp only [specLine, List.nil_append]
    cases comment : spec.comment with
    | none =>
      refine ⟨[], by simp [SameLine], rfl, by simp, Token.blank_nil, ?_, trivial⟩
      exact reads.atEnd (by simp)
    | some text =>
      obtain ⟨kind, isComment, rest', reads'⟩ := h.writable.comment text comment
      have alone : Fills [⟨kind, [], text, 0⟩] text := by
        refine ⟨by simp, Token.blank_nil, ?_, trivial⟩
        exact reads'.atEnd fun _ => h.comment text comment
      refine ⟨_, ?_, ?_, fills_consSpace reads (by simp) alone (by simp)⟩
      · rcases isComment with rfl | rfl <;>
          simp [SameLine, Token.pushGap, Token.isComment, Token.onNewLine, Text.hasNewline]
      · simp [Token.pushGap]
  obtain ⟨comments, same, texts, fills⟩ := literal
  unfold specLine at fills ⊢
  cases name : spec.localName with
  | none =>
    simp only [List.nil_append]
    exact ⟨_, .bare name rfl rfl same texts, by simp, fills⟩
  | some text =>
    obtain ⟨kind, isName, rest', reads'⟩ := h.writable.localName text name
    have code : kind ≠ .lineComment := by
      rcases isName with rfl | rfl <;> simp
    have whole := fills_consSpace reads' code fills (by simp)
    simp only [List.append_assoc, List.singleton_append]
    refine ⟨_, .named name isName rfl rfl ?_ same texts, by simp, whole⟩
    simp [Token.onNewLine, Text.hasNewline]

/-! ### Reading an entry -/

theorem trailingComment_of_texts {comments next : List Token} {comment : Option Text}
    (same : SameLine comments) (texts : comments.map (·.text) = comment.toList)
    (apart : StartsLine next) :
    ImportSpec.trailingComment (comments ++ next) = comment ∧
      (comments ++ next).drop (if comment.isSome then 1 else 0) = next := by
  cases comment with
  | none =>
    obtain rfl := List.map_eq_nil_iff.1 texts
    refine ⟨?_, rfl⟩
    cases next with
    | nil => rfl
    | cons t ts => simp [ImportSpec.trailingComment, apart t rfl]
  | some text =>
    obtain ⟨c, rfl, rfl⟩ := List.map_eq_singleton_iff.1 texts
    have onLine := same c (by simp)
    exact ⟨by simp [ImportSpec.trailingComment, onLine], rfl⟩

/-- What is read where an entry stands. -/
theorem Spells.read {spec : ImportSpec} {entry next : List Token} (h : Spells spec entry)
    (path : spec.path ≠ []) (apart : StartsLine next) :
    ∃ first rest literal n, entry = first :: rest ∧ first.isComment = false ∧
      first.kind ≠ .semicolon ∧ first.kind ≠ .opening .paren ∧
      ImportSpec.read first (rest ++ next) =
        .ok (⟨spec.localName, spec.path, literal, none, none⟩, n) ∧
      ImportSpec.trailingComment ((rest ++ next).drop n) = spec.comment ∧
      ((rest ++ next).drop n).drop (if spec.comment.isSome then 1 else 0) = next := by
  have inner : ∀ {literal : Token}, literal.kind = .string →
      literal.text = ImportPath.quote spec.path → ∀ name, ImportSpec.ofLiteral name literal =
        .ok ⟨name, spec.path, literal.span, none, none⟩ := by
    intro literal string text name
    have same : literal.text.tail.dropLast = spec.path := by
      rw [text, Token.dropLast_tail_quote]
    refine ImportSpec.ofLiteral_eq_ok_iff.2 ⟨by simp [Token.isString, string], by rwa [same], ?_⟩
    rw [same]
  cases h with
  | @bare literal comments alone string text same texts =>
    obtain ⟨trailing, left⟩ := trailingComment_of_texts same texts apart
    refine ⟨literal, comments, literal.span, 0, rfl, by simp [Token.isComment, string],
      by simp [string], by simp [string], ?_, trailing, left⟩
    rw [alone]
    exact ImportSpec.read_eq_ok_iff.2 (.inl ⟨by simp [string], inner string text none, rfl⟩)
  | @named name literal comments named kind string text line same texts =>
    obtain ⟨trailing, left⟩ := trailingComment_of_texts same texts apart
    refine ⟨name, literal :: comments, literal.span, 1, rfl,
      by rcases kind with e | e <;> simp [Token.isComment, e],
      by rcases kind with e | e <;> simp [e], by rcases kind with e | e <;> simp [e], ?_,
      trailing, left⟩
    rw [named]
    exact ImportSpec.read_eq_ok_iff.2 (.inr ⟨kind, [], literal, comments ++ next, rfl, by simp,
      inner string text _, rfl⟩)

/-! ### Reading a list -/

theorem readList_comments {cs : List Token} (comments : ∀ c ∈ cs, c.isComment = true)
    (tight : ∀ c ∈ cs, c.gap.hasBlankLine = false) (doc ts : List Token) :
    ImportSpec.readList doc 0 (cs ++ ts) = ImportSpec.readList (doc ++ cs) 0 ts := by
  induction cs generalizing doc with
  | nil => simp
  | cons c cs ih =>
    have near : ¬ 2 ≤ 0 + c.gap.newlines := by
      simpa [Text.hasBlankLine] using tight c (by simp)
    rw [List.cons_append, ImportSpec.readList, if_pos (comments c (by simp))]
    simp only [near, if_false]
    rw [ih (fun c mem => comments c (by simp [mem])) fun c mem => tight c (by simp [mem])]
    simp

/-- Comments without an empty line between them are collected for the next entry. -/
theorem readList_above {cs : List Token} (comments : ∀ c ∈ cs, c.isComment = true)
    (tight : ∀ c ∈ cs.tail, c.gap.hasBlankLine = false) (since : Nat) (ts : List Token) :
    ∃ since', ImportSpec.readList [] since (cs ++ ts) = ImportSpec.readList cs since' ts := by
  cases cs with
  | nil => exact ⟨since, rfl⟩
  | cons c cs =>
    refine ⟨0, ?_⟩
    rw [List.cons_append, ImportSpec.readList, if_pos (comments c (by simp))]
    have alone : (if 2 ≤ since + c.gap.newlines then [c] else [] ++ [c]) = [c] := by
      split <;> rfl
    dsimp only
    rw [List.tail_cons] at tight
    rw [alone, readList_comments (fun c mem => comments c (by simp [mem])) tight]
    rfl

/-- Entries below each other, each with the comments above it. -/
inductive Entries : List ImportSpec → List Token → Prop
  | nil : Entries [] []
  | cons {spec : ImportSpec} {specs : List ImportSpec} {cs entry rest : List Token} :
    (∀ c ∈ cs, c.isComment = true) → (∀ c ∈ cs.tail, c.gap.hasBlankLine = false) →
    docLines ['\t'] (above cs) = docLines ['\t'] spec.doc → Spells spec entry →
    (cs ≠ [] → ∀ t ∈ entry.head?, t.gap.hasBlankLine = false) → spec.path ≠ [] →
    StartsLine rest → Entries specs rest → Entries (spec :: specs) (cs ++ (entry ++ rest))

theorem docAbove_eq {cs : List Token} {first : Token}
    (near : cs ≠ [] → first.gap.hasBlankLine = false) :
    ImportSpec.docAbove cs first = above cs := by
  cases cs with
  | nil => rfl
  | cons c cs => simp [ImportSpec.docAbove, above, near (by simp)]

/-- Reading entries gives entries that are written in the same way. -/
theorem Entries.readList {specs : List ImportSpec} {ts : List Token} (h : Entries specs ts)
    (since : Nat) :
    ∃ specs', ImportSpec.readList [] since ts = .ok specs' ∧
      Forall₂ (Echoes ['\t']) specs' specs := by
  induction h generalizing since with
  | nil => exact ⟨[], by rw [ImportSpec.readList], .nil⟩
  | @cons spec specs cs entry rest comments tight doc spells near path apart _ ih =>
    obtain ⟨since', above⟩ := readList_above comments tight since (entry ++ rest)
    obtain ⟨first, others, literal, n, rfl, code, other, -, read, trailing, left⟩ :=
      spells.read path apart
    obtain ⟨specs', found, echoes⟩ := ih 0
    refine ⟨⟨spec.localName, spec.path, literal, Draft.above cs, spec.comment⟩ :: specs', ?_,
      .cons ⟨rfl, rfl, rfl, doc⟩ echoes⟩
    rw [above, List.cons_append, ImportSpec.readList, if_neg (by simp [code]),
      if_neg (by simpa using other), read]
    simp only [trailing, left, found, docAbove_eq fun some => near some first rfl]

theorem Entries.pushGap {specs : List ImportSpec} {ts : List Token} (h : Entries specs ts)
    (gap : Text) : Entries specs (Token.pushGap gap ts) := by
  cases h with
  | nil => exact .nil
  | @cons spec specs cs entry rest comments tight doc spells near path apart entries =>
    cases cs with
    | nil =>
      have front : Token.pushGap gap ([] ++ (entry ++ rest)) =
          [] ++ (Token.pushGap gap entry ++ rest) := by
        cases entry with
        | nil => exact absurd rfl spells.ne_nil
        | cons t ts => rfl
      rw [front]
      exact .cons comments tight doc (spells.pushGap gap) (by simp) path apart entries
    | cons c cs =>
      have front : Token.pushGap gap (c :: cs ++ (entry ++ rest)) =
          { c with gap := gap ++ c.gap } :: cs ++ (entry ++ rest) := rfl
      rw [front]
      refine .cons ?_ tight ?_ spells (fun _ => near (by simp)) path apart entries
      · simpa [Token.isComment] using comments
      · exact doc

/-! ### Writing a list -/

/-- Entries of a list, and the parenthesis that closes it. -/
def ListFilled (specs : List ImportSpec) (s : Text) : Prop :=
  ∃ ts closing, Entries specs ts ∧ closing.kind = .closing .paren ∧ Fills (ts ++ [closing]) s

theorem listFilled_paren : ListFilled [] [')'] := by
  refine ⟨[], ⟨.closing .paren, [], [')'], 0⟩, .nil, rfl, rfl, Token.blank_nil, ?_, trivial⟩
  exact ⟨')', [], rfl, rfl, rfl⟩

/-- The tokens behind a line break. -/
theorem ListFilled.newline {specs : List ImportSpec} {s : Text} (h : ListFilled specs s) :
    ∃ ts closing, Entries specs ts ∧ StartsLine (ts ++ [closing]) ∧
      closing.kind = .closing .paren ∧ Fills (ts ++ [closing]) ('\n' :: s) := by
  obtain ⟨ts, closing, entries, closes, fills⟩ := h
  have below := fills.prepend (by simp) Token.blank_newline
  have starts := Token.startsLine_pushGap [] (ts ++ [closing])
  cases ts with
  | nil => exact ⟨[], _, entries, starts, closes, below⟩
  | cons t ts => exact ⟨_ :: ts, closing, entries.pushGap ['\n'], starts, closes, below⟩

theorem startsLine_left {ts us : List Token} (h : StartsLine (ts ++ us)) : StartsLine ts := by
  cases ts with
  | nil => simp [StartsLine]
  | cons t ts => exact h

theorem pushGap_append {ts : List Token} (filled : ts ≠ []) (gap : Text) (us : List Token) :
    Token.pushGap gap (ts ++ us) = Token.pushGap gap ts ++ us := by
  cases ts with
  | nil => exact absurd rfl filled
  | cons t ts => rfl

/-- An entry on a line of its own. -/
theorem ListFilled.entry {spec : ImportSpec} {specs : List ImportSpec} {s : Text}
    (h : ListFilled specs s) (legible : spec.Legible) (dense : ∀ d ∈ spec.doc, Dense d) :
    ListFilled (spec :: specs) (docLines ['\t'] spec.doc ++ '\t' :: specLine spec ++
      ['\n'] ++ s) := by
  obtain ⟨ts, closing, entries, starts, closes, fills⟩ := h.newline
  obtain ⟨entry, spells, bare, line⟩ := exists_fills_specLine legible
  have tab : Token.Blank ['\t'] := by simp [Token.Blank, Token.isSpace]
  have indented := (line.prepend spells.ne_nil tab).append fills
  have filled : Token.pushGap ['\t'] entry ≠ [] := (spells.pushGap _).ne_nil
  have tabs : ∀ c ∈ ['\t'], c = '\t' := by simp
  obtain ⟨cs, gap, comments, doc, cases, whole, tight⟩ :=
    exists_comments_above indented (by simp [filled]) tabs legible.doc
  rw [pushGap_append filled] at whole
  refine ⟨cs ++ (Token.pushGap gap (Token.pushGap ['\t'] entry) ++ ts), closing, ?_, closes, ?_⟩
  · refine .cons comments (tight dense) doc ((spells.pushGap _).pushGap _) ?_ legible.writable.path
      (startsLine_left starts) entries
    intro some t mem
    obtain ⟨none, -⟩ | rfl := cases
    · exact absurd none some
    · cases entry with
      | nil => exact absurd rfl filled
      | cons u us =>
        obtain rfl := Option.some.inj mem
        rw [bare u rfl]
        rfl
  · simpa using whole

theorem ListFilled.importGroup {specs others : List ImportSpec} {s : Text} (h : ListFilled others s)
    (legible : ∀ spec ∈ specs, spec.Legible) (dense : ∀ spec ∈ specs, ∀ d ∈ spec.doc, Dense d) :
    ListFilled (specs.mergeSort specLe ++ others) (importGroup specs ++ s) := by
  have sorted : ∀ spec ∈ specs.mergeSort specLe, spec.Legible ∧ ∀ d ∈ spec.doc, Dense d :=
    fun spec mem => ⟨legible spec (List.mem_mergeSort.1 mem), dense spec (List.mem_mergeSort.1 mem)⟩
  unfold Draft.importGroup
  generalize specs.mergeSort specLe = specs at sorted ⊢
  induction specs with
  | nil => exact h
  | cons spec specs ih =>
    obtain ⟨first, rest⟩ := List.forall_mem_cons.1 sorted
    rw [List.flatMap_cons, List.append_assoc]
    exact (ih rest).entry first.1 first.2

theorem listFilled_groups {groups : List (List ImportSpec)}
    (legible : ∀ group ∈ groups, ∀ spec ∈ group, spec.Legible)
    (dense : ∀ group ∈ groups, ∀ spec ∈ group, ∀ d ∈ spec.doc, Dense d) :
    ListFilled (groups.flatMap fun group => group.mergeSort specLe)
      (Text.joinWith ['\n'] (groups.map Draft.importGroup) ++ [')']) := by
  induction groups with
  | nil => exact listFilled_paren
  | cons group groups ih =>
    obtain ⟨first, others⟩ := List.forall_mem_cons.1 legible
    obtain ⟨first', others'⟩ := List.forall_mem_cons.1 dense
    have rest := ih others others'
    cases groups with
    | nil => exact listFilled_paren.importGroup first first'
    | cons next groups =>
      rw [List.map_cons, Text.joinWith_cons (by simp), List.append_assoc, List.append_assoc,
        List.flatMap_cons]
      obtain ⟨ts, closing, entries, -, closes, fills⟩ := rest.newline
      exact ListFilled.importGroup ⟨ts, closing, entries, closes, fills⟩ first first'

/-! ### Import declarations -/

/-- Read in front of a line break, the tokens are an import declaration of imports that are
written like these. -/
def Declares (indent : Text) (specs : List ImportSpec) (ts : List Token) : Prop :=
  ∀ next, StartsLine next → ∃ item grouped specs', item.content = .imports grouped specs' ∧
    Forall₂ (Echoes indent) specs' specs ∧
    ∀ {items : List Item} {trailing : List Token}, ItemsOf next items trailing →
      ItemsOf (ts ++ next) (item :: items) trailing

theorem itemsOf_of_read {cs body next : List Token} {keyword : Token} {item : Item}
    (comments : ∀ c ∈ cs, c.isComment = true)
    (read : Item.read cs keyword (body ++ next) = .ok item) (size : item.size = body.length)
    {items : List Item} {trailing : List Token} (rest : ItemsOf next items trailing) :
    ItemsOf (cs ++ keyword :: body ++ next) (item :: items) trailing := by
  rw [List.append_assoc, List.cons_append]
  refine .cons (fun t mem => by simp [Token.isSeparator, comments t mem]) read ?_
  rw [size, List.drop_left]
  exact rest

/-- The comments above a declaration belong to its entry. -/
theorem docs_above {cs : List Token} {keyword : Token} (comments : ∀ c ∈ cs, c.isComment = true)
    (near : cs ≠ [] → keyword.gap.newlines < 2) :
    (if (Item.leadingComments cs).isEmpty || decide (2 ≤ Item.newlinesBelowComments cs keyword)
      then none else some (Token.spell (Item.leadingComments cs))) = above cs := by
  have all : (cs ++ []).takeWhile Token.isComment = cs ++ [] :=
    List.takeWhile_append_of_pos comments
  have none_left : (cs ++ []).dropWhile Token.isComment = [] :=
    List.dropWhile_append_of_pos comments
  rw [List.append_nil] at all none_left
  rw [Item.leadingComments, Item.newlinesBelowComments, all, none_left]
  cases cs with
  | nil => rfl
  | cons c cs =>
    have close : ¬ 2 ≤ keyword.gap.newlines := Nat.not_le.2 (near (by simp))
    simp [above, Token.newlinesAcross, close]

/-- A declaration of one entry. -/
theorem declares_single {spec : ImportSpec} {cs entry : List Token} {keyword : Token}
    (comments : ∀ c ∈ cs, c.isComment = true) (doc : docLines [] (above cs) = docLines [] spec.doc)
    (near : cs ≠ [] → keyword.gap.newlines < 2) (word : keyword.isWord "import" = true)
    (spells : Spells spec entry) (path : spec.path ≠ []) :
    Declares [] [spec] (cs ++ keyword :: entry) := by
  intro next apart
  have above := docs_above comments near
  -- It is enough to say where the path ends and the comments begin.
  have declares : ∀ (core behind : List Token) (literal : Span), entry = core ++ behind →
      SameLine behind → behind.map (·.text) = spec.comment.toList →
      extentFrom [] (core ++ (behind ++ next)) = .ok ⟨core.length, false⟩ →
      (∀ leading detached after, ImportDecl.readSpecs keyword leading detached core after =
        .ok (false, [⟨spec.localName, spec.path, literal,
          if leading.isEmpty || detached then none else some (Token.spell leading),
          ImportSpec.trailingComment after⟩])) →
      ∃ item grouped specs', item.content = .imports grouped specs' ∧
        Forall₂ (Echoes []) specs' [spec] ∧
        ∀ {items : List Item} {trailing : List Token}, ItemsOf next items trailing →
          ItemsOf (cs ++ keyword :: entry ++ next) (item :: items) trailing := by
    rintro core behind literal rfl same texts extent content
    have trailing := (trailingComment_of_texts same texts apart).1
    have read := @read_of_specs _ cs _ word apart core behind _ _ extent (content _ _ _) same
    refine ⟨_, false, _, rfl, .cons ?_ .nil, fun rest => itemsOf_of_read comments read ?_ rest⟩
    · refine ⟨rfl, rfl, trailing, ?_⟩
      rw [← doc, ← above]
    · simp [Item.size]
  have inner : ∀ {literal : Token}, literal.text = ImportPath.quote spec.path →
      literal.text.tail.dropLast = spec.path := by
    intro literal text
    rw [text, Token.dropLast_tail_quote]
  cases spells with
  | @bare literal behind alone string text same texts =>
    have code : literal.isComment = false := by simp [Token.isComment, string]
    have breaks := breaksBeforeNext_comments same.isComment apart
    refine declares [literal] behind literal.span rfl same texts ?_ ?_
    · simp [extentFrom, code, string, nest, Token.endsStatement, breaks]
    · intro leading detached after
      have found : ImportSpec.read literal [] =
          .ok (⟨none, spec.path, literal.span, none, none⟩, 0) := by
        refine ImportSpec.read_eq_ok_iff.2 (.inl ⟨by simp [string],
          ImportSpec.ofLiteral_eq_ok_iff.2 ⟨by simp [Token.isString, string], ?_, ?_⟩, rfl⟩)
        · rwa [inner text]
        · rw [inner text]
      simp [ImportDecl.readSpecs, code, string, found, alone]
  | @named name literal behind named kind string text line same texts =>
    have code : name.isComment = false := by
      rcases kind with e | e <;> simp [Token.isComment, e]
    have solid : literal.isComment = false := by simp [Token.isComment, string]
    have bare : name.kind ≠ .opening .paren := by
      rcases kind with e | e <;> simp [e]
    have breaks := breaksBeforeNext_comments same.isComment apart
    refine declares [name, literal] behind literal.span rfl same texts ?_ ?_
    · rcases kind with e | e <;>
        simp [extentFrom, code, solid, string, nest, e, breaksBeforeNext, line,
          Token.endsStatement, breaks, Except.map, Extent.succ]
    · intro leading detached after
      have found : ImportSpec.read name [literal] =
          .ok (⟨some name.text, spec.path, literal.span, none, none⟩, 1) := by
        refine ImportSpec.read_eq_ok_iff.2 (.inr ⟨kind, [], literal, [], rfl, by simp,
          ImportSpec.ofLiteral_eq_ok_iff.2 ⟨by simp [Token.isString, string], ?_, ?_⟩, rfl⟩)
        · rwa [inner text]
        · rw [inner text]
      simp [ImportDecl.readSpecs, code, bare, found, named]

theorem Spells.listed {spec : ImportSpec} {keys : List (Option Text × Text)} {entry ts : List Token}
    (h : Spells spec entry) (path : spec.path ≠ []) (rest : Listed keys ts) :
    Listed (spec.key :: keys) (entry ++ ts) := by
  have inner : ∀ {literal : Token}, literal.text = ImportPath.quote spec.path →
      literal.text.tail.dropLast = spec.path := by
    intro literal text
    rw [text, Token.dropLast_tail_quote]
  rw [ImportSpec.key]
  cases h with
  | bare alone string text same _ =>
    rw [alone]
    exact .bare string (inner text) path (rest.comments_append same.isComment)
  | named name kind string text _ same _ =>
    rw [name]
    exact .named kind rfl string (inner text) path (rest.comments_append same.isComment)

theorem Entries.listed {specs : List ImportSpec} {ts : List Token} (h : Entries specs ts) :
    Listed (specs.map ImportSpec.key) ts := by
  induction h with
  | nil => exact .nil
  | cons comments _ _ spells _ path _ _ ih => exact (spells.listed path ih).comments_append comments

/-- A declaration of a list of entries. -/
theorem declares_list {specs : List ImportSpec} {keyword opening closing : Token} {ts : List Token}
    (word : keyword.isWord "import" = true) (opens : opening.kind = .opening .paren)
    (closes : closing.kind = .closing .paren) (entries : Entries specs ts) :
    Declares ['\t'] specs (keyword :: opening :: (ts ++ [closing])) := by
  intro next apart
  obtain ⟨specs', found, echoes⟩ := entries.readList 0
  have none_above : ∀ c ∈ ([] : List Token), c.isComment = true := by simp
  have read := @Listed.read_list _ [] _ word apart _ _ _ _ entries.listed opens closes _ found
  refine ⟨_, true, specs', rfl, echoes, fun rest => itemsOf_of_read none_above read ?_ rest⟩
  simp [Item.size]

theorem exists_fills_singleImport {spec : ImportSpec} (h : spec.Legible) :
    ∃ group, group ≠ [] ∧ Fills group (singleImport spec) ∧
      Declares [] [spec] (Token.pushGap ['\n', '\n'] group) := by
  obtain ⟨entry, spells, -, line⟩ := exists_fills_specLine h
  have clause := fills_consSpace (reads_import []) (by simp) line spells.ne_nil
  have tabs : ∀ c ∈ ([] : Text), c = '\t' := by simp
  obtain ⟨cs, gap, comments, doc, cases, whole, -⟩ :=
    exists_comments_above clause (by simp) tabs h.doc
  have text : docLines [] spec.doc ++ ("import".toList ++ ' ' :: specLine spec) =
      singleImport spec := by
    rw [singleImport, List.append_assoc]
    rfl
  rw [text] at whole
  refine ⟨_, by simp [Token.pushGap], whole, ?_⟩
  have path := h.writable.path
  have behind := spells.pushGap [' ']
  cases cs with
  | nil =>
    exact declares_single comments doc (fun some => absurd rfl some) rfl behind path
  | cons c cs =>
    have comments' : ∀ d ∈ ({ c with gap := ['\n', '\n'] ++ c.gap } : Token) :: cs,
        d.isComment = true := by
      simpa [Token.isComment] using comments
    obtain ⟨none, -⟩ | rfl := cases
    · simp at none
    · exact declares_single comments' doc (fun _ => by decide) rfl behind path

theorem exists_fills_groups {groups : List (List ImportSpec)}
    (legible : ∀ group ∈ groups, ∀ spec ∈ group, spec.Legible)
    (dense : ∀ group ∈ groups, ∀ spec ∈ group, ∀ d ∈ spec.doc, Dense d) :
    ∃ group, group ≠ [] ∧
      Fills group ("import (\n".toList ++
        Text.joinWith ['\n'] (groups.map Draft.importGroup) ++ [')']) ∧
      Declares ['\t'] (groups.flatMap fun group => group.mergeSort specLe)
        (Token.pushGap ['\n', '\n'] group) := by
  obtain ⟨ts, closing, entries, -, closes, fills⟩ := (listFilled_groups legible dense).newline
  have paren : Fills (⟨.opening .paren, [], ['('], 0⟩ :: (ts ++ [closing]))
      ('(' :: '\n' :: (Text.joinWith ['\n'] (groups.map Draft.importGroup) ++ [')'])) := by
    refine ⟨by simp [fills.text], Token.blank_nil, ?_, fills.chained⟩
    exact ⟨'(', [], rfl, rfl, rfl⟩
  have whole := fills_consSpace (reads_import []) (by simp) paren (by simp)
  have text : "import (\n".toList ++ Text.joinWith ['\n'] (groups.map Draft.importGroup) ++ [')'] =
      "import".toList ++
        ' ' :: '(' :: '\n' :: (Text.joinWith ['\n'] (groups.map Draft.importGroup) ++ [')']) := by
    rw [List.append_assoc]
    rfl
  rw [text]
  exact ⟨_, List.cons_ne_nil _ _, whole, declares_list rfl rfl closes entries⟩

end Draft

end GoSplit
