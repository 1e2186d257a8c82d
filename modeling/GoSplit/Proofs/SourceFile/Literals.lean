import GoSplit.Proofs.SourceFile.Accounting
import GoSplit.Proofs.SourceFile.Formed

/-!
The literals of imports. The entries of a parenthesised import declaration are its string
literals in order, and an import without parentheses has the first one of its line; so the
imports of a file follow each other as their literals do in the source.
-/

namespace GoSplit

open Token (InOrder spanOf)

/-- The string literals among the tokens. -/
def Token.strings (ts : List Token) : List Token := ts.filter Token.isString

namespace Token

variable {t : Token} {ts us : List Token}

theorem isString_of_isComment (comment : t.isComment = true) : t.isString = false := by
  rcases isComment_iff.1 comment with kind | kind <;> simp [isString, kind]

theorem isString_of_isSeparator (separator : t.isSeparator = true) :
    t.isString = false := by
  simp only [isSeparator, Bool.or_eq_true, beq_iff_eq] at separator
  rcases separator with comment | kind
  · exact isString_of_isComment comment
  · simp [isString, kind]

theorem strings_append : strings (ts ++ us) = strings ts ++ strings us := List.filter_append ..

theorem strings_eq_nil (comments : ∀ t ∈ ts, t.isString = false) : strings ts = [] :=
  List.filter_eq_nil_iff.2 fun t mem => by simp [comments t mem]

theorem strings_cons_of_not (other : t.isString = false) : strings (t :: ts) = strings ts :=
  List.filter_cons_of_neg (by simp [other])

theorem strings_cons (string : t.isString = true) : strings (t :: ts) = t :: strings ts :=
  List.filter_cons_of_pos string

theorem isPlain_of_isComment (comment : t.isComment = true) : t.isPlain = true :=
  isPlain_of_isSeparator (by simp [isSeparator, comment])

theorem isPlain_of_isString (string : t.isString = true) : t.isPlain = true := by
  rcases isString_iff.1 string with kind | kind <;> simp [isPlain, kind]

end Token

namespace ImportSpec

variable {first : Token} {rest tokens doc : List Token} {spec : ImportSpec}
  {specs : List ImportSpec}
  {n since : Nat}

/-- An entry has one string literal, its last token. -/
theorem exists_of_read (h : read first rest = .ok (spec, n)) :
    ∃ front literal, first :: rest = front ++ literal :: rest.drop n ∧ literal.isString = true ∧
      spec.literal = literal.span ∧ ∀ t ∈ front, t.isString = false ∧ t.isPlain = true := by
  rcases read_eq_ok_iff.1 h with
    ⟨-, found, rfl⟩ | ⟨kind, comments, literal, others, rfl, all, found, rfl⟩
  · obtain ⟨string, -, rfl⟩ := ofLiteral_eq_ok_iff.1 found
    exact ⟨[], first, rfl, string, rfl, nofun⟩
  · obtain ⟨string, -, rfl⟩ := ofLiteral_eq_ok_iff.1 found
    refine ⟨first :: comments, literal, ?_, string, rfl, ?_⟩
    · rw [List.append_cons, List.drop_left' (by simp)]
      simp
    · refine List.forall_mem_cons.2 ⟨?_, fun t mem => ?_⟩
      · rcases kind with kind | kind <;> simp [Token.isString, Token.isPlain, kind]
      · exact ⟨Token.isString_of_isComment (all t mem), Token.isPlain_of_isComment (all t mem)⟩

/-- Behind an entry its comment is passed over. -/
theorem exists_behind (after : List Token) :
    ∃ comments, after = comments ++ after.drop (if (trailingComment after).isSome then 1 else 0) ∧
      ∀ t ∈ comments, t.isComment = true := by
  cases after with
  | nil => exact ⟨[], by simp, nofun⟩
  | cons c rest =>
    rw [trailingComment]
    split
    · next comment =>
      exact ⟨[c], rfl, List.forall_mem_singleton.2 (Bool.and_eq_true _ _ ▸ comment).1⟩
    · exact ⟨[], rfl, nofun⟩

/-- The entries of a list are its string literals, and nothing in it opens or closes. -/
theorem literals_of_readList (h : readList doc since tokens = .ok specs) :
    specs.map (·.literal) = (Token.strings tokens).map Token.span ∧
      ∀ t ∈ tokens, t.isPlain = true := by
  fun_induction readList doc since tokens generalizing specs with
  | case1 doc since =>
    obtain rfl : [] = specs := by simpa using h
    exact ⟨rfl, by simp⟩
  | case2 doc since t rest comment =>
    rename_i ih
    obtain ⟨listed, plain⟩ := ih h
    rw [Token.strings_cons_of_not (Token.isString_of_isComment comment)]
    exact ⟨listed, List.forall_mem_cons.2 ⟨Token.isPlain_of_isComment comment, plain⟩⟩
  | case3 doc since t rest _ semicolon ih =>
    obtain ⟨listed, plain⟩ := ih h
    have kind : t.kind = .semicolon := by simpa using semicolon
    rw [Token.strings_cons_of_not (by simp [Token.isString, kind])]
    exact ⟨listed, List.forall_mem_cons.2 ⟨by simp [Token.isPlain, kind], plain⟩⟩
  | case4 => simp at h
  | case5 => simp at h
  | case6 doc since t rest _ _ spec n found after comment others readOthers =>
    rename_i ih
    simp only [Except.ok.injEq] at h
    subst h
    obtain ⟨listed, plain⟩ := ih readOthers
    simp only [dite_eq_ite] at listed plain
    obtain ⟨front, literal, cut, string, same, names⟩ := exists_of_read found
    obtain ⟨comments, behind, isComment⟩ := exists_behind after
    have front_none : Token.strings front = [] := Token.strings_eq_nil fun t mem => (names t mem).1
    have comments_none : Token.strings comments = [] :=
      Token.strings_eq_nil fun t mem => Token.isString_of_isComment (isComment t mem)
    have whole : t :: rest = front ++ literal ::
        (comments ++ after.drop (if comment.isSome then 1 else 0)) :=
      behind ▸ cut
    rw [whole]
    constructor
    · rw [Token.strings_append, front_none, List.nil_append, Token.strings_cons string,
        Token.strings_append, comments_none, List.nil_append, List.map_cons, List.map_cons,
        listed, same]
    · intro u mem
      simp only [List.mem_append, List.mem_cons] at mem
      obtain mem | rfl | mem | mem := mem
      · exact (names u mem).2
      · exact Token.isPlain_of_isString string
      · exact Token.isPlain_of_isComment (isComment u mem)
      · exact plain u mem

end ImportSpec

namespace SourceFile

variable {keyword : Token} {before rest body after leading : List Token} {detached grouped : Bool}
  {specs : List ImportSpec} {item : Item}

/-- A group that closes does so with its last token. -/
theorem strings_of_group {opener : Token} (opening : opener.kind = .opening .paren)
    (closed : Balances [] (opener :: rest)) (plain : ∀ t ∈ rest.dropLast, t.isPlain = true) :
    Token.strings (opener :: rest) = Token.strings rest.dropLast := by
  rw [balances_opening opening] at closed
  rw [Token.strings_cons_of_not (by simp [Token.isString, opening])]
  rcases List.eq_nil_or_concat' rest with rfl | ⟨inner, last, rfl⟩
  · rfl
  rw [List.dropLast_concat] at plain ⊢
  have inside : Balances [] inner := balances_of_plain plain
  have ends : Balances [.paren] [last] := (balances_append_iff inside).1 closed
  have other : last.isString = false := by
    by_contra string
    rw [Bool.not_eq_false] at string
    rw [balances_plain (Token.isPlain_of_isString string)] at ends
    cases ends
  rw [Token.strings_append, Token.strings_cons_of_not other]
  exact List.append_nil _

/-- A parenthesised import declaration has an entry for every string literal, another one an
entry for the first. -/
theorem literals_of_readSpecs (closed : Balances [] body)
    (h : ImportDecl.readSpecs keyword leading detached body after = .ok (grouped, specs)) :
    specs.map (·.literal) =
      (if grouped then Token.strings body else (Token.strings body).take 1).map Token.span := by
  have cut := List.takeWhile_append_dropWhile (p := Token.isComment) (l := body)
  have comments : ∀ t ∈ body.takeWhile Token.isComment, t.isComment = true :=
    fun t mem => List.all_eq_true.1 List.all_takeWhile t mem
  have skipped : Token.strings body = Token.strings (body.dropWhile Token.isComment) := by
    conv_lhs => rw [← cut]
    rw [Token.strings_append,
      Token.strings_eq_nil fun t mem => Token.isString_of_isComment (comments t mem),
      List.nil_append]
  have inside : Balances [] (body.dropWhile Token.isComment) := by
    have front : Balances [] (body.takeWhile Token.isComment) :=
      balances_of_plain fun t mem => Token.isPlain_of_isComment (comments t mem)
    rw [← cut] at closed
    exact (balances_append_iff front).1 closed
  unfold ImportDecl.readSpecs at h
  rw [skipped]
  split at h
  · cases h
  · next first rest eq =>
    rw [eq] at inside ⊢
    split at h
    · next opening =>
      cases read : ImportSpec.readList [] 0 rest.dropLast with
      | error fault => simp [read, Except.map] at h
      | ok found =>
        obtain ⟨rfl, rfl⟩ : true = grouped ∧ found = specs := by simpa [read, Except.map] using h
        obtain ⟨listed, plain⟩ := ImportSpec.literals_of_readList read
        rw [if_pos rfl, listed, strings_of_group opening inside plain]
    · split at h
      · cases h
      · next spec n read =>
        obtain ⟨front, literal, whole, string, same, names⟩ := ImportSpec.exists_of_read read
        simp only [Except.ok.injEq, Prod.mk.injEq] at h
        obtain ⟨rfl, rfl⟩ := h
        have strings : Token.strings (first :: rest) = literal :: Token.strings (rest.drop n) := by
          rw [whole, Token.strings_append, Token.strings_eq_nil fun t mem => (names t mem).1,
            List.nil_append, Token.strings_cons string]
        simp [strings, same]

/-! ### Imports of a file -/

/-- The entries of an import item are literals of its tokens. -/
theorem Item.literals (read : Item.read before keyword rest = .ok item)
    (imports : item.content = .imports grouped specs) :
    specs.map (·.literal) =
      (if grouped then Token.strings item.core else (Token.strings item.core).take 1).map
        Token.span := by
  obtain ⟨-, same⟩ := Item.read_before_keyword read
  obtain ⟨body, after, terminated, -, extent, contents, ends⟩ := Item.exists_of_read read
  obtain ⟨behind, whole, separators⟩ := ends.exists_behind
  have closed : Balances [] body := by
    have found := balances_of_extentFrom .nil extent
    rwa [List.take_left] at found
  have word : item.keyword.isString = false := by
    rw [same, Token.isString, (Item.starts_cases (Item.read_eq_ok_iff.1 read).1).1]
    rfl
  have strings : Token.strings item.core = Token.strings body := by
    rw [Item.core, Token.strings_cons_of_not word, whole, Token.strings_append,
      Token.strings_eq_nil fun t mem => Token.isString_of_isSeparator (separators t mem),
      List.append_nil]
  rw [imports] at contents
  unfold Item.readContent at contents
  split at contents
  · cases found : ImportDecl.readSpecs keyword (Item.leadingComments before)
        (decide (2 ≤ Item.newlinesBelowComments before keyword)) body after with
    | error fault => simp [found, Except.map] at contents
    | ok found' =>
      simp only [found, Except.map, Except.ok.injEq, Item.Content.imports.injEq] at contents
      obtain ⟨rfl, rfl⟩ := contents
      rw [strings]
      exact literals_of_readSpecs closed found
  · cases found : Heading.read keyword body after <;> simp [found, Except.map] at contents

/-- A run of tokens in order holds all those that its span covers. -/
theorem filter_covers {front run behind : List Token} (h : InOrder (front ++ (run ++ behind)))
    (some : run ≠ []) :
    (front ++ (run ++ behind)).filter (fun t => (spanOf run).covers t.span) = run := by
  obtain ⟨⟨first, memFirst, start⟩, last, memLast, stop⟩ := Token.exists_ends_of_spanOf some
  obtain ⟨-, inner, earlier⟩ := List.pairwise_append.1 h.2
  obtain ⟨-, -, later⟩ := List.pairwise_append.1 inner
  have none_before : front.filter (fun t => (spanOf run).covers t.span) = [] := by
    refine List.filter_eq_nil_iff.2 fun t mem covers => ?_
    have near := (Span.covers_iff.1 covers).1
    have apart := earlier t mem first (List.mem_append_left _ memFirst)
    have wide := h.1 t (List.mem_append_left _ mem)
    simp only [Token.span] at near
    omega
  have none_behind : behind.filter (fun t => (spanOf run).covers t.span) = [] := by
    refine List.filter_eq_nil_iff.2 fun t mem covers => ?_
    have far := (Span.covers_iff.1 covers).2
    have apart := later last memLast t mem
    have wide := h.1 t (by simp [mem])
    simp only [Token.span] at far
    omega
  have all_inside : run.filter (fun t => (spanOf run).covers t.span) = run :=
    List.filter_eq_self.2 fun t mem =>
      (h.sublist ((List.sublist_append_left run behind).trans
        (List.sublist_append_right front _))).covers_of_mem mem
  rw [List.filter_append, List.filter_append, none_before, none_behind, all_inside, List.nil_append,
    List.append_nil]

theorem exists_item_of_mem_importsOf {items : List Item} {i : ImportDecl}
    (mem : i ∈ importsOf items) :
    ∃ item ∈ items, item.content = .imports i.grouped i.specs ∧ i.span = spanOf item.core := by
  induction items with
  | nil => cases mem
  | cons item items ih =>
    have later : i ∈ importsOf items →
        ∃ found ∈ item :: items, found.content = .imports i.grouped i.specs ∧
          i.span = spanOf found.core :=
      fun mem => (ih mem).imp fun _ found => ⟨List.mem_cons_of_mem _ found.1, found.2⟩
    unfold importsOf at mem
    split at mem
    · next grouped specs content =>
      rcases List.mem_cons.1 mem with rfl | mem
      · exact ⟨item, List.mem_cons_self, content, rfl⟩
      · exact later mem
    · exact later mem

/-- The items of a parsed file lie among its tokens. -/
theorem exists_items {src : Text} {file : SourceFile} (parsed : ofSource src = .ok file) :
    ∃ rest items trailing, InOrder file.tokens ∧ rest <:+ file.tokens ∧
      ItemsOf rest items trailing ∧
      file.imports = importsOf items := by
  obtain ⟨clause, name, after, items, trailing, whole, -, -, itemsOf, imported, -, tokens⟩ :=
    exists_clause parsed
  refine ⟨_, items, trailing, Token.inOrder_of_tokenize tokens, ?_, itemsOf, imported⟩
  rw [whole]
  exact (List.drop_suffix _ after).trans ⟨clause ++ [name], by simp⟩

/-- An import declaration has an entry for every string literal that it spans, or for the first
one if it has no parentheses. -/
theorem literals_of_parsed {src : Text} {file : SourceFile} (parsed : ofSource src = .ok file)
    {i : ImportDecl} (mem : i ∈ file.imports) :
    i.specs.map (·.literal) =
      (if i.grouped then file.tokens.filter fun t => t.isString && i.span.covers t.span
        else (file.tokens.filter fun t => t.isString && i.span.covers t.span).take 1).map
          Token.span := by
  obtain ⟨rest, items, trailing, inOrder, suffix, itemsOf, imported⟩ := exists_items parsed
  rw [imported] at mem
  obtain ⟨item, isItem, content, span⟩ := exists_item_of_mem_importsOf mem
  obtain ⟨_, read, -⟩ := itemsOf.read isItem
  have core : item.core <:+: item.tokens :=
    ⟨item.before, item.closing, by simp [Item.tokens, Item.core]⟩
  obtain ⟨front, behind, whole⟩ := (core.trans (itemsOf.within isItem)).trans suffix.isInfix
  rw [List.append_assoc] at whole
  have inside : file.tokens.filter (fun t => t.isString && i.span.covers t.span) =
      Token.strings item.core := by
    have some : item.core ≠ [] := List.cons_ne_nil _ _
    rw [← List.filter_filter, span, ← whole, filter_covers (whole ▸ inOrder) some]
    rfl
  rw [inside]
  exact Item.literals read content

theorem literals_sublist {items : List Item} (read : ∀ item ∈ items, ∃ before keyword rest,
    Item.read before keyword rest = .ok item) :
    (((importsOf items).flatMap (·.specs)).map (·.literal)).Sublist
      ((items.flatMap Item.tokens).map Token.span) := by
  induction items with
  | nil => exact List.Sublist.refl _
  | cons item items ih =>
    obtain ⟨⟨before, keyword, rest, here⟩, others⟩ := List.forall_mem_cons.1 read
    rw [List.flatMap_cons, List.map_append]
    unfold importsOf
    split
    · next grouped specs content =>
      rw [List.flatMap_cons, List.map_append]
      refine List.Sublist.append ?_ (ih others)
      have inside : (Token.strings item.core).Sublist item.tokens :=
        List.filter_sublist.trans (List.IsInfix.sublist
          ⟨item.before, item.closing, by simp [Item.tokens, Item.core]⟩)
      rw [Item.literals here content]
      split
      · exact inside.map _
      · exact ((List.take_sublist 1 _).trans inside).map _
    · exact (ih others).trans (List.sublist_append_right _ _)

/-- The entries of a file stand in order. -/
theorem ordered_of_parsed {src : Text} {file : SourceFile} (parsed : ofSource src = .ok file) :
    (file.importSpecs.map (·.literal)).Pairwise fun a b => a.stop ≤ b.start := by
  obtain ⟨rest, items, trailing, inOrder, suffix, itemsOf, imported⟩ := exists_items parsed
  have listed := literals_sublist fun item isItem => by
    obtain ⟨behind, read, -⟩ := itemsOf.read isItem
    exact ⟨item.before, item.keyword, behind, read⟩
  have among : (items.flatMap Item.tokens).Sublist file.tokens :=
    (itemsOf.tokens_append ▸ List.sublist_append_left _ trailing).trans suffix.sublist
  rw [importSpecs, imported]
  exact (List.pairwise_map.2 inOrder.2).sublist (listed.trans (among.map _))

end SourceFile

end GoSplit
