import GoSplit.Proofs.Draft.Imports
import GoSplit.Proofs.SourceFile.Printable
import GoSplit.Pruning

/-!
Parsed files as a whole. The imports of a file come first when each of them starts before
every other declaration; then the items are imports followed by declarations, and a file
with complete declarations and plain import paths can be printed.
-/

namespace GoSplit.SourceFile

open Token (Chained Plain Reads)

/-! ### What parsing amounts to -/

/-- What passes a check is there, and the check says so of it. -/
theorem exists_of_toOption_any {ε α : Type} {result : Except ε α} {check : α → Bool}
    (passed : result.toOption.any check = true) : ∃ a, result = .ok a ∧ check a = true := by
  cases result with
  | error e => cases passed
  | ok a => exact ⟨a, rfl, passed⟩

theorem readPackage_eq_ok_iff {size : Nat} {ts rest : List Token} {package : PackageClause} :
    readPackage size ts = .ok (package, rest) ↔
      ∃ keyword cs name after, ts = keyword :: (cs ++ name :: after) ∧
        (∀ c ∈ cs, c.isComment = true) ∧ keyword.isWord "package" = true ∧ name.isName = true ∧
        package = ⟨name.text, keyword.start, name.stop⟩ ∧
        rest = after.drop (sameLineComments after).length := by
  constructor
  · intro h
    unfold readPackage at h
    split at h
    · simp at h
    · next keyword others =>
      split at h
      · next word =>
        split at h
        · simp at h
        · next name after eq =>
          split at h
          · next isName =>
            simp only [Except.ok.injEq, Prod.mk.injEq] at h
            have cut := List.takeWhile_append_dropWhile (p := Token.isComment) (l := others)
            rw [eq] at cut
            refine ⟨keyword, others.takeWhile Token.isComment, name, after, by rw [cut], ?_, word,
              isName, h.1.symm, h.2.symm⟩
            exact fun c mem => List.all_eq_true.1 List.all_takeWhile c mem
          · simp at h
      · simp at h
  · rintro ⟨keyword, cs, name, after, rfl, comments, word, isName, rfl, rfl⟩
    have code : name.isComment = false := by
      simp only [Token.isName, Bool.and_eq_true, beq_iff_eq] at isName
      simp [Token.isComment, isName.1]
    have left : (cs ++ name :: after).dropWhile Token.isComment = name :: after := by
      rw [List.dropWhile_append_of_pos comments]
      simp [code]
    simp [readPackage, word, left, isName]

theorem suffix_of_readPackage {size : Nat} {ts rest : List Token} {package : PackageClause}
    (h : readPackage size ts = .ok (package, rest)) : rest <:+ ts := by
  obtain ⟨keyword, cs, name, after, rfl, -, -, -, -, rfl⟩ := readPackage_eq_ok_iff.1 h
  refine (List.drop_suffix _ after).trans ?_
  exact ⟨keyword :: (cs ++ [name]), by simp⟩

theorem ofTokens_eq_ok_iff {size : Nat} {ts : List Token} {file : SourceFile} :
    ofTokens size ts = .ok file ↔
      ∃ package rest items trailing,
        readPackage size (ts.dropWhile Token.isComment) = .ok (package, rest) ∧
          ItemsOf rest items trailing ∧
          file = ⟨readHeader ts, package, importsOf items, declsOf trailing items, ts⟩ := by
  constructor
  · intro h
    unfold ofTokens at h
    split at h
    · simp at h
    · next package rest found =>
      split at h
      · simp at h
      · next items trailing found' =>
        simp only [Except.ok.injEq] at h
        exact ⟨package, rest, items, trailing, found, itemsOf_of_readItems found', h.symm⟩
  · rintro ⟨package, rest, items, trailing, found, found', rfl⟩
    simp [ofTokens, found, readItems_of_itemsOf found']

theorem ofSource_eq_ok_iff {src : Text} {file : SourceFile} :
    ofSource src = .ok file ↔
      ∃ ts, Token.tokenize src = .ok ts ∧ ofTokens src.byteLength ts = .ok file := by
  unfold ofSource
  cases Token.tokenize src <;> simp

theorem tokens_of_parsed {src : Text} {file : SourceFile} (parsed : ofSource src = .ok file) :
    Token.tokenize src = .ok file.tokens := by
  obtain ⟨ts, tokens, found⟩ := ofSource_eq_ok_iff.1 parsed
  obtain ⟨package, rest, items, trailing, -, -, rfl⟩ := ofTokens_eq_ok_iff.1 found
  exact tokens

theorem parse_eq_ok_iff {name src : Text} {file : SourceFile} :
    parse name src = .ok file ↔ ofSource src = .ok file := by
  unfold parse
  cases ofSource src <;> simp [Except.mapError]

/-! ### Imports first -/

/-- Every import stands before every other declaration. -/
def ImportsFirst (file : SourceFile) : Prop :=
  ∀ i ∈ file.imports, ∀ d ∈ file.decls, i.span.start < d.span.start

instance (file : SourceFile) : Decidable file.ImportsFirst :=
  inferInstanceAs (Decidable (∀ i ∈ file.imports, ∀ d ∈ file.decls, i.span.start < d.span.start))

/-- The items are imports, and declarations behind them. -/
def ImportItemsFirst (items : List Item) : Prop :=
  ∃ imports decls, items = imports ++ decls ∧
    (∀ item ∈ imports, ∃ grouped specs, item.content = .imports grouped specs) ∧
    ∀ item ∈ decls, ∃ heading, item.content = .declares heading

theorem importsOf_append (items others : List Item) :
    importsOf (items ++ others) =
      importsOf items ++ importsOf others := by
  induction items with
  | nil => rfl
  | cons item items ih =>
    rw [List.cons_append, importsOf, importsOf, ih]
    cases item.content <;> rfl

theorem importsOf_eq_nil {items : List Item}
    (declares : ∀ item ∈ items, ∃ heading, item.content = .declares heading) :
    importsOf items = [] := by
  induction items with
  | nil => rfl
  | cons item items ih =>
    obtain ⟨⟨heading, content⟩, others⟩ := List.forall_mem_cons.1 declares
    rw [importsOf, content]
    exact ih others

/-- The imports end where the last token of their last declaration does. -/
theorem bodyStart_of_items {header : Header} {package : PackageClause} {init items : List Item}
    {last : Item} {ds : List Decl} {ts : List Token}
    (isImport : ∃ grouped specs, last.content = .imports grouped specs)
    (declares : ∀ item ∈ items, ∃ heading, item.content = .declares heading) :
    bodyStart ⟨header, package, importsOf (init ++ [last] ++ items), ds, ts⟩ =
      (last.body.getLastD last.keyword).stop := by
  obtain ⟨grouped, specs, content⟩ := isImport
  have final : importsOf [last] =
      [⟨⟨last.keyword.start, (last.body.getLastD last.keyword).stop⟩, grouped, specs⟩] := by
    simp [importsOf, content]
  rw [bodyStart, importsOf_append, importsOf_eq_nil declares, List.append_nil, importsOf_append,
    final, List.getLast?_concat]

theorem mem_importsOf_of_content {items : List Item} {item : Item} (mem : item ∈ items)
    {grouped : Bool} {specs : List ImportSpec} (content : item.content = .imports grouped specs) :
    ∃ i ∈ importsOf items, i.span.start = item.keyword.start := by
  induction items with
  | nil => simp at mem
  | cons first items ih =>
    rcases List.mem_cons.1 mem with rfl | mem
    · exact ⟨_, by rw [importsOf, content]; exact List.mem_cons_self .., rfl⟩
    · obtain ⟨i, memI, start⟩ := ih mem
      refine ⟨i, ?_, start⟩
      unfold importsOf
      split
      · exact List.mem_cons_of_mem _ memI
      · exact memI

theorem mem_declsOf_of_content {items : List Item} {item : Item} (mem : item ∈ items)
    {heading : Heading} (content : item.content = .declares heading) (trailing : List Token) :
    ∃ d ∈ declsOf trailing items, d.span.start = item.keyword.start := by
  induction items with
  | nil => simp at mem
  | cons first items ih =>
    rcases List.mem_cons.1 mem with rfl | mem
    · exact ⟨_, by rw [declsOf, content]; exact List.mem_cons_self .., rfl⟩
    · obtain ⟨d, memD, start⟩ := ih mem
      refine ⟨d, ?_, start⟩
      unfold declsOf
      split
      · exact memD
      · exact List.mem_cons_of_mem _ memD

theorem importItemsFirst_of_pairwise {items : List Item}
    (ordered : items.Pairwise fun a b => a.keyword.start < b.keyword.start)
    (h : ∀ a ∈ items, ∀ b ∈ items, ∀ {grouped specs heading},
      a.content = .imports grouped specs → b.content = .declares heading →
        a.keyword.start < b.keyword.start) : ImportItemsFirst items := by
  induction items with
  | nil => exact ⟨[], [], rfl, by simp, by simp⟩
  | cons item items ih =>
    rw [List.pairwise_cons] at ordered
    obtain ⟨imports, decls, eq, isImport, isDecl⟩ := ih ordered.2 fun a memA b memB =>
      h a (List.mem_cons_of_mem _ memA) b (List.mem_cons_of_mem _ memB)
    cases content : item.content with
    | imports grouped specs =>
      exact ⟨item :: imports, decls, by rw [eq]; rfl,
        List.forall_mem_cons.2 ⟨⟨grouped, specs, content⟩, isImport⟩, isDecl⟩
    | declares heading =>
      -- An import behind this declaration would start before it.
      have none_left : imports = [] := by
        rw [List.eq_nil_iff_forall_not_mem]
        intro item' mem
        obtain ⟨grouped, specs, content'⟩ := isImport item' mem
        have memItems : item' ∈ items := by rw [eq]; exact List.mem_append_left _ mem
        have before := h item' (List.mem_cons_of_mem _ memItems) item (List.mem_cons_self ..)
          content' content
        have behind := ordered.1 item' memItems
        omega
      subst none_left
      exact ⟨[], item :: decls, by rw [eq]; rfl, by simp,
        List.forall_mem_cons.2 ⟨⟨heading, content⟩, isDecl⟩⟩

theorem ItemsOf.pairwise_keyword {ts trailing : List Token} {items : List Item}
    (h : ItemsOf ts items trailing) (ordered : ts.Pairwise fun t u => t.start < u.start) :
    items.Pairwise fun a b => a.keyword.start < b.keyword.start := by
  rw [← h.tokens_append] at ordered
  have inside := (List.pairwise_append.1 ordered).1
  rw [List.pairwise_flatMap] at inside
  refine inside.2.imp ?_
  intro a b all
  exact all a.keyword (by simp [Item.tokens]) b.keyword (by simp [Item.tokens])

/-- In a parsed file the order of the declarations is that of the items. -/
theorem importItemsFirst_of_parsed {src : Text} {ts rest trailing : List Token}
    {items : List Item} (tokens : Token.tokenize src = .ok ts) (suffix : rest <:+ ts)
    (found : ItemsOf rest items trailing)
    (first : ∀ i ∈ importsOf items, ∀ d ∈ declsOf trailing items, i.span.start < d.span.start) :
    ImportItemsFirst items := by
  obtain ⟨tail, -, chained, -, placed⟩ := Token.tokenize_eq_ok_iff.1 tokens
  have ordered := Token.pairwise_start chained placed
  refine importItemsFirst_of_pairwise (found.pairwise_keyword (ordered.sublist suffix.sublist)) ?_
  intro a memA b memB grouped specs heading isImport isDecl
  obtain ⟨i, memI, startI⟩ := mem_importsOf_of_content memA isImport
  obtain ⟨d, memD, startD⟩ := mem_declsOf_of_content memB isDecl trailing
  rw [← startI, ← startD]
  exact first i memI d memD

theorem exists_item_of_import {items : List Item} {i : ImportDecl} (mem : i ∈ importsOf items) :
    ∃ item ∈ items, i.span.start = item.keyword.start := by
  induction items with
  | nil => simp [importsOf] at mem
  | cons first items ih =>
    have later : i ∈ importsOf items →
        ∃ item ∈ first :: items, i.span.start = item.keyword.start := by
      intro mem
      obtain ⟨item, memItem, start⟩ := ih mem
      exact ⟨item, List.mem_cons_of_mem _ memItem, start⟩
    unfold importsOf at mem
    split at mem
    · rcases List.mem_cons.1 mem with rfl | mem
      · exact ⟨first, List.mem_cons_self .., rfl⟩
      · exact later mem
    · exact later mem

theorem exists_item_of_decl {trailing : List Token} {items : List Item} {d : Decl}
    (mem : d ∈ declsOf trailing items) : ∃ item ∈ items, d.span.start = item.keyword.start := by
  induction items with
  | nil => simp [declsOf] at mem
  | cons first items ih =>
    have later : d ∈ declsOf trailing items →
        ∃ item ∈ first :: items, d.span.start = item.keyword.start := by
      intro mem
      obtain ⟨item, memItem, start⟩ := ih mem
      exact ⟨item, List.mem_cons_of_mem _ memItem, start⟩
    unfold declsOf at mem
    split at mem
    · exact later mem
    · rcases List.mem_cons.1 mem with rfl | mem
      · exact ⟨first, List.mem_cons_self .., rfl⟩
      · exact later mem

/-- Imports that come first among the items come first in the file. -/
theorem importsFirst_of_items {src : Text} {ts rest trailing : List Token} {items : List Item}
    (tokens : Token.tokenize src = .ok ts) (suffix : rest <:+ ts)
    (found : ItemsOf rest items trailing) (first : ImportItemsFirst items) :
    ∀ i ∈ importsOf items, ∀ d ∈ declsOf trailing items, i.span.start < d.span.start := by
  obtain ⟨tail, -, chained, -, placed⟩ := Token.tokenize_eq_ok_iff.1 tokens
  have ordered := Token.pairwise_start chained placed
  have keywords := found.pairwise_keyword (ordered.sublist suffix.sublist)
  obtain ⟨imports, decls, rfl, isImport, isDecl⟩ := first
  obtain ⟨-, -, before⟩ := List.pairwise_append.1 keywords
  intro i memI d memD
  rw [importsOf_append, importsOf_eq_nil isDecl, List.append_nil] at memI
  rw [declsOf_append isImport] at memD
  obtain ⟨a, memA, startA⟩ := exists_item_of_import memI
  obtain ⟨b, memB, startB⟩ := exists_item_of_decl memD
  rw [startA, startB]
  exact before a memA b memB

/-! ### Printable files -/

/-- The parts of the file can be written and are found again. -/
structure Printable (file : SourceFile) : Prop where
  header : file.header.Quiet
  package : (∃ rest, Reads .ident file.package.name rest) ∧ isKeyword file.package.name = false
  imports : ∀ spec ∈ file.importSpecs, spec.Writable
  decls : Decl.Printable file.decls

/-- No path that stands between back quotes needs them. -/
def PlainImports (file : SourceFile) : Prop :=
  ∀ spec ∈ file.importSpecs, ∀ t ∈ file.tokens, t.span = spec.literal → t.kind = .rawString →
    Plain spec.path

instance (file : SourceFile) : Decidable file.PlainImports :=
  inferInstanceAs (Decidable (∀ spec ∈ file.importSpecs, ∀ t ∈ file.tokens,
    t.span = spec.literal → t.kind = .rawString → Plain spec.path))

theorem printable_of_items {size : Nat} {ts rest trailing : List Token} {package : PackageClause}
    {items : List Item} {after : Text} (chained : Chained ts after)
    (clause : readPackage size (ts.dropWhile Token.isComment) = .ok (package, rest))
    (found : ItemsOf rest items trailing) (first : ImportItemsFirst items)
    (complete : ∀ d ∈ declsOf trailing items, d.isComplete = true)
    (writable : ∀ spec ∈ (importsOf items).flatMap (·.specs), spec.Writable) :
    Printable ⟨readHeader ts, package, importsOf items, declsOf trailing items, ts⟩ := by
  obtain ⟨keyword, cs, name, behind, eq, -, -, isName, rfl, rfl⟩ := readPackage_eq_ok_iff.1 clause
  have suffix : keyword :: (cs ++ name :: behind) <:+ ts := eq ▸ List.dropWhile_suffix _
  refine ⟨Header.quiet_readHeader chained, ?_, writable, ?_⟩
  · simp only [Token.isName, Bool.and_eq_true, beq_iff_eq, Bool.not_eq_true'] at isName
    have mem : name ∈ ts := suffix.subset (by simp)
    obtain ⟨rest, reads⟩ := chained.reads_of_mem mem
    rw [isName.1] at reads
    exact ⟨⟨rest, reads⟩, isName.2⟩
  · obtain ⟨imports, decls, rfl, isImport, isDecl⟩ := first
    obtain ⟨us, part, foundDecls⟩ := found.suffix_of_append
    have inside : us <:+: ts := by
      refine (part.trans ?_).isInfix
      refine (List.drop_suffix _ behind).trans
        ((List.suffix_append (keyword :: (cs ++ [name])) _).trans ?_)
      simpa using suffix
    obtain ⟨after', chained'⟩ := chained.within inside
    simp only [declsOf_append isImport] at complete ⊢
    exact printable_declsOf foundDecls isDecl complete chained'

/-- A file with complete declarations behind its imports can be printed, provided that its
paths fit between double quotes. -/
theorem printable_of_source {src : Text} {file : SourceFile} (parsed : ofSource src = .ok file)
    (first : file.ImportsFirst) (complete : ∀ d ∈ file.decls, d.isComplete = true)
    (plain : file.PlainImports) : file.Printable := by
  obtain ⟨ts, tokens, found⟩ := ofSource_eq_ok_iff.1 parsed
  obtain ⟨package, rest, items, trailing, clause, itemsOf, rfl⟩ := ofTokens_eq_ok_iff.1 found
  obtain ⟨tail, -, chained, -, -⟩ := Token.tokenize_eq_ok_iff.1 tokens
  have suffix : rest <:+ ts := (suffix_of_readPackage clause).trans (List.dropWhile_suffix _)
  refine printable_of_items chained clause itemsOf
    (importItemsFirst_of_parsed tokens suffix itemsOf first) complete ?_
  intro spec mem
  obtain ⟨item, memItem, grouped, specs, content, memSpec⟩ := mem_importsOf mem
  obtain ⟨rest', read, -⟩ := itemsOf.read memItem
  have here := (Item.found read content spec memSpec).mono (itemsOf.within memItem)
  refine (here.mono suffix.isInfix).writable chained fun t memT kind span => ?_
  exact plain spec mem t memT span kind

end GoSplit.SourceFile
