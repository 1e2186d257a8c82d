import GoSplit.Proofs.Selector.Code
import GoSplit.Pruning

/-!
The package names a parsed file uses. Behind the imports there is nothing but declarations, so
these names are the selectors of the declarations, one after the other.
-/

namespace GoSplit

open Token (Chained)

namespace SourceFile

theorem filter_behind {front back : List Token} {z : Token}
    (ordered : (front ++ z :: back).Pairwise fun t u => t.stop ≤ u.start)
    (solid : ∀ t ∈ front ++ [z], t.start < t.stop) :
    (front ++ z :: back).filter (fun t => decide (z.stop ≤ t.start)) = back := by
  obtain ⟨-, rest, before⟩ := List.pairwise_append.1 ordered
  obtain ⟨behind, -⟩ := List.pairwise_cons.1 rest
  have none : front.filter (fun t => decide (z.stop ≤ t.start)) = [] := by
    rw [List.filter_eq_nil_iff]
    intro t mem
    have left := before t mem z (List.mem_cons_self ..)
    have here := solid t (List.mem_append_left _ mem)
    have last := solid z (List.mem_append_right _ (List.mem_singleton_self z))
    simp only [decide_eq_true_eq]
    omega
  have here := solid z (List.mem_append_right _ (List.mem_singleton_self z))
  rw [List.filter_append, none, List.nil_append, List.filter_cons_of_neg (by simpa using here),
    List.filter_eq_self]
  exact fun t mem => decide_eq_true (behind t mem)

/-- Behind the imports there are the items of the declarations. -/
theorem exists_declItems {src : Text} {file : SourceFile} (parsed : ofSource src = .ok file)
    (first : file.ImportsFirst) :
    ∃ separators us items trailing,
      file.tokens.filter (fun t => decide (file.bodyStart ≤ t.start)) = separators ++ us ∧
      (∀ t ∈ separators, t.isSeparator = true) ∧ ItemsOf us items trailing ∧
      (∀ item ∈ items, ∃ heading, item.content = .declares heading) ∧
      file.decls = declsOf trailing items := by
  obtain ⟨ts, tokens, found⟩ := ofSource_eq_ok_iff.1 parsed
  obtain ⟨package, rest, items, trailing, clause, itemsOf, rfl⟩ := ofTokens_eq_ok_iff.1 found
  obtain ⟨tail, -, chained, -, placed⟩ := Token.tokenize_eq_ok_iff.1 tokens
  have ordered := Token.pairwise_place 0 ts
  rw [placed] at ordered
  have suffix : rest <:+ ts := (suffix_of_readPackage clause).trans (List.dropWhile_suffix _)
  obtain ⟨imports, decls, rfl, isImport, isDecl⟩ :=
    importItemsFirst_of_parsed tokens suffix itemsOf first
  -- The tokens behind the last one of the imports, or of the package clause.
  have behind : ∀ {front back : List Token} {z : Token}, ts = front ++ z :: back →
      ts.filter (fun t => decide (z.stop ≤ t.start)) = back := by
    intro front back z cut
    rw [cut] at ordered
    conv => lhs; rw [cut]
    refine filter_behind ordered fun t mem => chained.start_lt_stop ?_
    rw [cut]
    rcases List.mem_append.1 mem with mem | mem
    · exact List.mem_append_left _ mem
    · exact List.mem_append_right _ (List.mem_singleton.1 mem ▸ List.mem_cons_self ..)
  rcases List.eq_nil_or_concat imports with rfl | ⟨init, last, rfl⟩
  · obtain ⟨keyword, cs, name, after, eq, -, -, -, rfl, rfl⟩ := readPackage_eq_ok_iff.1 clause
    obtain ⟨before, cut⟩ : ∃ before, ts = before ++ name :: after := by
      obtain ⟨before, cut⟩ := List.dropWhile_suffix (l := ts) Token.isComment
      rw [eq] at cut
      exact ⟨before ++ keyword :: cs, by simp [← cut]⟩
    refine ⟨sameLineComments after, after.drop (sameLineComments after).length, decls, trailing,
      ?_, ?_, itemsOf, isDecl, rfl⟩
    · rw [sameLineComments_append_drop]
      simp only [bodyStart, List.nil_append, importsOf_eq_nil isDecl, List.getLast?_nil]
      exact behind cut
    · intro t mem
      simp [Token.isSeparator, (sameLine_sameLineComments after t mem).1]
  · rw [List.concat_eq_append] at isImport itemsOf ⊢
    obtain ⟨rest', read, -⟩ := itemsOf.read (show last ∈ init ++ [last] ++ decls by simp)
    obtain ⟨us, -, others⟩ := itemsOf.suffix_of_append
    refine ⟨last.closing, us, decls, trailing, ?_, Item.closing_separators read, others, isDecl,
      declsOf_append isImport trailing decls⟩
    have stop := @bodyStart_of_items (readHeader ts) package init decls last
      (declsOf trailing (init ++ [last] ++ decls)) ts (isImport last (by simp)) isDecl
    obtain ⟨front, cut⟩ := suffix
    have whole := itemsOf.tokens_append
    rw [List.flatMap_append, List.append_assoc, others.tokens_append, List.flatMap_append,
      List.flatMap_singleton, Item.tokens] at whole
    rw [stop]
    rcases List.eq_nil_or_concat last.body with none | ⟨body, z, eq⟩
    · rw [none, List.getLastD_nil]
      apply @behind (front ++ (init.flatMap Item.tokens ++ last.before))
      rw [← cut, ← whole, none]
      simp
    · rw [eq, List.concat_eq_append, List.getLastD_concat]
      apply @behind (front ++ (init.flatMap Item.tokens ++ (last.before ++ last.keyword :: body)))
      rw [← cut, ← whole, eq]
      simp

theorem nodup_starts {src : Text} {ts us : List Token} (tokens : Token.tokenize src = .ok ts)
    (sublist : us.Sublist ts) : ((Token.withoutComments us).map Token.start).Nodup := by
  obtain ⟨tail, -, chained, -, placed⟩ := Token.tokenize_eq_ok_iff.1 tokens
  have ordered := (Token.pairwise_start chained placed).sublist sublist
  rw [Token.withoutComments, Token.go_starts]
  exact List.Pairwise.map Token.start (fun t u lt => Nat.ne_of_lt lt)
    (ordered.sublist List.filter_sublist)

/-- A declaration is one piece of the file. -/
theorem tokens_within {trailing : List Token} {items : List Item} {d : Decl}
    (mem : d ∈ declsOf trailing items) : d.tokens <:+: items.flatMap Item.tokens ++ trailing := by
  induction items with
  | nil => simp [declsOf] at mem
  | cons item items ih =>
    have later : d ∈ declsOf trailing items →
        d.tokens <:+: (item :: items).flatMap Item.tokens ++ trailing := by
      intro mem
      refine (ih mem).trans ⟨item.tokens, [], ?_⟩
      simp
    rw [declsOf] at mem
    split at mem
    · exact later mem
    · next heading content =>
      rcases List.mem_cons.1 mem with rfl | mem
      · obtain ⟨front, eq⟩ := item.leading_suffix
        simp only [Decl.tokens]
        split
        · obtain ⟨left, rest⟩ := List.takeWhile_prefix (l := trailing) Token.isComment
          refine ⟨front, left, ?_⟩
          conv => rhs; rw [← rest]
          simp [Item.tokens, Item.leadingComments, ← eq]
        · refine ⟨front, item.closing ++ (items.flatMap Item.tokens ++ trailing), ?_⟩
          simp [Item.tokens, ← eq]
      · exact later mem

/-- The tokens of a declaration are one piece of those of the file. -/
theorem decl_within {src : Text} {file : SourceFile} (parsed : ofSource src = .ok file) {d : Decl}
    (mem : d ∈ file.decls) : d.tokens <:+: file.tokens := by
  obtain ⟨ts, tokens, found⟩ := ofSource_eq_ok_iff.1 parsed
  obtain ⟨package, rest, items, trailing, clause, itemsOf, rfl⟩ := ofTokens_eq_ok_iff.1 found
  have suffix : rest <:+ ts := (suffix_of_readPackage clause).trans (List.dropWhile_suffix _)
  have piece := tokens_within mem
  rw [itemsOf.tokens_append] at piece
  exact piece.trans suffix.isInfix

/-- The names a file uses are the selectors of its declarations, and what stands around the
code of a declaration adds nothing to its selectors. -/
theorem usedPackages_eq {src : Text} {file : SourceFile} (parsed : ofSource src = .ok file)
    (first : file.ImportsFirst) (form : ∀ d ∈ file.decls, Selector.hasForm d.code = true)
    (binds : ∀ d ∈ file.decls, Selector.bindsInBlocks ⟨0, 0⟩ d.code = true) :
    file.usedPackages = file.decls.flatMap (fun d => packageSelectors d.code) ∧
      ∀ d ∈ file.decls, packageSelectors (Token.withoutComments d.tokens) =
        packageSelectors d.code := by
  have tokens := tokens_of_parsed parsed
  obtain ⟨separators, us, items, trailing, behind, all, itemsOf, declares, decls⟩ :=
    exists_declItems parsed first
  rw [decls] at form binds ⊢
  obtain ⟨whole, alone⟩ := declared_of_items itemsOf declares form binds
  constructor
  · have declared := Selector.declared_separators all whole []
    have distinct := nodup_starts tokens
      (List.filter_sublist (p := fun t => decide (file.bodyStart ≤ t.start)))
    rw [usedPackages, behind]
    rw [behind] at distinct
    rw [Token.withoutComments] at distinct ⊢
    rw [Selector.packageSelectors_declared declared distinct, List.flatMap_map]
  · intro d mem
    have inside : d.tokens.Sublist file.tokens := (decl_within parsed (decls ▸ mem)).sublist
    rw [Selector.packageSelectors_declared (alone d mem) (nodup_starts tokens inside)]
    simp

end SourceFile

end GoSplit
