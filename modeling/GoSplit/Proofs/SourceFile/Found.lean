import GoSplit.Proofs.SourceFile.Items
import GoSplit.Proofs.Token.Quiet

/-!
Where the parts of a parsed file come from. Local names, paths and comments of an import
are texts of tokens, comments above it are texts of neighbouring comments, and so are
the texts of a header. As texts of comments all of them are quiet.
-/

namespace GoSplit

open Token (Chained Quiet Reads)

theorem Token.Chained.within {ts us : List Token} {after : Text} (h : Chained ts after)
    (inside : us <:+: ts) : ∃ after', Chained us after' := by
  obtain ⟨before, behind, rfl⟩ := inside
  rw [Token.chained_append, Token.chained_append] at h
  exact ⟨_, h.1.2⟩

theorem Token.Chained.reads_of_mem {ts : List Token} {after : Text} (h : Chained ts after)
    {t : Token} (mem : t ∈ ts) : ∃ rest, Reads t.kind t.text rest := by
  obtain ⟨before, behind, rfl⟩ := List.append_of_mem mem
  exact ⟨_, (Token.chained_append.1 h).2.2.1⟩

theorem Token.Chained.quiet_text {ts : List Token} {after : Text} (h : Chained ts after)
    {t : Token} (mem : t ∈ ts) (comment : t.isComment = true) : Quiet t.text := by
  obtain ⟨rest, reads⟩ := h.reads_of_mem mem
  have leaves := Token.run_comment reads
  rcases Token.isComment_iff.1 comment with kind | kind
  · exact .inr (leaves.1 kind)
  · exact .inl (leaves.2 kind)

/-! ### Headers -/

namespace Header

/-- All texts of the header consist of comments. -/
structure Quiet (header : Header) : Prop where
  comments : ∀ text ∈ header.comments, Token.Quiet text
  buildConstraints : ∀ text ∈ header.buildConstraints, Token.Quiet text
  packageDoc : ∀ text ∈ header.packageDoc, Token.Quiet text

/-- Groups leave out no comment and keep them in order. -/
theorem groups_flatten (cs : List Token) : (groups cs).flatten = cs := by
  induction cs with
  | nil => rfl
  | cons t ts ih =>
    cases ts with
    | nil => rfl
    | cons next others =>
      cases found : groups (next :: others) with
      | nil => simp [found] at ih
      | cons group rest =>
        rw [found] at ih
        unfold groups
        simp only [found]
        split <;> simpa using ih

theorem groups_cons {c d : Token} {ts g : List Token} {gs : List (List Token)}
    (found : groups (d :: ts) = g :: gs) :
    groups (c :: d :: ts) =
      if d.gap.hasBlankLine then [c] :: g :: gs else (c :: g) :: gs := by
  unfold groups
  simp only [found]

theorem quiet_ofGroups {after : Text} {gs : List (List Token)} (attached : Bool)
    (h : Chained gs.flatten after) (comments : ∀ c ∈ gs.flatten, c.isComment = true) :
    Quiet (ofGroups attached gs) := by
  induction gs with
  | nil => exact ⟨by simp [ofGroups, empty], by simp [ofGroups, empty], by simp [ofGroups, empty]⟩
  | cons group others ih =>
    rw [List.flatten_cons] at h comments
    obtain ⟨first, rest⟩ := Token.chained_append.1 h
    have these : ∀ c ∈ group, c.isComment = true := fun c mem => comments c (by simp [mem])
    have later := ih rest fun c mem => comments c (List.mem_append_right _ mem)
    have whole : Token.Quiet (Token.spell group) := first.quiet_spell these
    rw [ofGroups, addGroup]
    split
    · refine ⟨later.comments, ?_, later.packageDoc⟩
      intro text mem
      rcases List.mem_append.1 mem with mem | mem
      · obtain ⟨t, memT, rfl⟩ := List.mem_map.1 mem
        exact (first.quiet_text memT (these t memT)).trimEnd
      · exact later.buildConstraints text mem
    · split
      · exact ⟨later.comments, later.buildConstraints, by simpa using whole⟩
      · refine ⟨?_, later.buildConstraints, later.packageDoc⟩
        intro text mem
        rcases List.mem_cons.1 mem with rfl | mem
        · exact whole
        · exact later.comments text mem

theorem quiet_readHeader {ts : List Token} {after : Text} (h : Chained ts after) :
    Quiet (SourceFile.readHeader ts) := by
  unfold SourceFile.readHeader
  split
  · exact ⟨by simp [empty], by simp [empty], by simp [empty]⟩
  · have cut := List.takeWhile_append_dropWhile (p := Token.isComment) (l := ts)
    rw [← cut] at h
    have first := (Token.chained_append.1 h).1
    rw [← groups_flatten (ts.takeWhile Token.isComment)] at first
    refine quiet_ofGroups _ first ?_
    rw [groups_flatten]
    exact fun c mem => List.all_eq_true.1 List.all_takeWhile c mem

end Header

/-! ### Imports -/

namespace ImportSpec

/-- The parts of the entry are texts of the tokens. -/
structure Found (ts : List Token) (spec : ImportSpec) : Prop where
  localName : ∀ name ∈ spec.localName,
    ∃ t ∈ ts, (t.kind = .ident ∨ t.kind = .dot) ∧ t.text = name
  path : ∃ t ∈ ts, t.isString = true ∧ t.span = spec.literal ∧ t.text.tail.dropLast = spec.path
  path_ne_nil : spec.path ≠ []
  doc : ∀ text ∈ spec.doc, ∃ cs, cs <:+: ts ∧ (∀ c ∈ cs, c.isComment = true) ∧
    text = Token.spell cs
  comment : ∀ text ∈ spec.comment, ∃ t ∈ ts, t.isComment = true ∧ t.text = text

theorem Found.mono {ts us : List Token} {spec : ImportSpec} (h : Found ts spec)
    (inside : ts <:+: us) : Found us spec where
  localName := fun name mem => by
    obtain ⟨t, memT, rest⟩ := h.localName name mem
    exact ⟨t, inside.subset memT, rest⟩
  path := by
    obtain ⟨t, memT, rest⟩ := h.path
    exact ⟨t, inside.subset memT, rest⟩
  path_ne_nil := h.path_ne_nil
  doc := fun text mem => by
    obtain ⟨cs, part, rest⟩ := h.doc text mem
    exact ⟨cs, part.trans inside, rest⟩
  comment := fun text mem => by
    obtain ⟨t, memT, rest⟩ := h.comment text mem
    exact ⟨t, inside.subset memT, rest⟩

theorem pathOf_eq_ok_iff {literal : Token} {path : Text} :
    pathOf literal = .ok path ↔
      literal.isString = true ∧ literal.text.tail.dropLast = path ∧ path ≠ [] := by
  unfold pathOf
  by_cases string : literal.isString = true
  · simp only [string, true_and]
    rcases Token.isString_iff.1 string with kind | kind <;> rw [kind]
    all_goals
      cases literal.text.tail.dropLast with
      | nil =>
        simp only [reduceCtorEq, false_iff]
        rintro ⟨rfl, some⟩
        exact some rfl
      | cons c cs =>
        simp only [Except.ok.injEq]
        constructor
        · rintro rfl
          exact ⟨rfl, by simp⟩
        · exact fun h => h.1
  · have other := mt Token.isString_iff.2 string
    split
    · next kind => exact absurd (.inl kind) other
    · next kind => exact absurd (.inr kind) other
    · simp [string]

theorem ofLiteral_eq_ok_iff {name : Option Text} {literal : Token} {spec : ImportSpec} :
    ofLiteral name literal = .ok spec ↔
      literal.isString = true ∧ literal.text.tail.dropLast ≠ [] ∧
        spec = ⟨name, literal.text.tail.dropLast, literal.span, none, none⟩ := by
  unfold ofLiteral
  cases found : pathOf literal with
  | error fault =>
    simp only [reduceCtorEq, false_iff]
    rintro ⟨string, some, -⟩
    have := pathOf_eq_ok_iff.2 ⟨string, rfl, some⟩
    simp [found] at this
  | ok path =>
    obtain ⟨string, rfl, some⟩ := pathOf_eq_ok_iff.1 found
    simp only [Except.ok.injEq, string, some, ne_eq, not_false_eq_true, true_and]
    exact eq_comm

/-- What an entry consists of: a literal, with a local name in front of it or not. -/
theorem read_eq_ok_iff {first : Token} {rest : List Token} {spec : ImportSpec} {n : Nat} :
    read first rest = .ok (spec, n) ↔
      (¬ (first.kind = .ident ∨ first.kind = .dot) ∧ ofLiteral none first = .ok spec ∧ n = 0) ∨
        (first.kind = .ident ∨ first.kind = .dot) ∧ ∃ comments literal others,
          rest = comments ++ literal :: others ∧ (∀ c ∈ comments, c.isComment = true) ∧
            ofLiteral (some first.text) literal = .ok spec ∧ n = comments.length + 1 := by
  have named (kind : first.kind = .ident ∨ first.kind = .dot) : read first rest = .ok (spec, n) ↔
      ∃ comments literal others, rest = comments ++ literal :: others ∧
        (∀ c ∈ comments, c.isComment = true) ∧ ofLiteral (some first.text) literal = .ok spec ∧
          n = comments.length + 1 := by
    constructor
    · intro h
      cases eq : rest.dropWhile Token.isComment with
      | nil => rcases kind with kind | kind <;> simp [read, kind, eq] at h
      | cons literal others =>
        have cut := List.takeWhile_append_dropWhile (p := Token.isComment) (l := rest)
        rw [eq] at cut
        have taken : (ofLiteral (some first.text) literal).map (fun spec =>
            (spec, (rest.takeWhile Token.isComment).length + 1)) = .ok (spec, n) := by
          rcases kind with kind | kind <;> simpa only [read, kind, eq] using h
        cases found : ofLiteral (some first.text) literal with
        | error fault => simp [found, Except.map] at taken
        | ok spec' =>
          simp only [found, Except.map, Except.ok.injEq, Prod.mk.injEq] at taken
          obtain ⟨rfl, rfl⟩ := taken
          exact ⟨_, literal, others, cut.symm,
            fun c mem => List.all_eq_true.1 List.all_takeWhile c mem, found, rfl⟩
    · rintro ⟨comments, literal, others, rfl, all, found, rfl⟩
      have code : literal.isComment = false := by
        have string := (ofLiteral_eq_ok_iff.1 found).1
        rcases Token.isString_iff.1 string with kind | kind <;> simp [Token.isComment, kind]
      have skipped : (comments ++ literal :: others).dropWhile Token.isComment =
          literal :: others := by
        rw [List.dropWhile_append_of_pos all, List.dropWhile_cons_of_neg (by simp [code])]
      have passed : (comments ++ literal :: others).takeWhile Token.isComment = comments := by
        rw [List.takeWhile_append_of_pos all, List.takeWhile_cons_of_neg (by simp [code]),
          List.append_nil]
      rcases kind with kind | kind <;> simp [read, kind, skipped, passed, found, Except.map]
  have alone : (ofLiteral none first).map (fun spec => (spec, 0)) = .ok (spec, n) ↔
      ofLiteral none first = .ok spec ∧ n = 0 := by
    cases ofLiteral none first <;> simp [Except.map, eq_comm]
  by_cases kind : first.kind = .ident ∨ first.kind = .dot
  · rw [named kind]
    exact ⟨fun h => .inr ⟨kind, h⟩, fun h => (h.resolve_left fun h => h.1 kind).2⟩
  · have bare : read first rest = (ofLiteral none first).map fun spec => (spec, 0) := by
      unfold read
      split
      · next ident => exact absurd (.inl ident) kind
      · next dot => exact absurd (.inr dot) kind
      · rfl
    rw [bare, alone]
    exact ⟨fun h => .inl ⟨kind, h⟩, fun h => (h.resolve_right fun h => kind h.1).2⟩

theorem found_of_read {first : Token} {rest ts : List Token} {spec : ImportSpec} {n : Nat}
    (h : read first rest = .ok (spec, n)) (inside : ∀ t ∈ first :: rest, t ∈ ts)
    {doc comment : Option Text}
    (above : ∀ text ∈ doc, ∃ cs, cs <:+: ts ∧ (∀ c ∈ cs, c.isComment = true) ∧
      text = Token.spell cs)
    (behind : ∀ text ∈ comment, ∃ t ∈ ts, t.isComment = true ∧ t.text = text) :
    Found ts { spec with doc, comment } := by
  rcases read_eq_ok_iff.1 h with ⟨-, found, -⟩ | ⟨kind, cs, literal, others, rfl, -, found, -⟩
  · obtain ⟨string, some, rfl⟩ := ofLiteral_eq_ok_iff.1 found
    exact ⟨by simp, ⟨first, inside _ (by simp), string, rfl, rfl⟩, some, above, behind⟩
  · obtain ⟨string, some, rfl⟩ := ofLiteral_eq_ok_iff.1 found
    refine ⟨?_, ⟨literal, inside _ (by simp), string, rfl, rfl⟩, some, above, behind⟩
    simpa using ⟨first, inside _ (by simp), kind, rfl⟩

theorem found_trailingComment {ts : List Token} {text : Text}
    (h : text ∈ trailingComment ts) : ∃ t ∈ ts, t.isComment = true ∧ t.text = text := by
  unfold trailingComment at h
  split at h
  · next t rest =>
    split at h
    · next comment =>
      rw [Bool.and_eq_true] at comment
      exact ⟨t, by simp, comment.1, by simpa using h⟩
    · simp at h
  · simp at h

/-- The comments collected for the next entry and the tokens still to read are neighbours. -/
theorem found_of_readList {doc tokens full : List Token} {since : Nat} {specs : List ImportSpec}
    (h : readList doc since tokens = .ok specs) (inside : doc ++ tokens <:+ full)
    (comments : ∀ c ∈ doc, c.isComment = true) : ∀ spec ∈ specs, Found full spec := by
  fun_induction readList doc since tokens generalizing specs with
  | case1 doc since =>
    obtain rfl : [] = specs := by simpa using h
    simp
  | case2 doc since t rest comment apart =>
    rename_i ih
    refine ih h ?_ ?_
    · split
      · exact (List.suffix_append doc _).trans inside
      · simpa using inside
    · split
      · simpa using comment
      · simpa [or_imp, forall_and, comment] using comments
  | case3 doc since t rest _ _ ih =>
    exact ih h ((List.suffix_append (doc ++ [t]) rest).trans (by simpa using inside)) (by simp)
  | case4 => simp at h
  | case5 => simp at h
  | case6 doc since t rest _ _ spec n found after comment others readOthers =>
    rename_i ih
    simp only [Except.ok.injEq] at h
    subst h
    have behind : t :: rest <:+ full := (List.suffix_append doc _).trans inside
    have later : after <:+ full :=
      (List.drop_suffix n rest).trans ((List.suffix_cons t rest).trans behind)
    intro spec' mem
    rcases List.mem_cons.1 mem with rfl | mem
    · refine found_of_read found behind.subset ?_ ?_
      · intro text mem
        unfold docAbove at mem
        split at mem
        · simp at mem
        · refine ⟨doc, ?_, comments, by simpa using mem.symm⟩
          exact (List.prefix_append doc _).isInfix.trans inside.isInfix
      · intro text mem
        obtain ⟨c, memC, rest⟩ := found_trailingComment mem
        exact ⟨c, later.subset memC, rest⟩
    · refine ih readOthers ?_ (by simp) spec' mem
      exact (List.drop_suffix _ after).trans later

theorem trailingComment_sameLineComments (ts : List Token) :
    trailingComment (SourceFile.sameLineComments ts) = trailingComment ts := by
  cases ts with
  | nil => rfl
  | cons t ts =>
    unfold SourceFile.sameLineComments
    rw [List.takeWhile_cons]
    split
    · rfl
    · next other => simp [trailingComment, other]

end ImportSpec

namespace SourceFile

theorem found_of_readSpecs {keyword : Token} {before body after : List Token}
    {detached grouped : Bool} {specs : List ImportSpec}
    (h : ImportDecl.readSpecs keyword (Item.leadingComments before) detached body after =
      .ok (grouped, specs)) :
    ∀ spec ∈ specs,
      ImportSpec.Found (before ++ keyword :: (body ++ sameLineComments after)) spec := by
  unfold ImportDecl.readSpecs at h
  split at h
  · simp at h
  · next first rest eq =>
    have inside : first :: rest <:+: before ++ keyword :: (body ++ sameLineComments after) := by
      have : first :: rest <:+ body := eq ▸ List.dropWhile_suffix _
      refine this.isInfix.trans ⟨before ++ [keyword], sameLineComments after, by simp⟩
    split at h
    · cases found : ImportSpec.readList [] 0 rest.dropLast with
      | error fault => simp [found, Except.map] at h
      | ok found' =>
        simp only [found, Except.map, Except.ok.injEq, Prod.mk.injEq] at h
        obtain ⟨-, rfl⟩ := h
        intro spec mem
        have listed := ImportSpec.found_of_readList found (List.suffix_refl _) (by simp) spec mem
        refine listed.mono ((List.dropLast_prefix rest).isInfix.trans ?_)
        exact (List.suffix_cons first rest).isInfix.trans inside
    · split at h
      · simp at h
      · next spec n found =>
        simp only [Except.ok.injEq, Prod.mk.injEq] at h
        obtain ⟨-, rfl⟩ := h
        intro spec' mem
        rw [List.mem_singleton.1 mem]
        refine ImportSpec.found_of_read found inside.subset ?_ ?_
        · intro text mem
          split at mem
          · simp at mem
          · refine ⟨Item.leadingComments before, ?_, ?_, by simpa using mem.symm⟩
            · exact (List.takeWhile_prefix _).isInfix.trans (List.prefix_append before _).isInfix
            · exact fun c mem => List.all_eq_true.1 List.all_takeWhile c mem
        · intro text mem
          rw [← ImportSpec.trailingComment_sameLineComments] at mem
          obtain ⟨c, memC, rest⟩ := ImportSpec.found_trailingComment mem
          exact ⟨c, by simp [memC], rest⟩

/-- What an import item lists is found in its tokens. -/
theorem Item.found {before rest : List Token} {keyword : Token} {item : Item} {grouped : Bool}
    {specs : List ImportSpec} (h : Item.read before keyword rest = .ok item)
    (imports : item.content = .imports grouped specs) :
    ∀ spec ∈ specs, ImportSpec.Found item.tokens spec := by
  obtain ⟨same, same'⟩ := Item.read_before_keyword h
  obtain ⟨body, after, terminated, rfl, extent, contents, ends⟩ := Item.exists_of_read h
  rw [imports] at contents
  unfold Item.readContent at contents
  split at contents
  · cases found : ImportDecl.readSpecs keyword (Item.leadingComments before)
        (decide (2 ≤ Item.newlinesBelowComments before keyword)) body after with
    | error fault => simp [found, Except.map] at contents
    | ok found' =>
      simp only [found, Except.map, Except.ok.injEq, Item.Content.imports.injEq] at contents
      obtain ⟨-, rfl⟩ := contents
      intro spec mem
      refine (found_of_readSpecs found spec mem).mono ?_
      rw [Item.tokens, same, same']
      generalize item.body = full at ends
      generalize item.closing = closing at ends
      have none_left : ∀ {semicolon : Token} {more : List Token}, semicolon.kind = .semicolon →
          sameLineComments (semicolon :: more) = [] := by
        intro semicolon more kind
        simp [sameLineComments, Token.isComment, kind]
      cases ends with
      | line _ => exact ⟨[], [], by simp⟩
      | @commented semicolon more kind _ _ =>
        exact ⟨[], semicolon :: sameLineComments more, by simp [none_left kind]⟩
      | @closed semicolon more kind _ => exact ⟨[], [semicolon], by simp [none_left kind]⟩
  · cases found : Heading.read keyword body after with
    | error fault => simp [found, Except.map] at contents
    | ok heading => simp [found, Except.map] at contents

theorem ItemsOf.within {ts trailing : List Token} {items : List Item}
    (h : ItemsOf ts items trailing) {item : Item} (mem : item ∈ items) : item.tokens <:+: ts := by
  rw [← h.tokens_append]
  refine List.IsInfix.trans ?_ (List.prefix_append _ _).isInfix
  rw [List.flatMap_def]
  exact List.infix_of_mem_flatten (List.mem_map_of_mem mem)

/-- Every item has been read. -/
theorem ItemsOf.read {ts trailing : List Token} {items : List Item}
    (h : ItemsOf ts items trailing) {item : Item} (mem : item ∈ items) :
    ∃ rest, Item.read item.before item.keyword rest = .ok item ∧
      ∀ t ∈ item.before, t.isSeparator = true := by
  induction h with
  | none _ => simp at mem
  | @cons before rest trailing keyword item' items separators read _ ih =>
    rcases List.mem_cons.1 mem with rfl | mem
    · obtain ⟨same, same'⟩ := Item.read_before_keyword read
      rw [same, same']
      exact ⟨rest, read, separators⟩
    · exact ih mem

theorem mem_importsOf {items : List Item} {spec : ImportSpec}
    (h : spec ∈ (importsOf items).flatMap (·.specs)) :
    ∃ item ∈ items, ∃ grouped specs, item.content = .imports grouped specs ∧ spec ∈ specs := by
  induction items with
  | nil => simp [importsOf] at h
  | cons item items ih =>
    unfold importsOf at h
    split at h
    · next grouped specs content =>
      rw [List.flatMap_cons] at h
      rcases List.mem_append.1 h with mem | mem
      · exact ⟨item, by simp, grouped, specs, content, mem⟩
      · obtain ⟨item', mem', rest⟩ := ih mem
        exact ⟨item', by simp [mem'], rest⟩
    · obtain ⟨item', mem', rest⟩ := ih h
      exact ⟨item', by simp [mem'], rest⟩

end SourceFile

end GoSplit
