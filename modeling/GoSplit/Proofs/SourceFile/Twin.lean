import GoSplit.Proofs.SourceFile.Parsed
import GoSplit.Proofs.Token.Twin

/-!
Parsing tokens with other string literals among them. The file is the same up to the
places of things and the paths of its imports, and each import has its path from the
literal that stands where that of the other file stood.
-/

namespace GoSplit

open List (Forall₂)
open Token (Same Twin)

/-! ### Headers -/

namespace Header

theorem groups_congr {ts us : List Token} (h : Forall₂ Same ts us) :
    Forall₂ (Forall₂ Same) (groups ts) (groups us) := by
  induction h with
  | nil => exact .nil
  | @cons t u ts us same more ih =>
    unfold groups
    cases more with
    | nil => exact .cons (.cons same .nil) .nil
    | @cons next next' rest rest' same' _ =>
      generalize groups (next :: rest) = left at ih ⊢
      generalize groups (next' :: rest') = right at ih ⊢
      cases ih with
      | nil => exact .cons (.cons same .nil) .nil
      | cons group others =>
        dsimp only
        rw [same'.gap]
        split
        · exact .cons (.cons same .nil) (.cons group others)
        · exact .cons (.cons same group) others

theorem addGroup_congr {ts us : List Token} (h : Forall₂ Same ts us) (attached isLast : Bool)
    (header : Header) : addGroup attached ts isLast header =
      addGroup attached us isLast header := by
  have texts : ts.map (·.text) = us.map (·.text) := by
    induction h with
    | nil => rfl
    | cons same _ ih => rw [List.map_cons, List.map_cons, same.text, ih]
  have every : (ts.all fun t => isBuildConstraint t.text) =
      us.all fun t => isBuildConstraint t.text := by
    simpa [List.all_map, Function.comp_def] using congrArg (List.all · isBuildConstraint) texts
  have trimmed : (ts.map fun t => t.text.trimEnd) = us.map fun t => t.text.trimEnd := by
    simpa [Function.comp_def] using congrArg (List.map Text.trimEnd) texts
  rw [addGroup, addGroup, every, trimmed, Token.spell_congr h]

theorem ofGroups_congr {gs hs : List (List Token)} (h : Forall₂ (Forall₂ Same) gs hs)
    (attached : Bool) : ofGroups attached gs = ofGroups attached hs := by
  induction h with
  | nil => rfl
  | cons same more ih =>
    have last : ∀ {gs hs : List (List Token)}, Forall₂ (Forall₂ Same) gs hs →
        gs.isEmpty = hs.isEmpty := by
      intro gs hs h
      cases h <;> rfl
    rw [ofGroups, ofGroups, ih, last more, addGroup_congr same]

end Header

theorem SourceFile.readHeader_congr {ts us : List Token} (h : Forall₂ Twin ts us) :
    readHeader ts = readHeader us := by
  have kept : ∀ t u : Token, Twin t u → t.isComment = u.isComment :=
    fun t u twin => twin.alike.isComment_eq
  have comments := Token.same_of_twin (Token.forall₂_takeWhile h kept)
    fun t mem => List.all_eq_true.1 List.all_takeWhile t mem
  have rest := Token.forall₂_dropWhile h kept
  unfold readHeader
  generalize ts.dropWhile Token.isComment = left at rest ⊢
  generalize us.dropWhile Token.isComment = right at rest ⊢
  cases rest with
  | nil => rfl
  | cons next _ =>
    dsimp only
    rw [Header.ofComments, Header.ofComments, next.gap,
      Header.ofGroups_congr (Header.groups_congr comments)]

/-! ### Imports -/

namespace ImportSpec

/-- Entries that differ in the literals they have their paths from. -/
structure Twin (t' t : Token) (spec' spec : ImportSpec) : Prop where
  string : t.isString = true
  nonempty : t.text.tail.dropLast ≠ []
  localName : spec'.localName = spec.localName
  doc : spec'.doc = spec.doc
  comment : spec'.comment = spec.comment
  literal : spec.literal = t.span
  path : spec.path = t.text.tail.dropLast
  path' : spec'.path = t'.text.tail.dropLast

/-- Entries in order, with the literals the second ones come from. -/
inductive Twins (r : Token → Token → Prop) : List Token → List ImportSpec → List ImportSpec → Prop
  | nil : Twins r [] [] []
  | cons {t' t : Token} {spec' spec : ImportSpec} {literals : List Token}
    {specs' specs : List ImportSpec} : r t' t → Twin t' t spec' spec →
      Twins r literals specs' specs → Twins r (t :: literals) (spec' :: specs') (spec :: specs)

theorem Twins.append {r : Token → Token → Prop} {literals literals' : List Token}
    {left left' right right' : List ImportSpec} (h : Twins r literals left left')
    (h' : Twins r literals' right right') :
    Twins r (literals ++ literals') (left ++ right) (left' ++ right') := by
  induction h with
  | nil => exact h'
  | cons rel twin _ ih => exact .cons rel twin ih

theorem Twins.forall₂ {r : Token → Token → Prop} {literals : List Token}
    {specs' specs : List ImportSpec} (h : Twins r literals specs' specs) :
    Forall₂ (fun spec' spec => ∃ t' t, r t' t ∧ Twin t' t spec' spec) specs' specs := by
  induction h with
  | nil => exact .nil
  | cons rel twin _ ih => exact .cons ⟨_, _, rel, twin⟩ ih

theorem docAbove_congr {doc doc' : List Token} {first first' : Token} (same : Forall₂ Same doc' doc)
    (gap : first'.gap = first.gap) : docAbove doc' first' = docAbove doc first := by
  have empty : doc'.isEmpty = doc.isEmpty := by cases same <;> rfl
  rw [docAbove, docAbove, empty, gap, Token.spell_congr same]

section Reading

variable {r : Token → Token → Prop} (twin : ∀ t' t, r t' t → Token.Twin t' t)
include twin

theorem trailingComment_twin {ts' ts : List Token} (h : Forall₂ r ts' ts) :
    trailingComment ts' = trailingComment ts := by
  cases h with
  | nil => rfl
  | @cons t' t _ _ rel _ =>
    have like := (twin _ _ rel).alike
    rw [trailingComment, trailingComment, like.isComment_eq, like.onNewLine_eq]
    split
    · next comment =>
      have same := (twin _ _ rel).same_of_isComment (by rw [like.isComment_eq]; simp_all)
      rw [same.text]
    · rfl

theorem ofLiteral_twin {t' t : Token} (rel : r t' t) {name : Option Text} {spec : ImportSpec}
    (h : ofLiteral name t = .ok spec) :
    ∃ spec', ofLiteral name t' = .ok spec' ∧ Twin t' t spec' spec := by
  obtain ⟨string, some, rfl⟩ := ofLiteral_eq_ok_iff.1 h
  have related := twin t' t rel
  have some' : t'.text.tail.dropLast ≠ [] := by
    rcases related.shape with ⟨-, text⟩ | ⟨-, -, both⟩
    · rwa [text]
    · exact mt both.1 some
  have string' : t'.isString = true := by rw [related.isString_eq, string]
  exact ⟨_, ofLiteral_eq_ok_iff.2 ⟨string', some', rfl⟩, string, some, rfl, rfl, rfl, rfl, rfl, rfl⟩

theorem read_twin {first' first : Token} {rest' rest : List Token} {spec : ImportSpec} {n : Nat}
    (h : read first rest = .ok (spec, n)) (head : r first' first) (more : Forall₂ r rest' rest) :
    ∃ t' t spec', r t' t ∧ t ∈ first :: rest.take n ∧ read first' rest' = .ok (spec', n) ∧
      Twin t' t spec' spec := by
  have like := (twin _ _ head).alike
  have named : (first'.kind = .ident ∨ first'.kind = .dot) ↔
      (first.kind = .ident ∨ first.kind = .dot) := by
    rw [like.kind_eq_iff (by simp) (by simp), like.kind_eq_iff (by simp) (by simp)]
  rcases read_eq_ok_iff.1 h with ⟨bare, found, rfl⟩ | ⟨kind, comments, literal, others, rfl, all,
    found, rfl⟩
  · obtain ⟨spec', found', twins⟩ := ofLiteral_twin twin head found
    refine ⟨first', first, spec', head, List.mem_cons_self .., ?_, twins⟩
    exact read_eq_ok_iff.2 (.inl ⟨mt named.1 bare, found', rfl⟩)
  · obtain ⟨comments', behind, rfl, likeComments, likeBehind⟩ := Token.exists_append_of_forall₂ more
    obtain ⟨literal', others', rel, -, rfl⟩ := List.forall₂_cons_right_iff.1 likeBehind
    obtain ⟨spec', found', twins⟩ := ofLiteral_twin twin rel found
    have text : first'.text = first.text := by
      rcases kind with kind | kind
      · exact like.text_eq kind (by simp) (by simp) (by simp) (by simp)
      · exact like.text_eq kind (by simp) (by simp) (by simp) (by simp)
    have all' : ∀ c ∈ comments', c.isComment = true :=
      Token.forall_of_forall₂ (p := fun c => c.isComment = true) likeComments
        (fun c' c rel comment => by rwa [(twin _ _ rel).alike.isComment_eq]) all
    refine ⟨literal', literal, spec', rel, ?_, ?_, twins⟩
    · refine List.mem_cons_of_mem _ ?_
      rw [List.take_length_add_append]
      simp
    · refine read_eq_ok_iff.2 (.inr ⟨named.2 kind, comments', literal', others', rfl, all', ?_, ?_⟩)
      · rw [text, found']
      · rw [likeComments.length_eq]

theorem readList_twin {doc' doc tokens' tokens : List Token} {since : Nat}
    {specs : List ImportSpec} (h : readList doc since tokens = .ok specs)
    (above : Forall₂ Same doc' doc) (more : Forall₂ r tokens' tokens) :
    ∃ specs' literals, readList doc' since tokens' = .ok specs' ∧ literals.Sublist tokens ∧
      Twins r literals specs' specs := by
  fun_induction readList doc since tokens generalizing specs doc' tokens' with
  | case1 doc since =>
    cases more
    cases h
    exact ⟨[], [], by rw [readList], List.Sublist.refl _, .nil⟩
  | case2 doc since t rest comment apart =>
    rename_i ih
    obtain ⟨t', rest', rel, behind, rfl⟩ := List.forall₂_cons_right_iff.1 more
    have related := twin _ _ rel
    have comment' : t'.isComment = true := by rw [related.alike.isComment_eq, comment]
    have same := related.same_of_isComment comment'
    have above' : Forall₂ Same (if 2 ≤ since + t.gap.newlines then [t'] else doc' ++ [t'])
        (if apart then [t] else doc ++ [t]) := by
      split
      · exact .cons same .nil
      · exact List.rel_append above (.cons same .nil)
    obtain ⟨specs', literals, read, part, twins⟩ := ih h above' behind
    refine ⟨specs', literals, ?_, part.cons t, twins⟩
    rw [readList, if_pos comment', related.gap]
    exact read
  | case3 doc since t rest comment semicolon ih =>
    obtain ⟨t', rest', rel, behind, rfl⟩ := List.forall₂_cons_right_iff.1 more
    have related := twin _ _ rel
    obtain ⟨specs', literals, read, part, twins⟩ := ih h .nil behind
    refine ⟨specs', literals, ?_, part.cons t, twins⟩
    rw [readList, related.alike.isComment_eq, related.alike.kind_beq (by simp) (by simp),
      if_neg comment, if_pos semicolon, related.gap]
    exact read
  | case4 => simp at h
  | case5 => simp at h
  | case6 doc since t rest notComment notSemicolon spec n found after comment others =>
    rename_i readOthers ih
    cases h
    obtain ⟨t', rest', rel, behind, rfl⟩ := List.forall₂_cons_right_iff.1 more
    have related := twin _ _ rel
    obtain ⟨literal', literal, spec', relLiteral, mem, read', twins⟩ :=
      read_twin twin found rel behind
    have later : Forall₂ r (rest'.drop n) after := List.forall₂_drop n behind
    have sameComment : trailingComment (rest'.drop n) = comment := trailingComment_twin twin later
    obtain ⟨specs', literals, readRest, part, twinsRest⟩ :=
      ih readOthers .nil (List.forall₂_drop _ later)
    refine ⟨{ spec' with doc := docAbove doc t, comment } :: specs', literal :: literals, ?_, ?_,
      .cons relLiteral ⟨twins.string, twins.nonempty, twins.localName, rfl, rfl, twins.literal,
        twins.path, twins.path'⟩ twinsRest⟩
    · have readRest' : readList [] 0 ((rest'.drop n).drop (if comment.isSome then 1 else 0)) =
          .ok specs' := readRest
      rw [readList, related.alike.isComment_eq, related.alike.kind_beq (by simp) (by simp),
        if_neg notComment, if_neg notSemicolon, read']
      simp only [sameComment, readRest', docAbove_congr above related.gap]
    · have front : [literal].Sublist (t :: rest.take n) := List.singleton_sublist.2 mem
      have both := front.append (part.trans (List.drop_sublist _ after))
      have whole : t :: rest.take n ++ after = t :: rest := by simp [after]
      rw [whole] at both
      exact both

end Reading

end ImportSpec

/-! ### Items -/

namespace SourceFile

open ImportSpec (Twins)

theorem sameLineComments_twin {r : Token → Token → Prop} (twin : ∀ t' t, r t' t → Twin t' t)
    {ts' ts : List Token} (h : Forall₂ r ts' ts) :
    Forall₂ r (sameLineComments ts') (sameLineComments ts) :=
  Token.forall₂_takeWhile h fun t' t rel => by
    rw [(twin t' t rel).alike.isComment_eq, (twin t' t rel).alike.onNewLine_eq]

namespace Item

/-- Contents that differ in the literals of imports. -/
inductive Content.Twin (r : Token → Token → Prop) (ts : List Token) : Content → Content → Prop
  | imports {grouped : Bool} {literals : List Token} {specs' specs : List ImportSpec} :
    literals.Sublist ts → Twins r literals specs' specs →
      Twin r ts (.imports grouped specs') (.imports grouped specs)
  | declares (heading : Heading) : Twin r ts (.declares heading) (.declares heading)

/-- Items that differ in string literals. -/
structure Twin (r : Token → Token → Prop) (item' item : Item) : Prop where
  before : Forall₂ r item'.before item.before
  keyword : r item'.keyword item.keyword
  body : Forall₂ r item'.body item.body
  closing : Forall₂ r item'.closing item.closing
  content : Content.Twin r item.body item'.content item.content

section Reading

variable {r : Token → Token → Prop} (twin : ∀ t' t, r t' t → Token.Twin t' t)
include twin

theorem leadingComments_twin {ts' ts : List Token} (h : Forall₂ r ts' ts) :
    Forall₂ Same (leadingComments ts') (leadingComments ts) := by
  have kept := Token.forall₂_takeWhile (p := Token.isComment) h
    fun t' t rel => (twin t' t rel).alike.isComment_eq
  exact Token.same_of_twin (kept.imp fun t' t rel => twin t' t rel)
    fun t mem => List.all_eq_true.1 List.all_takeWhile t mem

theorem newlinesBelowComments_twin {ts' ts : List Token} {keyword' keyword : Token}
    (h : Forall₂ r ts' ts) (head : r keyword' keyword)
    (separators : ∀ t ∈ ts, t.isSeparator = true) :
    newlinesBelowComments ts' keyword' = newlinesBelowComments ts keyword := by
  have rest := Token.forall₂_dropWhile (p := Token.isComment) h
    fun t' t rel => (twin t' t rel).alike.isComment_eq
  have plain : ∀ t ∈ ts.dropWhile Token.isComment, t.isSeparator = true :=
    fun t mem => separators t ((List.dropWhile_sublist _).subset mem)
  unfold newlinesBelowComments Token.newlinesAcross
  generalize ts'.dropWhile Token.isComment = left at rest ⊢
  generalize ts.dropWhile Token.isComment = right at rest plain ⊢
  induction rest with
  | nil => rw [List.foldr_nil, List.foldr_nil, (twin _ _ head).gap]
  | @cons t' t _ _ rel _ ih =>
    rw [List.forall_mem_cons] at plain
    have other : t'.isString = false := by
      rw [(twin _ _ rel).isString_eq]
      have separator := plain.1
      rw [Token.isSeparator, Bool.or_eq_true, Token.isComment_iff, beq_iff_eq] at separator
      rcases separator with (kind | kind) | kind <;> simp [Token.isString, kind]
    have same := (twin _ _ rel).same other
    rw [List.foldr_cons, List.foldr_cons, ih plain.2, same.gap, same.text]

theorem readSpecs_twin (keyword' : Token) {keyword : Token}
    {leading' leading body' body after' after : List Token} {detached grouped : Bool}
    {specs : List ImportSpec}
    (h : ImportDecl.readSpecs keyword leading detached body after = .ok (grouped, specs))
    (above : Forall₂ Same leading' leading) (inside : Forall₂ r body' body)
    (behind : Forall₂ r after' after) :
    ∃ specs' literals,
      ImportDecl.readSpecs keyword' leading' detached body' after' = .ok (grouped, specs') ∧
        literals.Sublist body ∧ Twins r literals specs' specs := by
  have kept : ∀ t' t : Token, r t' t → t'.isComment = t.isComment :=
    fun t' t rel => (twin t' t rel).alike.isComment_eq
  have rest := Token.forall₂_dropWhile inside kept
  have part := List.dropWhile_sublist (l := body) Token.isComment
  unfold ImportDecl.readSpecs at h ⊢
  generalize body.dropWhile Token.isComment = left at rest part h
  generalize body'.dropWhile Token.isComment = right at rest
  cases rest with
  | nil => simp at h
  | @cons first' first rest' rest rel more =>
    dsimp only at h ⊢
    have opens := (twin _ _ rel).alike.kind_eq_iff (k := .opening .paren) (by simp) (by simp)
    by_cases paren : first.kind = .opening .paren
    · rw [if_pos paren] at h
      rw [if_pos (opens.2 paren)]
      cases found : ImportSpec.readList [] 0 rest.dropLast with
      | error fault => simp [found, Except.map] at h
      | ok found' =>
        simp only [found, Except.map, Except.ok.injEq, Prod.mk.injEq] at h
        obtain ⟨rfl, rfl⟩ := h
        have listed : Forall₂ r rest'.dropLast rest.dropLast := by
          rw [List.dropLast_eq_take, List.dropLast_eq_take, more.length_eq]
          exact List.forall₂_take _ more
        obtain ⟨specs', literals, read, sub, twins⟩ :=
          ImportSpec.readList_twin twin found .nil listed
        refine ⟨specs', literals, by rw [read, Except.map], ?_, twins⟩
        exact sub.trans ((List.dropLast_sublist _).trans ((List.sublist_cons_self ..).trans part))
    · rw [if_neg paren] at h
      rw [if_neg (mt opens.1 paren)]
      split at h
      · simp at h
      · next spec n found =>
        simp only [Except.ok.injEq, Prod.mk.injEq] at h
        obtain ⟨rfl, rfl⟩ := h
        obtain ⟨literal', literal, spec', relLiteral, mem, read, twins⟩ :=
          ImportSpec.read_twin twin found rel more
        have inBody : [literal].Sublist body := by
          refine List.Sublist.trans (List.singleton_sublist.2 ?_) part
          exact ((List.take_sublist n rest).cons_cons first).subset mem
        have empty : leading'.isEmpty = leading.isEmpty := by cases above <;> rfl
        refine ⟨_, [literal], by rw [read], inBody, .cons relLiteral ?_ .nil⟩
        refine ⟨twins.string, twins.nonempty, twins.localName, ?_, ?_, twins.literal, twins.path,
          twins.path'⟩
        · rw [empty, Token.spell_congr above]
        · exact ImportSpec.trailingComment_twin twin behind

theorem readContent_twin {keyword' keyword : Token}
    {before' before body' body after' after : List Token} {content : Content}
    (h : readContent before keyword body after = .ok content)
    (separators : ∀ t ∈ before, t.isSeparator = true) (above : Forall₂ r before' before)
    (head : r keyword' keyword) (inside : Forall₂ r body' body) (behind : Forall₂ r after' after) :
    ∃ content', readContent before' keyword' body' after' = .ok content' ∧
      Content.Twin r body content' content := by
  have like := (twin _ _ head).alike
  unfold readContent at h ⊢
  rw [like.isWord_eq]
  split at h
  · next word =>
    rw [if_pos word, newlinesBelowComments_twin twin above head separators]
    cases found : ImportDecl.readSpecs keyword (leadingComments before)
        (decide (2 ≤ newlinesBelowComments before keyword)) body after with
    | error fault => simp [found, Except.map] at h
    | ok found' =>
      simp only [found, Except.map, Except.ok.injEq] at h
      subst h
      obtain ⟨specs', literals, read, sub, twins⟩ :=
        readSpecs_twin twin keyword' found (leadingComments_twin twin above) inside behind
      exact ⟨_, by simp only [read, Except.map], .imports sub twins⟩
  · next word =>
    rw [if_neg word]
    cases found : Heading.read keyword body after with
    | error fault => simp [found, Except.map] at h
    | ok heading =>
      simp only [found, Except.map, Except.ok.injEq] at h
      subst h
      have same := Heading.read_congr like.isWord_eq after' after
        (Token.forall₂_withoutComments (inside.imp fun t' t rel => (twin t' t rel).alike))
      rw [found] at same
      cases found' : Heading.read keyword' body' after' with
      | error fault => simp [found', Except.toOption] at same
      | ok heading' =>
        rw [found'] at same
        obtain rfl : heading' = heading := by simpa [Except.toOption] using same
        exact ⟨_, rfl, .declares heading'⟩

theorem close_twin {body' body after' after : List Token} (terminated : Bool)
    (inside : Forall₂ r body' body) (behind : Forall₂ r after' after) :
    Forall₂ r (close terminated body' after').1 (close terminated body after).1 ∧
      Forall₂ r (close terminated body' after').2 (close terminated body after).2 := by
  unfold close
  cases terminated with
  | false => exact ⟨List.rel_append inside (sameLineComments_twin twin behind), .nil⟩
  | true =>
    cases behind with
    | nil => exact ⟨inside, .nil⟩
    | @cons semicolon' semicolon rest' rest rel more =>
      have comments := sameLineComments_twin twin more
      simp only [if_true]
      generalize sameLineComments rest' = left at comments ⊢
      generalize sameLineComments rest = right at comments ⊢
      cases comments with
      | nil => exact ⟨inside, .cons rel .nil⟩
      | cons comment others =>
        dsimp only
        rw [(twin _ _ rel).alike.onNewLine_eq]
        split
        · exact ⟨inside, .cons rel .nil⟩
        · exact ⟨List.rel_append inside (.cons rel (.cons comment others)), .nil⟩

theorem read_twin {keyword' keyword : Token} {before' before rest' rest : List Token} {item : Item}
    (h : read before keyword rest = .ok item) (separators : ∀ t ∈ before, t.isSeparator = true)
    (above : Forall₂ r before' before) (head : r keyword' keyword) (more : Forall₂ r rest' rest) :
    ∃ item', read before' keyword' rest' = .ok item' ∧ Twin r item' item := by
  obtain ⟨start, n, terminated, content, extent, contents, rfl⟩ := read_eq_ok_iff.1 h
  have like := (twin _ _ head).alike
  have start' : starts keyword' = true := by
    rw [starts, isDeclKeyword]
    simp only [like.isWord_eq]
    exact start
  have extent' := extentFrom_eq_of_alike (more.imp fun t' t rel => (twin t' t rel).alike) extent
  have inside := List.forall₂_take n more
  have behind := List.forall₂_drop n more
  obtain ⟨content', contents', twins⟩ :=
    readContent_twin twin contents separators above head inside behind
  have closed := close_twin twin terminated inside behind
  refine ⟨_, read_eq_ok_iff.2 ⟨start', n, terminated, content', extent', contents', rfl⟩,
    above, head, closed.1, closed.2, ?_⟩
  have longer : (rest.take n).Sublist (close terminated (rest.take n) (rest.drop n)).1 := by
    unfold close
    split
    · split
      · exact List.Sublist.refl _
      · split
        · exact List.Sublist.refl _
        · split
          · exact List.Sublist.refl _
          · exact List.sublist_append_left ..
    · exact List.sublist_append_left ..
  cases twins with
  | imports sub twins => exact .imports (sub.trans longer) twins
  | declares heading => exact .declares heading

end Reading

end Item

theorem ItemsOf.exists_twin {r : Token → Token → Prop} (twin : ∀ t' t, r t' t → Token.Twin t' t)
    {ts' ts trailing : List Token} {items : List Item} (h : ItemsOf ts items trailing)
    (like : Forall₂ r ts' ts) :
    ∃ items' trailing', ItemsOf ts' items' trailing' ∧ Forall₂ (Item.Twin r) items' items := by
  have separate : ∀ {us' us : List Token}, Forall₂ r us' us → (∀ t ∈ us, t.isSeparator = true) →
      ∀ t ∈ us', t.isSeparator = true := fun like all =>
    Token.forall_of_forall₂ (p := fun t => t.isSeparator = true) like
      (fun t' t rel separator => by rwa [(twin t' t rel).alike.isSeparator_eq]) all
  induction h generalizing ts' with
  | none separators => exact ⟨[], ts', .none (separate like separators), .nil⟩
  | @cons before rest trailing keyword item items separators read _ ih =>
    obtain ⟨before', behind, rfl, above, likeBehind⟩ := Token.exists_append_of_forall₂ like
    obtain ⟨keyword', rest', head, more, rfl⟩ := List.forall₂_cons_right_iff.1 likeBehind
    obtain ⟨item', read', twins⟩ := Item.read_twin twin read separators above head more
    have size : item'.size = item.size := by
      rw [Item.size, Item.size, twins.body.length_eq, twins.closing.length_eq]
    obtain ⟨items', trailing', found, others⟩ := ih (List.forall₂_drop item.size more)
    rw [← size] at found
    exact ⟨item' :: items', trailing', .cons (separate above separators) read' found,
      .cons twins others⟩

theorem headings_of_twin {r : Token → Token → Prop} {items' items : List Item}
    (h : Forall₂ (Item.Twin r) items' items) (trailing' trailing : List Token) :
    Forall₂ (fun d' d : Decl => d'.heading = d.heading) (declsOf trailing' items')
      (declsOf trailing items) := by
  induction h with
  | nil => exact .nil
  | @cons item' item items' items twins _ ih =>
    have content := twins.content
    unfold declsOf
    generalize item'.content = left at content
    generalize item.content = right at content
    cases content with
    | imports _ _ => exact ih
    | declares heading => exact .cons rfl ih

theorem specs_of_twin {r : Token → Token → Prop} {items' items : List Item}
    (h : Forall₂ (Item.Twin r) items' items) :
    ∃ literals, literals.Sublist (items.flatMap Item.tokens) ∧
      Twins r literals ((importsOf items').flatMap (·.specs))
        ((importsOf items).flatMap (·.specs)) := by
  induction h with
  | nil => exact ⟨[], List.Sublist.refl _, .nil⟩
  | @cons item' item items' items twins _ ih =>
    obtain ⟨literals, sub, others⟩ := ih
    have body : item.body.Sublist item.tokens :=
      (List.sublist_append_left ..).trans
        ((List.sublist_cons_self ..).trans (List.sublist_append_right ..))
    have content := twins.content
    unfold importsOf
    rw [List.flatMap_cons]
    generalize item'.content = left at content
    generalize item.content = right at content
    cases content with
    | @imports grouped these specs' specs sub' twins' =>
      exact ⟨these ++ literals, (sub'.trans body).append sub, twins'.append others⟩
    | declares heading => exact ⟨literals, sub.trans (List.sublist_append_right ..), others⟩

theorem readPackage_twin {r : Token → Token → Prop} (twin : ∀ t' t, r t' t → Token.Twin t' t)
    {ts' ts rest : List Token} {size : Nat} (size' : Nat) {package : PackageClause}
    (h : readPackage size ts = .ok (package, rest)) (like : Forall₂ r ts' ts) :
    ∃ package' rest', readPackage size' ts' = .ok (package', rest') ∧
      package'.name = package.name ∧ Forall₂ r rest' rest := by
  obtain ⟨keyword, cs, name, after, rfl, comments, word, isName, rfl, rfl⟩ :=
    readPackage_eq_ok_iff.1 h
  obtain ⟨keyword', others', head, more, rfl⟩ := List.forall₂_cons_right_iff.1 like
  obtain ⟨cs', behind', rfl, likeCs, likeBehind⟩ := Token.exists_append_of_forall₂ more
  obtain ⟨name', after', named, likeAfter, rfl⟩ := List.forall₂_cons_right_iff.1 likeBehind
  have comments' : ∀ c ∈ cs', c.isComment = true :=
    Token.forall_of_forall₂ (p := fun c => c.isComment = true) likeCs
      (fun c' c rel comment => by rwa [(twin c' c rel).alike.isComment_eq]) comments
  have word' : keyword'.isWord "package" = true := by rw [(twin _ _ head).alike.isWord_eq, word]
  have isName' : name'.isName = true := by rw [(twin _ _ named).alike.isName_eq, isName]
  have text : name'.text = name.text := by
    simp only [Token.isName, Bool.and_eq_true, beq_iff_eq] at isName
    exact (twin _ _ named).alike.ident_text_eq isName.1
  refine ⟨_, _, readPackage_eq_ok_iff.2
    ⟨keyword', cs', name', after', rfl, comments', word', isName', rfl, rfl⟩, text, ?_⟩
  rw [(sameLineComments_twin twin likeAfter).length_eq]
  exact List.forall₂_drop _ likeAfter

/-- Other literals give a file of the same shape. -/
theorem ofTokens_twin {r : Token → Token → Prop} (twin : ∀ t' t, r t' t → Token.Twin t' t)
    {ts' ts : List Token} {size : Nat} (size' : Nat) {file : SourceFile}
    (h : ofTokens size ts = .ok file) (like : Forall₂ r ts' ts) :
    ∃ file' literals, ofTokens size' ts' = .ok file' ∧ file'.header = file.header ∧
      file'.package.name = file.package.name ∧
      Forall₂ (fun d' d : Decl => d'.heading = d.heading) file'.decls file.decls ∧
      literals.Sublist ts ∧ Twins r literals file'.importSpecs file.importSpecs := by
  obtain ⟨package, rest, items, trailing, clause, found, rfl⟩ := ofTokens_eq_ok_iff.1 h
  have kept : ∀ t' t : Token, r t' t → t'.isComment = t.isComment :=
    fun t' t rel => (twin t' t rel).alike.isComment_eq
  obtain ⟨package', rest', clause', name, likeRest⟩ :=
    readPackage_twin twin size' clause (Token.forall₂_dropWhile like kept)
  obtain ⟨items', trailing', found', twins⟩ := found.exists_twin twin likeRest
  obtain ⟨literals, sub, specs⟩ := specs_of_twin twins
  refine ⟨_, literals,
    ofTokens_eq_ok_iff.2 ⟨package', rest', items', trailing', clause', found', rfl⟩,
    readHeader_congr (like.imp fun t' t rel => twin t' t rel), name,
    headings_of_twin twins trailing' trailing, ?_, specs⟩
  have inside : (items.flatMap Item.tokens).Sublist rest := by
    rw [← found.tokens_append]
    exact List.sublist_append_left ..
  exact sub.trans (inside.trans ((suffix_of_readPackage clause).sublist.trans
    (List.dropWhile_sublist _)))

end SourceFile

end GoSplit
