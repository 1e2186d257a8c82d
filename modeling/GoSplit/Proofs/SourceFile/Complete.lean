import GoSplit.Proofs.SourceFile.Items

/-!
Complete declarations. When a line break behind its last token ends a declaration, the
declaration is read again in every place where a line break or the end of the input
follows it, with or without the semicolon that closed it.
-/

namespace GoSplit.SourceFile

open List (Forall₂)
open Token (Alike)

/-- The last token that is neither comment nor semicolon ends a statement. -/
def endsComplete (ts : List Token) : Bool :=
  (ts.filter fun t => !t.isSeparator).getLast?.any Token.endsStatement

theorem endsComplete_append (ts : List Token) {separators : List Token}
    (h : ∀ t ∈ separators, t.isSeparator = true) :
    endsComplete (ts ++ separators) = endsComplete ts := by
  have none_left : separators.filter (fun t => !t.isSeparator) = [] := by
    rw [List.filter_eq_nil_iff]
    intro t mem
    simp [h t mem]
  rw [endsComplete, List.filter_append, none_left, List.append_nil, endsComplete]

theorem endsComplete_congr {ts us : List Token} (h : Forall₂ Alike ts us) :
    endsComplete ts = endsComplete us := by
  have kept := Token.forall₂_filter (p := fun t => !t.isSeparator) h fun t u like => by
    rw [like.isSeparator_eq]
  unfold endsComplete
  generalize ts.filter _ = left at kept
  generalize us.filter _ = right at kept
  induction kept with
  | nil => rfl
  | @cons t u ts us like more ih =>
    cases more with
    | nil => simp [like.endsStatement_eq]
    | cons _ _ => simpa using ih

/-- Cuts behind the last token that is no comment. -/
theorem exists_last_code {ts : List Token} (h : ∃ t ∈ ts, t.isComment = false) :
    ∃ before z cs, ts = before ++ z :: cs ∧ z.isComment = false ∧
      ∀ c ∈ cs, c.isComment = true := by
  induction ts with
  | nil => simp at h
  | cons t ts ih =>
    by_cases later : ∃ u ∈ ts, u.isComment = false
    · obtain ⟨before, z, cs, rfl, code, comments⟩ := ih later
      exact ⟨t :: before, z, cs, rfl, code, comments⟩
    · have comments : ∀ c ∈ ts, c.isComment = true := by simpa using later
      obtain ⟨u, mem, code⟩ := h
      rcases List.mem_cons.1 mem with rfl | mem
      · exact ⟨[], u, ts, rfl, code, comments⟩
      · exact absurd ⟨u, mem, code⟩ later

/-- Where a complete declaration ends, it ends in front of every line break: behind its
last token that is no comment, and what follows that token stands on its line. -/
theorem extentFrom_again {body post : List Token} {terminated : Bool}
    (h : extentFrom [] (body ++ post) = .ok ⟨body.length, terminated⟩)
    (complete : endsComplete body = true) :
    ∃ before z cs, body = before ++ z :: cs ∧ SameLine cs ∧
      (∀ x, breaksBeforeNext x = true →
        extentFrom [] (before ++ z :: x) = .ok ⟨before.length + 1, false⟩) ∧
      (terminated = true → ∀ t ∈ post.head?, t.onNewLine = false) := by
  have some_code : ∃ t ∈ body, t.isComment = false := by
    by_contra none
    have comments : ∀ t ∈ body, t.isSeparator = true := by
      intro t mem
      by_contra solid
      exact none ⟨t, mem, by simp_all [Token.isSeparator]⟩
    have incomplete := endsComplete_append [] comments
    rw [List.nil_append, complete] at incomplete
    simp [endsComplete] at incomplete
  obtain ⟨before, z, cs, rfl, code, comments⟩ := exists_last_code some_code
  have size : (before ++ z :: cs).length = before.length + 1 + cs.length := by
    simp only [List.length_append, List.length_cons]
    omega
  rw [List.append_assoc, List.cons_append, size] at h
  obtain ⟨solid, last⟩ := extentFrom_last code comments h
  have separators : ∀ c ∈ cs, c.isSeparator = true := fun c mem => by
    simp [Token.isSeparator, comments c mem]
  have ends : z.endsStatement = true := by
    have cut : before ++ z :: cs = (before ++ [z]) ++ cs := by simp
    rw [cut, endsComplete_append _ separators] at complete
    simpa [endsComplete, Token.isSeparator, code, solid] using complete
  obtain ⟨again, line⟩ := last ends
  refine ⟨before, z, cs, rfl, ?_, again, fun closed => ?_⟩
  · intro c mem
    have none_breaks := line (.inl (List.ne_nil_of_mem mem))
    exact ⟨comments c mem, (not_onNewLine_of_breaks comments none_breaks).1 c mem⟩
  · exact (not_onNewLine_of_breaks comments (line (.inr closed))).2

theorem extentFrom_eq_of_alike {ts us : List Token} {e : Extent} (h : Forall₂ Alike ts us)
    (extent : extentFrom [] us = .ok e) : extentFrom [] ts = .ok e := by
  have same := extentFrom_congr .nil h
  rw [extent] at same
  cases result : extentFrom [] ts with
  | error fault => simp [result, Except.toOption] at same
  | ok e' =>
    rw [result] at same
    simpa [Except.toOption] using same

theorem withoutComments_append {ts cs : List Token} (comments : ∀ c ∈ cs, c.isComment = true) :
    Token.withoutComments (ts ++ cs) = Token.withoutComments ts := by
  have none : ∀ before, Token.withoutComments.go before cs = [] := by
    induction cs with
    | nil => exact fun _ => rfl
    | cons c cs ih =>
      intro before
      rw [Token.withoutComments.go, comments c (by simp), if_pos rfl]
      exact ih (fun c mem => comments c (by simp [mem])) _
  have go : ∀ before, Token.withoutComments.go before (ts ++ cs) =
      Token.withoutComments.go before ts := by
    induction ts with
    | nil => exact none
    | cons t ts ih =>
      intro before
      rw [List.cons_append, Token.withoutComments.go, Token.withoutComments.go, ih, ih]
  exact go []

namespace Item

theorem readContent_eq_declares {before body after : List Token} {keyword : Token}
    {heading : Heading} (h : readContent before keyword body after = .ok (.declares heading)) :
    keyword.isWord "import" = false ∧ Heading.read keyword body after = .ok heading := by
  unfold readContent at h
  split at h
  · cases specs : ImportDecl.readSpecs keyword (leadingComments before)
      (decide (2 ≤ newlinesBelowComments before keyword)) body after with
    | error fault => simp [specs, Except.map] at h
    | ok found => simp [specs, Except.map] at h
  · next word =>
    cases heading' : Heading.read keyword body after with
    | error fault => simp [heading', Except.map] at h
    | ok found =>
      simp only [heading', Except.map, Except.ok.injEq, Content.declares.injEq] at h
      exact ⟨by simpa using word, by rw [h]⟩

/-- What a declaration declares is a matter of its keyword and of the tokens that are no
comments. -/
theorem readContent_again {before before' body body' after after' : List Token}
    {keyword keyword' : Token} {heading : Heading}
    (h : readContent before keyword body after = .ok (.declares heading))
    (word : ∀ w, keyword'.isWord w = keyword.isWord w)
    (like : Forall₂ Alike (Token.withoutComments body') (Token.withoutComments body)) :
    readContent before' keyword' body' after' = .ok (.declares heading) := by
  obtain ⟨declares, found⟩ := readContent_eq_declares h
  have same := Heading.read_congr word after' after like
  rw [found] at same
  unfold readContent
  rw [word, declares, if_neg (by simp)]
  cases result : Heading.read keyword' body' after' with
  | error fault => simp [result, Except.toOption] at same
  | ok heading' =>
    rw [result] at same
    obtain rfl : heading' = heading := by simpa [Except.toOption] using same
    rfl

section Again

variable {before after body : List Token} {keyword : Token} {heading : Heading}
  {before' body' next : List Token} {keyword' : Token}

/-- Ended by a line break, and with comments on its line. -/
theorem read_again_line {terminated : Bool}
    (extent : extentFrom [] (body ++ after) = .ok ⟨body.length, terminated⟩)
    (complete : endsComplete body = true)
    (contents : readContent before keyword body after = .ok (.declares heading))
    (start : starts keyword' = true) (word : ∀ w, keyword'.isWord w = keyword.isWord w)
    {cs : List Token} (same : SameLine cs) (like : Forall₂ Alike body' (body ++ cs))
    (apart : StartsLine next) :
    read before' keyword' (body' ++ next) =
      .ok ⟨before', keyword', body', [], .declares heading⟩ := by
  obtain ⟨first, z, cs', rfl, same', again, -⟩ := extentFrom_again extent complete
  rw [List.append_assoc, List.cons_append] at like
  obtain ⟨first', more, rfl, likeFirst, likeMore⟩ := Token.exists_append_of_forall₂ like
  obtain ⟨z', comments, likeZ, likeComments, rfl⟩ := List.forall₂_cons_right_iff.1 likeMore
  have both : SameLine comments := (sameLine_append.2 ⟨same', same⟩).congr likeComments
  have code : Forall₂ Alike (first' ++ [z']) (first ++ [z]) :=
    List.rel_append likeFirst (.cons likeZ .nil)
  have extent' : extentFrom [] (first' ++ [z'] ++ (comments ++ next)) =
      .ok ⟨(first' ++ [z']).length, false⟩ := by
    have found := again (comments ++ next) (breaksBeforeNext_comments both.isComment apart)
    have alike : Forall₂ Alike (first' ++ [z'] ++ (comments ++ next))
        (first ++ z :: (comments ++ next)) := by
      rw [List.append_cons first z]
      exact List.rel_append code (List.forall₂_refl _)
    rw [extentFrom_eq_of_alike alike found, List.length_append, likeFirst.length_eq]
    rfl
  have close' : close false (first' ++ [z']) (comments ++ next) =
      (first' ++ z' :: comments, []) := by
    simp [close, sameLineComments_append both apart]
  have cut : first' ++ z' :: comments ++ next = (first' ++ [z']) ++ (comments ++ next) := by simp
  rw [cut]
  refine read_of_ends start extent' (readContent_again contents word ?_) close'
  rw [List.append_cons first z, withoutComments_append same'.isComment]
  exact Token.forall₂_withoutComments code

/-- Ended by a semicolon. -/
theorem read_again_semicolon {semicolon semicolon' : Token}
    (extent : extentFrom [] (body ++ semicolon :: after) = .ok ⟨body.length, true⟩)
    (contents : readContent before keyword body (semicolon :: after) = .ok (.declares heading))
    (start : starts keyword' = true) (word : ∀ w, keyword'.isWord w = keyword.isWord w)
    (like : Forall₂ Alike body' body) (likeSemicolon : Alike semicolon' semicolon)
    {full closing : List Token} (ends : close true body' (semicolon' :: next) = (full, closing)) :
    read before' keyword' (body' ++ semicolon' :: next) =
      .ok ⟨before', keyword', full, closing, .declares heading⟩ := by
  obtain ⟨found, post, -, cut, again⟩ := extentFrom_terminated extent
  rw [List.drop_left] at cut
  obtain ⟨rfl, rfl⟩ := List.cons.inj cut
  rw [List.take_left] at again
  have alike : Forall₂ Alike (body' ++ semicolon' :: next) (body ++ semicolon :: next) :=
    List.rel_append like (.cons likeSemicolon (List.forall₂_refl _))
  have extent' : extentFrom [] (body' ++ semicolon' :: next) = .ok ⟨body'.length, true⟩ := by
    rw [extentFrom_eq_of_alike alike (again next), like.length_eq]
  exact read_of_ends start extent'
    (readContent_again contents word (Token.forall₂_withoutComments like)) ends

variable {rest : List Token} {item : Item} (h : read before keyword rest = .ok item)
include h

theorem starts_of_word (word : ∀ w, keyword'.isWord w = keyword.isWord w) :
    starts keyword' = true := by
  have start := (read_eq_ok_iff.1 h).1
  simp only [starts, isDeclKeyword, word] at start ⊢
  exact start

/-- The keyword is not what completes a declaration. -/
theorem endsComplete_body {body : List Token}
    (complete : endsComplete (keyword :: body) = true) : endsComplete body = true := by
  have start := (read_eq_ok_iff.1 h).1
  unfold endsComplete at complete ⊢
  rw [List.filter_cons, not_isSeparator_of_starts start] at complete
  simp only [Bool.not_false, if_true] at complete
  cases code : body.filter fun t => !t.isSeparator with
  | nil =>
    rw [code] at complete
    simp [not_endsStatement_of_starts start] at complete
  | cons t ts =>
    rw [code, List.getLast?_cons_cons] at complete
    exact complete

/-- A complete declaration is read again in front of every line break and at the end of
the input, without the semicolon that closed it. -/
theorem read_again (declares : item.content = .declares heading)
    (complete : endsComplete (keyword :: item.body) = true) (before' : List Token)
    (word : ∀ w, keyword'.isWord w = keyword.isWord w) (like : Forall₂ Alike body' item.body)
    (apart : StartsLine next) :
    read before' keyword' (body' ++ next) =
      .ok ⟨before', keyword', body', [], .declares heading⟩ := by
  have start := starts_of_word h word
  have inner := endsComplete_body h complete
  obtain ⟨body, after, terminated, rfl, extent, contents, ends⟩ := exists_of_read h
  rw [declares] at contents
  generalize item.body = full at like ends inner
  generalize item.closing = closing at ends
  cases ends with
  | line _ =>
    have same := sameLine_sameLineComments after
    rw [endsComplete_append] at inner
    · exact read_again_line extent inner contents start word same like apart
    · intro c mem
      simp [Token.isSeparator, same.isComment c mem]
  | @commented semicolon more kind some apart' =>
    obtain ⟨core', tail', rfl, likeCore, likeTail⟩ := Token.exists_append_of_forall₂ like
    obtain ⟨semicolon', comments, likeSemicolon, likeComments, rfl⟩ :=
      List.forall₂_cons_right_iff.1 likeTail
    rw [List.append_assoc]
    refine read_again_semicolon extent contents start word likeCore likeSemicolon ?_
    have same : SameLine comments := (sameLine_sameLineComments more).congr likeComments
    have found := sameLineComments_append same apart
    have some' : comments ≠ [] := by
      rintro rfl
      exact some (List.forall₂_nil_left_iff.1 likeComments)
    simp only [close, if_true, List.append_eq, found]
    cases comments with
    | nil => exact absurd rfl some'
    | cons c cs => simp [likeSemicolon.onNewLine_eq, apart']
  | closed kind none =>
    have none_same : SameLine [] := by simp [SameLine]
    exact read_again_line extent inner contents start word none_same (by simpa using like) apart

/-- It is read again with that semicolon as well. -/
theorem read_again_closing (declares : item.content = .declares heading)
    (complete : endsComplete (keyword :: item.body) = true) (before' : List Token)
    (word : ∀ w, keyword'.isWord w = keyword.isWord w) (like : Forall₂ Alike body' item.body)
    {closing' : List Token} (likeClosing : Forall₂ Alike closing' item.closing)
    (apart : StartsLine next) :
    read before' keyword' (body' ++ (closing' ++ next)) =
      .ok ⟨before', keyword', body', closing', .declares heading⟩ := by
  have again := read_again h declares complete before' word like apart
  have start := starts_of_word h word
  obtain ⟨body, after, terminated, rfl, extent, contents, ends⟩ := exists_of_read h
  rw [declares] at contents
  generalize item.body = full at like ends
  generalize item.closing = closing at likeClosing ends
  cases ends with
  | line _ =>
    obtain rfl := List.forall₂_nil_right_iff.1 likeClosing
    exact again
  | commented _ _ _ =>
    obtain rfl := List.forall₂_nil_right_iff.1 likeClosing
    exact again
  | @closed semicolon more kind none =>
    obtain ⟨semicolon', _, likeSemicolon, none_left, rfl⟩ :=
      List.forall₂_cons_right_iff.1 likeClosing
    obtain rfl := List.forall₂_nil_right_iff.1 none_left
    refine read_again_semicolon extent contents start word like likeSemicolon ?_
    have none_same : sameLineComments ([] ++ next) = [] :=
      sameLineComments_append (by simp [SameLine]) apart
    rw [List.nil_append] at none_same
    simp [close, none_same]

/-- A comment behind a complete declaration and all that belongs to it stands on a later
line. -/
theorem onNewLine_of_rest (complete : endsComplete (keyword :: item.body) = true) {t : Token}
    (first : t ∈ (rest.drop item.size).head?) (comment : t.isComment = true) :
    t.onNewLine = true := by
  have inner := endsComplete_body h complete
  obtain ⟨body, after, terminated, rfl, extent, -, ends⟩ := exists_of_read h
  rw [size] at first
  generalize item.body = full at ends inner first
  generalize item.closing = closing at ends first
  have behind : ∀ ts : List Token, t ∈ (ts.drop (sameLineComments ts).length).head? →
      t.onNewLine = true := by
    intro ts first
    cases left : ts.drop (sameLineComments ts).length with
    | nil => simp [left] at first
    | cons u us =>
      obtain rfl : u = t := by simpa [left] using first
      exact startsLine_of_comment left comment
  cases ends with
  | line _ =>
    apply behind after
    simpa [List.drop_append] using first
  | @commented semicolon more kind _ _ =>
    apply behind more
    simpa [List.drop_append] using first
  | @closed semicolon more kind none =>
    have more_first : t ∈ more.head? := by simpa [List.drop_append] using first
    rcases none with none | apart
    · apply behind more
      simpa [none] using more_first
    · obtain ⟨-, -, -, -, -, -, line⟩ := extentFrom_again extent inner
      have := line rfl semicolon rfl
      simp [apart] at this

end Again

end Item

end GoSplit.SourceFile
