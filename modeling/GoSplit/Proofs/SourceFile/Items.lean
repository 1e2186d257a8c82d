import GoSplit.Proofs.SourceFile.Extents

/-!
Items of a file. They lie next to each other and cover the tokens behind the package
clause; an item ends with its line and the comments on it, or at a semicolon.
-/

namespace GoSplit.SourceFile

open List (Forall₂)
open Token (Alike)

namespace Item

/-- A keyword that an item can start with. -/
def starts (t : Token) : Bool := t.isWord "import" || isDeclKeyword t

theorem starts_cases {t : Token} (h : starts t = true) :
    t.kind = .ident ∧ (t.text = "import".toList ∨ t.text = "type".toList ∨
      t.text = "var".toList ∨ t.text = "const".toList ∨ t.text = "func".toList) := by
  simp only [starts, isDeclKeyword, Token.isWord, Bool.or_eq_true, Bool.and_eq_true,
    beq_iff_eq] at h
  rcases h with h | ((h | h) | h) | h
  · exact ⟨h.1, .inl h.2⟩
  · exact ⟨h.1, .inr (.inl h.2)⟩
  · exact ⟨h.1, .inr (.inr (.inl h.2))⟩
  · exact ⟨h.1, .inr (.inr (.inr (.inl h.2)))⟩
  · exact ⟨h.1, .inr (.inr (.inr (.inr h.2)))⟩

theorem not_isComment_of_starts {t : Token} (h : starts t = true) : t.isComment = false := by
  simp [Token.isComment, (starts_cases h).1]

theorem not_isSeparator_of_starts {t : Token} (h : starts t = true) : t.isSeparator = false := by
  simp [Token.isSeparator, not_isComment_of_starts h, (starts_cases h).1]

theorem not_endsStatement_of_starts {t : Token} (h : starts t = true) :
    t.endsStatement = false := by
  obtain ⟨kind, text⟩ := starts_cases h
  rw [Token.endsStatement, kind]
  rcases text with text | text | text | text | text <;> rw [text] <;> decide

/-- The keyword neither ends the item nor opens a delimiter. -/
theorem declExtent_keyword {keyword : Token} (h : starts keyword = true) (rest : List Token) :
    declExtent (keyword :: rest) = (extentFrom [] rest).map Extent.succ := by
  have kind := (starts_cases h).1
  rw [declExtent, extentFrom, not_isComment_of_starts h, not_endsStatement_of_starts h]
  simp [nest, kind]

/-- What it takes to read an item. -/
theorem read_eq_ok_iff {before rest : List Token} {keyword : Token} {item : Item} :
    read before keyword rest = .ok item ↔
      starts keyword = true ∧ ∃ n terminated content,
        extentFrom [] rest = .ok ⟨n, terminated⟩ ∧
          readContent before keyword (rest.take n) (rest.drop n) = .ok content ∧
          item = ⟨before, keyword, (close terminated (rest.take n) (rest.drop n)).1,
            (close terminated (rest.take n) (rest.drop n)).2, content⟩ := by
  unfold read
  cases word : keyword.isWord "import" || isDeclKeyword keyword with
  | false => simp [starts, word]
  | true =>
    rw [declExtent_keyword word]
    simp only [if_true, starts, word, true_and]
    cases extent : extentFrom [] rest with
    | error fault => simp [Except.map]
    | ok e =>
      simp only [Except.map, Extent.succ, Nat.add_sub_cancel, Except.ok.injEq]
      cases content : readContent before keyword (rest.take e.size) (rest.drop e.size) with
      | error fault =>
        simp only [reduceCtorEq, false_iff]
        rintro ⟨n, terminated, found, rfl, read, -⟩
        simp [content] at read
      | ok found =>
        simp only [Except.ok.injEq]
        constructor
        · rintro rfl
          exact ⟨e.size, e.terminated, found, rfl, content, rfl⟩
        · rintro ⟨n, terminated, found', rfl, read, rfl⟩
          obtain rfl : found = found' := by simpa [content] using read
          rfl

end Item

/-! ### Comments on the line of their predecessor -/

/-- Nothing, or a token on a later line. -/
def StartsLine (ts : List Token) : Prop := ∀ t ∈ ts.head?, t.onNewLine = true

/-- Comments on the line of their predecessor only. -/
def SameLine (cs : List Token) : Prop := ∀ c ∈ cs, c.isComment = true ∧ c.onNewLine = false

theorem sameLine_append {cs ds : List Token} : SameLine (cs ++ ds) ↔ SameLine cs ∧ SameLine ds := by
  simp only [SameLine, List.mem_append]
  constructor
  · intro h
    exact ⟨fun c mem => h c (.inl mem), fun c mem => h c (.inr mem)⟩
  · rintro ⟨left, right⟩ c (mem | mem)
    · exact left c mem
    · exact right c mem

theorem SameLine.isComment {cs : List Token} (h : SameLine cs) : ∀ c ∈ cs, c.isComment = true :=
  fun c mem => (h c mem).1

theorem SameLine.congr {cs ds : List Token} (h : SameLine ds) (like : Forall₂ Alike cs ds) :
    SameLine cs :=
  Token.forall_of_forall₂ (p := fun c => c.isComment = true ∧ c.onNewLine = false) like
    (fun _ _ like same => by rwa [like.isComment_eq, like.onNewLine_eq]) h

theorem sameLine_sameLineComments (ts : List Token) : SameLine (sameLineComments ts) := by
  intro c mem
  have := List.all_eq_true.1 List.all_takeWhile c mem
  simpa using this

theorem sameLineComments_append {cs next : List Token} (same : SameLine cs)
    (apart : StartsLine next) : sameLineComments (cs ++ next) = cs := by
  unfold sameLineComments
  rw [List.takeWhile_append_of_pos]
  · cases next with
    | nil => simp
    | cons t ts => simp [apart t rfl]
  · intro c mem
    simp [same c mem]

theorem sameLineComments_append_drop (ts : List Token) :
    sameLineComments ts ++ ts.drop (sameLineComments ts).length = ts := by
  have cut := List.takeWhile_append_dropWhile (p := fun t : Token => t.isComment && !t.onNewLine)
    (l := ts)
  have := congrArg (List.drop (sameLineComments ts).length) cut
  rw [sameLineComments, List.drop_left] at this
  rw [sameLineComments, ← this, cut]

/-- A comment behind those on the line stands on a later line. -/
theorem startsLine_of_comment {ts : List Token} {t : Token} {rest : List Token}
    (h : ts.drop (sameLineComments ts).length = t :: rest) (comment : t.isComment = true) :
    t.onNewLine = true := by
  have cut := List.takeWhile_append_dropWhile (p := fun t : Token => t.isComment && !t.onNewLine)
    (l := ts)
  have first := List.head?_dropWhile_not (fun t : Token => t.isComment && !t.onNewLine) ts
  have := congrArg (List.drop (sameLineComments ts).length) cut
  rw [sameLineComments, List.drop_left] at this
  rw [this, ← sameLineComments, h] at first
  simpa [comment] using first

namespace Item

/-! ### Items cover the tokens -/

theorem close_append (terminated : Bool) (body after : List Token) :
    ∃ rest, (close terminated body after).1 ++ (close terminated body after).2 ++ rest =
      body ++ after := by
  unfold close
  split
  · split
    · exact ⟨[], by simp⟩
    · next semicolon rest =>
      split
      · exact ⟨rest, by simp⟩
      · split
        · exact ⟨rest, by simp⟩
        · refine ⟨rest.drop (sameLineComments rest).length, ?_⟩
          simp [sameLineComments_append_drop]
  · refine ⟨after.drop (sameLineComments after).length, ?_⟩
    simp [sameLineComments_append_drop]

theorem read_before_keyword {before rest : List Token} {keyword : Token} {item : Item}
    (h : read before keyword rest = .ok item) : item.before = before ∧ item.keyword = keyword := by
  obtain ⟨-, n, terminated, content, -, -, rfl⟩ := read_eq_ok_iff.1 h
  exact ⟨rfl, rfl⟩

theorem body_append_closing {before rest : List Token} {keyword : Token} {item : Item}
    (h : read before keyword rest = .ok item) :
    item.body ++ item.closing ++ rest.drop item.size = rest := by
  obtain ⟨-, n, terminated, content, -, -, rfl⟩ := read_eq_ok_iff.1 h
  obtain ⟨left, eq⟩ := close_append terminated (rest.take n) (rest.drop n)
  rw [List.take_append_drop] at eq
  generalize close terminated (rest.take n) (rest.drop n) = closed at eq ⊢
  rw [size, ← List.length_append]
  conv => lhs; rhs; rw [← eq, List.drop_left]
  exact eq

end Item

theorem dropWhile_separators_append {before : List Token}
    (separators : ∀ t ∈ before, t.isSeparator = true) (rest : List Token)
    (code : ∀ t ∈ rest.head?, t.isSeparator = false) :
    (before ++ rest).takeWhile Token.isSeparator = before ∧
      (before ++ rest).dropWhile Token.isSeparator = rest := by
  rw [List.takeWhile_append_of_pos separators, List.dropWhile_append_of_pos separators]
  cases rest <;> simp_all

theorem readItems_separators {ts : List Token} (h : ∀ t ∈ ts, t.isSeparator = true) :
    readItems ts = .ok ([], ts) := by
  have cut := dropWhile_separators_append h [] (by simp)
  rw [List.append_nil] at cut
  rw [readItems]
  split
  · rw [cut.1]
  · simp_all

/-- The items of a file, one at a time. -/
theorem readItems_cons {before rest : List Token} {keyword : Token} {item : Item}
    (separators : ∀ t ∈ before, t.isSeparator = true)
    (read : Item.read before keyword rest = .ok item) :
    readItems (before ++ keyword :: rest) =
      (readItems (rest.drop item.size)).map fun found => (item :: found.1, found.2) := by
  have code := Item.not_isSeparator_of_starts (Item.read_eq_ok_iff.1 read).1
  have cut := dropWhile_separators_append separators (keyword :: rest) (by simpa using code)
  rw [readItems]
  split
  · simp_all
  · next keyword' rest' eq =>
    rw [cut.2] at eq
    obtain ⟨rfl, rfl⟩ := List.cons.inj eq
    simp only [cut.1, read]
    cases readItems (rest.drop item.size) <;> rfl

/-- The items of tokens and what is left behind them, as the parser finds them. -/
inductive ItemsOf : List Token → List Item → List Token → Prop
  | none {ts : List Token} : (∀ t ∈ ts, t.isSeparator = true) → ItemsOf ts [] ts
  | cons {before rest trailing : List Token} {keyword : Token} {item : Item} {items : List Item} :
    (∀ t ∈ before, t.isSeparator = true) → Item.read before keyword rest = .ok item →
      ItemsOf (rest.drop item.size) items trailing →
      ItemsOf (before ++ keyword :: rest) (item :: items) trailing

theorem readItems_of_itemsOf {ts trailing : List Token} {items : List Item}
    (h : ItemsOf ts items trailing) : readItems ts = .ok (items, trailing) := by
  induction h with
  | none separators => exact readItems_separators separators
  | cons separators read _ ih => rw [readItems_cons separators read, ih, Except.map]

theorem itemsOf_of_readItems {ts trailing : List Token} {items : List Item}
    (h : readItems ts = .ok (items, trailing)) : ItemsOf ts items trailing := by
  induction size : ts.length using Nat.strongRecOn generalizing ts items with
  | _ size ih =>
    have cut := List.takeWhile_append_dropWhile (p := Token.isSeparator) (l := ts)
    have separators : ∀ t ∈ ts.takeWhile Token.isSeparator, t.isSeparator = true :=
      fun t mem => List.all_eq_true.1 List.all_takeWhile t mem
    cases left : ts.dropWhile Token.isSeparator with
    | nil =>
      rw [left, List.append_nil] at cut
      rw [cut] at separators
      rw [readItems_separators separators] at h
      simp only [Except.ok.injEq, Prod.mk.injEq] at h
      obtain ⟨rfl, rfl⟩ := h
      exact .none separators
    | cons keyword rest =>
      rw [left] at cut
      cases read : Item.read (ts.takeWhile Token.isSeparator) keyword rest with
      | error fault =>
        rw [readItems] at h
        split at h
        · next none_left => simp [left] at none_left
        · next keyword' rest' eq =>
          obtain ⟨rfl, rfl⟩ := List.cons.inj (left.symm.trans eq)
          simp [read] at h
      | ok item =>
        rw [← cut, readItems_cons separators read] at h
        cases others : readItems (rest.drop item.size) with
        | error fault => simp [others, Except.map] at h
        | ok found =>
          obtain ⟨more, left'⟩ := found
          simp only [others, Except.map, Except.ok.injEq, Prod.mk.injEq] at h
          obtain ⟨rfl, rfl⟩ := h
          rw [← cut]
          refine .cons separators read (ih _ ?_ others rfl)
          have := congrArg List.length cut
          simp only [List.length_append, List.length_cons] at this
          simp only [List.length_drop]
          omega

/-- Items lie next to each other and leave out nothing. -/
theorem ItemsOf.tokens_append {ts trailing : List Token} {items : List Item}
    (h : ItemsOf ts items trailing) : items.flatMap Item.tokens ++ trailing = ts := by
  induction h with
  | none _ => rfl
  | @cons before rest trailing keyword item items _ read _ ih =>
    obtain ⟨same, same'⟩ := Item.read_before_keyword read
    have body := Item.body_append_closing read
    rw [List.flatMap_cons, List.append_assoc, ih, Item.tokens, same, same', List.append_assoc,
      List.cons_append, body]

namespace Item

/-- How an item ends whose tokens up to the end of the declaration are `body`. -/
inductive Ends (body : List Token) : Bool → List Token → List Token → List Token → Prop
  /-- At the end of a line, where comments on the line come along. -/
  | line (after : List Token) : Ends body false after (body ++ sameLineComments after) []
  /-- At a semicolon with a comment behind it, where both come along. -/
  | commented {semicolon : Token} {more : List Token} : semicolon.kind = .semicolon →
    sameLineComments more ≠ [] → semicolon.onNewLine = false →
      Ends body true (semicolon :: more) (body ++ semicolon :: sameLineComments more) []
  /-- At any other semicolon. -/
  | closed {semicolon : Token} {more : List Token} : semicolon.kind = .semicolon →
    (sameLineComments more = [] ∨ semicolon.onNewLine = true) →
      Ends body true (semicolon :: more) body [semicolon]

theorem ends_close {body after : List Token} {terminated : Bool}
    (h : extentFrom [] (body ++ after) = .ok ⟨body.length, terminated⟩) :
    Ends body terminated after (close terminated body after).1 (close terminated body after).2 := by
  unfold close
  cases terminated with
  | false => exact .line after
  | true =>
    obtain ⟨semicolon, more, kind, cut⟩ := drop_of_terminated h
    rw [List.drop_left] at cut
    subst cut
    simp only [if_true]
    split
    · next none => exact .closed kind (.inl none)
    · next some =>
      split
      · next apart => exact .closed kind (.inr apart)
      · next apart => exact .commented kind (fun e => some (by rw [e])) (by simpa using apart)

/-- What has been read when an item has been read. -/
theorem exists_of_read {before rest : List Token} {keyword : Token} {item : Item}
    (h : read before keyword rest = .ok item) :
    ∃ body after terminated, rest = body ++ after ∧
      extentFrom [] (body ++ after) = .ok ⟨body.length, terminated⟩ ∧
      readContent before keyword body after = .ok item.content ∧
      Ends body terminated after item.body item.closing := by
  obtain ⟨-, n, terminated, content, extent, contents, rfl⟩ := read_eq_ok_iff.1 h
  have size : (rest.take n).length = n := by
    rw [List.length_take]
    exact Nat.min_eq_left (extentFrom_size_le extent)
  have whole : rest.take n ++ rest.drop n = rest := List.take_append_drop ..
  have extent' : extentFrom [] (rest.take n ++ rest.drop n) =
      .ok ⟨(rest.take n).length, terminated⟩ := by
    rw [whole, size, extent]
  exact ⟨rest.take n, rest.drop n, terminated, whole.symm, extent', contents, ends_close extent'⟩

/-- The other way round. -/
theorem read_of_ends {before body after full closing : List Token} {keyword : Token}
    {terminated : Bool} {content : Content} (start : starts keyword = true)
    (extent : extentFrom [] (body ++ after) = .ok ⟨body.length, terminated⟩)
    (contents : readContent before keyword body after = .ok content)
    (ends : close terminated body after = (full, closing)) :
    read before keyword (body ++ after) = .ok ⟨before, keyword, full, closing, content⟩ := by
  rw [read_eq_ok_iff]
  refine ⟨start, body.length, terminated, content, extent, ?_, ?_⟩
  · rwa [List.take_left, List.drop_left]
  · rw [List.take_left, List.drop_left, ends]

end Item

end GoSplit.SourceFile
