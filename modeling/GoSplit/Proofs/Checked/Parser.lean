import GoSplit.Proofs.Checked.Items
import GoSplit.Proofs.SourceFile.PackageName

/-!
Parsing with checks, from the source text to a result or an error at a line and a column. The
line of an offset is searched for in the sorted list of the places where lines start, the first
of which is zero.
-/

namespace GoSplit.Checked

variable {ε α : Type}

/-! ### Positions -/

/-- Where a number stands in a sorted list, or where it has to be put in. -/
def binarySearch (items : List Nat) (x : Nat) : Except Nat Nat :=
  let index := items.countP (· < x)
  if items[index]? = some x then .ok index else .error index

/-- The line that an offset is on, when the lines start at the given offsets. -/
def lineOf (starts : List Nat) (offset : Nat) : Checked ε Nat :=
  match binarySearch starts offset with
  | .ok index => pure index
  | .error index => minus index 1

/-- The position of an offset in a file. -/
def position (name src : Text) (offset : Nat) : Checked ε Position := do
  let starts := 0 :: lineStartsFrom 0 src
  let offset := min offset src.byteLength
  let line ← lineOf starts offset
  let start ← item starts line
  return ⟨name, line + 1, (← minus offset start) + 1⟩

/-- Shows an error at its position in the file. -/
def located (name src : Text) (result : Checked ParseFault α) : Checked ParseError α :=
  ExceptT.mk (result.run.bind fun
    | .ok a => some (.ok a)
    | .error fault =>
      (do throw ⟨fault.cause, ← position name src fault.offset⟩ : Checked ParseError α).run)

theorem lt_of_mem_lineStartsFrom {offset x : Nat} {src : Text}
    (mem : x ∈ lineStartsFrom offset src) : offset < x := by
  induction src generalizing offset with
  | nil => cases mem
  | cons c src ih =>
    rw [lineStartsFrom] at mem
    have positive := c.utf8Size_pos
    split at mem
    · rcases List.mem_cons.1 mem with rfl | mem
      · exact Nat.lt_succ_self _
      · exact Nat.lt_of_succ_lt (ih mem)
    · have less := ih mem
      omega

theorem sorted_lineStartsFrom (offset : Nat) (src : Text) :
    (lineStartsFrom offset src).Pairwise (· < ·) := by
  induction src generalizing offset with
  | nil => exact .nil
  | cons c src ih =>
    rw [lineStartsFrom]
    split
    · exact .cons (fun x mem => lt_of_mem_lineStartsFrom mem) (ih _)
    · exact ih _

/-- A sorted list is cut where a number belongs. -/
theorem exists_cut {items : List Nat} (sorted : items.Pairwise (· < ·)) (x : Nat) :
    ∃ below above, items = below ++ above ∧ items.countP (· < x) = below.length ∧
      (∀ y ∈ below, y < x) ∧
      (∀ y ∈ above.tail, x < y) ∧ ∀ y ∈ above.head?, x ≤ y := by
  induction sorted with
  | nil => exact ⟨[], [], rfl, rfl, by simp, by simp, by simp⟩
  | @cons y items larger sorted ih =>
    by_cases less : y < x
    · obtain ⟨below, above, rfl, count, lower, upper, head⟩ := ih
      refine ⟨y :: below, above, rfl, ?_, ?_, upper, head⟩
      · rw [List.countP_cons_of_pos (by simpa using less), count, List.length_cons]
      · simpa using ⟨less, lower⟩
    · refine ⟨[], y :: items, rfl, ?_, by simp, fun z mem => ?_, by simp; omega⟩
      · rw [List.countP_cons_of_neg (by simpa using less), List.countP_eq_zero.2, List.length_nil]
        intro z mem
        have := larger z mem
        simp
        omega
      · have := larger z mem
        omega

/-- The line is the last one that starts at or before the offset. -/
theorem lineOf_eq {starts : List Nat} (sorted : starts.Pairwise (· < ·))
    (first : starts.head? = some 0) (x : Nat) :
    ∃ line start, (lineOf starts x : Checked ε Nat) = pure line ∧ starts[line]? = some start ∧
      start ≤ x ∧
      (starts.takeWhile (· ≤ x)).length = line + 1 ∧
      (starts.takeWhile (· ≤ x)).getLastD 0 = start := by
  obtain ⟨below, above, rfl, count, lower, upper, head⟩ := exists_cut sorted x
  have all : ∀ y ∈ below, decide (y ≤ x) = true := fun y mem => by
    have := lower y mem
    simp
    omega
  rw [lineOf, binarySearch, count, List.takeWhile_append_of_pos all]
  by_cases found : above.head? = some x
  · obtain ⟨more, rfl⟩ : ∃ more, above = x :: more := by
      cases above with
      | nil => cases found
      | cons y more => exact ⟨more, by rw [Option.some.inj found]⟩
    have later : more.takeWhile (fun y => decide (y ≤ x)) = [] := by
      cases more with
      | nil => rfl
      | cons z more =>
        have := upper z (by simp)
        rw [List.takeWhile_cons_of_neg (by simp; omega)]
    refine ⟨below.length, x, ?_, by simp, Nat.le_refl x, ?_, ?_⟩
    · simp
    · simp [later]
    · simp [later]
  · have later : above.takeWhile (fun y => decide (y ≤ x)) = [] := by
      cases above with
      | nil => rfl
      | cons y more =>
        have least := head y rfl
        have other : y ≠ x := fun same => found (congrArg some same)
        rw [List.takeWhile_cons_of_neg (by simp; omega)]
    have missing : ¬ (below ++ above)[below.length]? = some x := by
      rw [List.getElem?_append_right (Nat.le_refl _), Nat.sub_self, ← List.head?_eq_getElem?]
      exact found
    rcases List.eq_nil_or_concat below with rfl | ⟨init, last, rfl⟩
    · -- The first line starts at zero, so something is at or before the offset.
      have least := head 0 first
      exact absurd (by rw [← Nat.le_zero.1 least] at first; exact first) found
    · rw [List.concat_eq_append] at *
      refine ⟨init.length, last, ?_, by simp, Nat.le_of_lt (lower last (by simp)), by
        simp [later], by simp [later]⟩
      rw [if_neg missing]
      simp [minus]

theorem position_eq (name src : Text) (offset : Nat) :
    (position name src offset : Checked ε Position) = pure (Position.locate name src offset) := by
  have sorted : (0 :: lineStartsFrom 0 src).Pairwise (· < ·) :=
    .cons (fun x mem => lt_of_mem_lineStartsFrom mem) (sorted_lineStartsFrom 0 src)
  obtain ⟨line, start, found, there, before, counted, last⟩ :=
    @lineOf_eq ε _ sorted rfl (min offset src.byteLength)
  have located : Position.locate name src offset = ⟨name,
      ((0 :: lineStartsFrom 0 src).takeWhile (· ≤ min offset src.byteLength)).length,
      min offset src.byteLength -
        ((0 :: lineStartsFrom 0 src).takeWhile (· ≤ min offset src.byteLength)).getLastD 0 + 1⟩ :=
    rfl
  rw [located, counted, last]
  simp only [position, found, item_of_getElem? there, minus_of_le before, pure_bind]

theorem located_ofExcept (name src : Text) (result : Except ParseFault α) :
    located name src (ofExcept result) =
      ofExcept (result.mapError fun fault => fault.locate name src) := by
  cases result with
  | ok a => rfl
  | error fault =>
    have thrown : located name src (throw fault : Checked ParseFault α) =
        (do throw ⟨fault.cause, ← position name src fault.offset⟩ : Checked ParseError α) := rfl
    rw [ofExcept_error, thrown, position_eq, pure_bind]
    rfl

/-! ### Files -/

/-- Reads the tokens of a source; errors become faults of the parser. -/
def lexed (result : Checked LexError α) : Checked ParseFault α :=
  ExceptT.adapt ParseFault.ofLex result

theorem lexed_ofExcept (result : Except LexError α) :
    lexed (ofExcept result) = ofExcept (result.mapError ParseFault.ofLex) := by
  cases result <;> rfl

/-- Parses a source text. -/
def parseSource (src : Text) : Checked ParseFault Outline := do
  let marks ← lexed (Lexer.tokenize src)
  (Reading.mk src marks).outline

/-- Parses a source text; errors show their position in the file `name`. -/
def parse (name src : Text) : Checked ParseError Outline := located name src (parseSource src)

theorem parseSource_eq (src : Text) :
    parseSource src = ofExcept ((SourceFile.ofSource src).map Outline.of) := by
  rw [parseSource, Lexer.tokenize_eq, lexed_ofExcept, SourceFile.ofSource]
  cases read : Token.tokenize src with
  | error e => rfl
  | ok toks => exact Reading.outline_eq (Reading.of_tokenize read)

theorem parse_eq (name src : Text) :
    parse name src = ofExcept ((SourceFile.parse name src).map Outline.of) := by
  rw [parse, parseSource_eq, located_ofExcept, SourceFile.parse]
  cases SourceFile.ofSource src <;> rfl

/-! ### The package name alone -/

def Mark.isComment (mark : Mark) : Bool :=
  match mark.kind with
  | .lineComment | .blockComment => true
  | _ => false

/-- Reads tokens until two are found that are no comments. -/
def headTurn (src : Text) (state : Nat × List Mark) :
    Checked LexError (Turn (Nat × List Mark) (List Mark)) :=
  if 2 ≤ state.2.length then pure (.finished state.2)
  else do
    match ← Lexer.next src state.1 with
    | some mark =>
      return .again (mark.span.stop, if mark.isComment then state.2 else state.2 ++ [mark])
    | none => return .finished state.2

/-- Reads the package name and nothing behind it. -/
def packageNameOf (src : Text) : Checked ParseFault Text := do
  let found ← lexed (loop (headTurn src) (src.byteLength + 1) (0, []))
  let r : Reading := ⟨src, found⟩
  match ← r.token? 0, ← r.token? 1 with
  | some keyword, some name =>
    if keyword.isWord "package" && name.isName then return name.text
    else throw ⟨.missingPackageClause, keyword.start⟩
  | some keyword, none => throw ⟨.missingPackageClause, keyword.start⟩
  | none, _ => throw ⟨.missingPackageClause, 0⟩

/-- Reads the package name; errors show their position in the file `name`. -/
def packageName (name src : Text) : Checked ParseError Text := located name src (packageNameOf src)

section

variable {src before rest : Text} {found : Option Token}

/-- The token is the slice of the source at its span. -/
def Shown (src : Text) (t : Token) : Prop := src.slice? t.span = some t.text

theorem loop_headTurn (whole : src = before ++ rest) {turns : Nat}
    (enough : rest.byteLength < turns) (shown : ∀ t ∈ found, Shown src t) :
    ∃ two, SourceFile.firstTwo found (Token.streamFrom before.byteLength rest) = two ∧
      (∀ a b, two = .ok (a, b) → ∀ t ∈ a.toList ++ b.toList, Shown src t) ∧
      loop (headTurn src) turns (before.byteLength, found.toList.map Mark.of) =
        ofExcept (two.map fun two => (two.1.toList ++ two.2.toList).map Mark.of) := by
  obtain ⟨turns, rfl⟩ : ∃ n, turns = n + 1 := ⟨turns - 1, by omega⟩
  induction size : rest.length using Nat.strongRecOn generalizing before rest found turns with
  | ind n ih =>
  have few : ¬ 2 ≤ (found.toList.map Mark.of).length := by cases found <;> simp
  rcases Lexer.streamFrom_cases before.byteLength rest with
    ⟨blank, stream⟩ | ⟨c, more, cause, split, read, stream⟩ |
    ⟨t, c, more, k, split, read, gap, text, start, stream⟩
  · have turn : headTurn src (before.byteLength, found.toList.map Mark.of) =
        pure (.finished (found.toList.map Mark.of)) := by
      rw [headTurn, if_neg few, Lexer.next_eq whole, stream]
      rfl
    refine ⟨_, rfl, ?_, ?_⟩
    · rw [stream]
      rintro a b same t mem
      simp only [SourceFile.firstTwo, Except.ok.injEq, Prod.mk.injEq] at same
      obtain ⟨rfl, rfl⟩ := same
      exact shown t (by simpa using mem)
    · rw [loop_finished turn, stream]
      simp [SourceFile.firstTwo, Except.map]
  · have turn : headTurn src (before.byteLength, found.toList.map Mark.of) =
        throw ⟨cause, before.byteLength + Text.byteLength (rest.takeWhile Token.isSpace)⟩ := by
      rw [headTurn, if_neg few, Lexer.next_eq whole, stream]
      rfl
    refine ⟨_, rfl, ?_, ?_⟩
    · rw [stream]
      rintro a b same
      cases same
    · rw [loop_throw turn, stream]
      rfl
  · have turn : headTurn src (before.byteLength, found.toList.map Mark.of) = pure (.again (t.stop,
        if t.isComment then found.toList.map Mark.of else
          found.toList.map Mark.of ++ [.of t])) := by
      rw [headTurn, if_neg few, Lexer.next_eq whole, stream]
      rfl
    have behind : src = (before ++ (t.gap ++ t.text)) ++ more.drop k := by
      rw [whole, split, text]
      simp
    have reached : t.stop = (before ++ (t.gap ++ t.text)).byteLength := by
      rw [Token.stop, start]
      simp [Nat.add_assoc]
    have here : Shown src t := by
      refine Text.slice?_eq_some_iff.2 ⟨before ++ t.gap, more.drop k, by rw [behind]; simp, ?_⟩
      simp [Token.span, Token.stop, start]
    have less : (more.drop k).length < n := by
      rw [← size, split]
      simp
      omega
    have shorter : Text.byteLength (more.drop k) < turns := by
      have pos := c.utf8Size_pos
      have kept : Text.byteLength (more.drop k) ≤ Text.byteLength more := by
        conv_rhs => rw [← List.take_append_drop k more, Text.byteLength_append]
        exact Nat.le_add_left _ _
      rw [split, Text.byteLength_append, Text.byteLength_cons] at enough
      omega
    obtain ⟨turns, rfl⟩ : ∃ m, turns = m + 1 := ⟨turns - 1, by omega⟩
    rw [stream]
    by_cases comment : t.isComment = true
    · have next := @ih _ less _ _ found behind shown turns shorter rfl
      rw [← reached] at next
      rw [loop_again (by rw [turn, if_pos comment]), SourceFile.firstTwo_comment comment]
      exact next
    · have turn := turn.trans (congrArg _ (congrArg _ (congrArg _ (if_neg comment))))
      rw [loop_again turn]
      cases found with
      | none =>
        have next := @ih _ less _ _ (some t) behind (by simpa using here) turns shorter rfl
        rw [← reached] at next
        rw [SourceFile.firstTwo_first comment]
        exact next
      | some first =>
        have full : headTurn src (t.stop, (some first).toList.map Mark.of ++ [.of t]) =
            pure (.finished [.of first, .of t]) := rfl
        rw [SourceFile.firstTwo_second comment, loop_finished full]
        refine ⟨_, rfl, ?_, rfl⟩
        rintro a b same u mem
        simp only [Except.ok.injEq, Prod.mk.injEq] at same
        obtain ⟨rfl, rfl⟩ := same
        rcases List.mem_append.1 mem with mem | mem
        · exact shown u (Option.mem_toList.1 mem)
        · obtain rfl : u = t := by simpa using mem
          exact here

/-- The first tokens of a reading. -/
theorem token?_shown {src : Text} {ahead later : List Token} {t : Token} (shown : Shown src t) :
    ((Reading.mk src ((ahead ++ t :: later).map Mark.of)).token? ahead.length :
      Checked ε (Option Token)) =
      pure (some (bare t)) := by
  have mark : (item ((ahead ++ t :: later).map Mark.of) ahead.length : Checked ε Mark) =
      pure (.of t) :=
    item_of_getElem? (by simp)
  have text : (slice src t.start t.stop : Checked ε Text) = pure t.text := slice_of_slice? shown
  rw [Reading.token?, if_pos (by simp [Reading.size]), Reading.token, mark, pure_bind]
  simp only [Mark.of, Token.span, text, pure_bind]
  rfl

/-- A second token is found only behind a first one. -/
theorem eq_none_of_firstTwo {stream : List (Except LexError Token)} {second : Option Token}
    (two : SourceFile.firstTwo found stream = .ok (none, second)) : second = none := by
  induction stream generalizing found with
  | nil =>
    simp only [SourceFile.firstTwo, Except.ok.injEq, Prod.mk.injEq] at two
    exact two.2.symm
  | cons result stream ih =>
    cases result with
    | error e => cases two
    | ok t =>
      by_cases comment : t.isComment = true
      · rw [SourceFile.firstTwo_comment comment] at two
        exact ih two
      · cases found with
        | none =>
          rw [SourceFile.firstTwo_first comment] at two
          exact ih two
        | some first =>
          rw [SourceFile.firstTwo_second comment] at two
          cases two

theorem packageNameOf_eq (src : Text) :
    packageNameOf src = ofExcept (SourceFile.packageNameOf src) := by
  obtain ⟨two, found, shown, read⟩ :=
    @loop_headTurn src [] src none rfl (src.byteLength + 1) (Nat.lt_succ_self _)
    (by simp)
  have found : SourceFile.firstTwo none (Token.stream src) = two := found
  simp only [Option.toList_none, List.map_nil] at read
  have start : Text.byteLength [] = 0 := rfl
  rw [start] at read
  rw [packageNameOf, read, lexed_ofExcept, SourceFile.packageNameOf, found]
  rcases two with e | ⟨_ | keyword, second⟩
  · rfl
  · rw [eq_none_of_firstTwo found]
    rfl
  · have here := shown _ _ rfl keyword (by simp)
    cases second with
    | none =>
      have first := @token?_shown ParseFault src [] [] keyword here
      have second :
          ((Reading.mk src [Mark.of keyword]).token? 1 : Checked ParseFault (Option Token)) =
            pure none := rfl
      simp only [Except.map, Except.mapError, ofExcept_ok, pure_bind, Option.toList_some,
        Option.toList_none, List.append_nil, List.map_cons, List.map_nil]
      simp only [List.nil_append, List.map_cons, List.map_nil, List.length_nil] at first
      simp only [first, second, pure_bind]
      rfl
    | some name =>
      have there := shown _ _ rfl name (by simp)
      have first := @token?_shown ParseFault src [] [name] keyword here
      have second := @token?_shown ParseFault src [keyword] [] name there
      simp only [Except.map, Except.mapError, ofExcept_ok, pure_bind, Option.toList_some,
        List.singleton_append, List.map_cons, List.map_nil]
      simp only [List.nil_append, List.cons_append, List.map_cons, List.map_nil, List.length_nil,
        List.length_singleton]
        at first second
      simp only [first, second, pure_bind]
      rw [bare_isWord, bare_isName]
      split_ifs <;> rfl

theorem packageName_eq (name src : Text) :
    packageName name src = ofExcept (SourceFile.parsePackageName name src) := by
  rw [packageName, packageNameOf_eq, located_ofExcept]
  rfl

end

end GoSplit.Checked
