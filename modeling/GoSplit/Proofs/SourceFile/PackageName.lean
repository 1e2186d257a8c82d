import GoSplit.Proofs.SourceFile.Parsed

/-!
Reading the package name alone. The reader stops at the second token that is no comment. What
it has read by then is read in front of any rest, so nothing behind the name matters; and the
parser of whole files, which starts with the same tokens, finds the same name.
-/

namespace GoSplit

namespace Token

/-- Tokens that a stream starts with are read in front of what is left of the text. -/
theorem chained_of_stream {src : Text} {offset : Nat} {ts : List Token}
    {others : List (Except LexError Token)} (h : streamFrom offset src = ts.map .ok ++ others) :
    ∃ rest, src = written ts ++ rest ∧ Chained ts rest ∧ place offset ts = ts := by
  induction ts generalizing src offset with
  | nil => exact ⟨src, rfl, trivial, rfl⟩
  | cons t ts ih =>
    have cut := List.takeWhile_append_dropWhile (p := isSpace) (l := src)
    cases left : src.dropWhile isSpace with
    | nil =>
      rw [streamFrom_eq_nil left] at h
      cases h
    | cons c rest =>
      have solid := solid_of_dropWhile left
      cases read : scan c rest with
      | error cause =>
        rw [streamFrom_eq_error left read] at h
        cases h
      | ok found =>
        obtain ⟨kind, n⟩ := found
        rw [streamFrom_eq_cons left read, List.map_cons, List.cons_append] at h
        obtain ⟨first, later⟩ := List.cons.inj h
        obtain ⟨tail, eq, chained, placed⟩ := ih later
        have reads := reads_of_scan solid read
        obtain rfl := Except.ok.inj first
        refine ⟨tail, ?_, ⟨blank_takeWhile src, eq ▸ reads, chained⟩, ?_⟩
        · rw [written_cons, List.append_assoc, ← eq, List.append_assoc, List.cons_append,
            List.take_append_drop, ← left, cut]
        · rw [place, placed]

theorem eq_map_of_collect {ε α : Type} {results : List (Except ε α)} {as : List α}
    (h : collect results = .ok as) : results = as.map .ok := by
  induction results generalizing as with
  | nil =>
    obtain rfl : [] = as := by simpa [collect] using h
    rfl
  | cons result results ih =>
    cases result with
    | error e => simp [collect] at h
    | ok a =>
      rw [collect] at h
      cases later : collect results with
      | error e => simp [later] at h
      | ok others =>
        obtain rfl : a :: others = as := by simpa [later] using h
        rw [ih later, List.map_cons]

end Token

namespace SourceFile

/-! ### The first two tokens that are no comments -/

section

variable {stream : List (Except LexError Token)} {found : Option Token} {t : Token}

theorem firstTwo_comment (comment : t.isComment = true) :
    firstTwo found (.ok t :: stream) = firstTwo found stream := by
  cases found <;> simp [firstTwo, comment]

theorem firstTwo_first (code : ¬ t.isComment = true) :
    firstTwo none (.ok t :: stream) = firstTwo (some t) stream := by
  simp [firstTwo, code]

theorem firstTwo_second {first : Token} (code : ¬ t.isComment = true) :
    firstTwo (some first) (.ok t :: stream) = .ok (some first, some t) := by
  simp [firstTwo, code]

/-- An error in front of the second token is the first one of the text. -/
theorem collect_of_firstTwo {e : LexError} (h : firstTwo found stream = .error e) :
    Token.collect stream = .error e := by
  induction stream generalizing found with
  | nil => simp [firstTwo] at h
  | cons result stream ih =>
    cases result with
    | error e' => simpa [firstTwo, Token.collect] using h
    | ok t =>
      have later : Token.collect stream = .error e := by
        by_cases comment : t.isComment = true
        · rw [firstTwo_comment comment] at h
          exact ih h
        · cases found with
          | none =>
            rw [firstTwo_first comment] at h
            exact ih h
          | some first =>
            rw [firstTwo_second comment] at h
            cases h
      rw [Token.collect, later]

/-- The tokens are found without looking behind the second one. -/
theorem exists_prefix_of_firstTwo {first second : Token}
    (h : firstTwo found stream = .ok (some first, some second)) :
    ∃ (ts : List Token) (others : List (Except LexError Token)), stream = ts.map .ok ++ others ∧
      ∀ more, firstTwo found (ts.map .ok ++ more) = .ok (some first, some second) := by
  induction stream generalizing found with
  | nil => simp [firstTwo] at h
  | cons result stream ih =>
    cases result with
    | error e => simp [firstTwo] at h
    | ok t =>
      by_cases comment : t.isComment = true
      · rw [firstTwo_comment comment] at h
        obtain ⟨ts, others, rfl, same⟩ := ih h
        refine ⟨t :: ts, others, rfl, fun more => ?_⟩
        rw [List.map_cons, List.cons_append, firstTwo_comment comment, same]
      · cases found with
        | none =>
          rw [firstTwo_first comment] at h
          obtain ⟨ts, others, rfl, same⟩ := ih h
          refine ⟨t :: ts, others, rfl, fun more => ?_⟩
          rw [List.map_cons, List.cons_append, firstTwo_first comment, same]
        | some before =>
          rw [firstTwo_second comment] at h
          exact ⟨[t], stream, rfl, fun more => (firstTwo_second comment).trans h⟩

theorem firstTwo_comments (found : Option Token) (ts : List Token) :
    firstTwo found (ts.map .ok) = firstTwo found ((ts.dropWhile Token.isComment).map .ok) := by
  induction ts with
  | nil => rfl
  | cons t ts ih =>
    by_cases comment : t.isComment = true
    · rw [List.map_cons, firstTwo_comment comment, ih, List.dropWhile_cons_of_pos comment]
    · rw [List.dropWhile_cons_of_neg comment]

end

theorem not_isComment_of_dropWhile {ts rest : List Token} {t : Token}
    (h : ts.dropWhile Token.isComment = t :: rest) : ¬ t.isComment = true := by
  have := List.head?_dropWhile_not Token.isComment ts
  rw [h] at this
  simpa using this

theorem firstTwo_eq {ts rest after : List Token} {keyword name : Token}
    (first : ts.dropWhile Token.isComment = keyword :: rest)
    (second : rest.dropWhile Token.isComment = name :: after) :
    firstTwo none (ts.map .ok) = .ok (some keyword, some name) := by
  rw [firstTwo_comments, first, List.map_cons, firstTwo_first (not_isComment_of_dropWhile first)]
  rw [firstTwo_comments, second, List.map_cons, firstTwo_second (not_isComment_of_dropWhile second)]

/-! ### The name -/

variable {src n : Text}

theorem packageNameOf_eq_ok_iff :
    packageNameOf src = .ok n ↔ ∃ keyword name,
      firstTwo none (Token.stream src) = .ok (some keyword, some name) ∧
        keyword.isWord "package" = true ∧ name.isName = true ∧ name.text = n := by
  rw [packageNameOf]
  split
  · next e failed => simp [failed]
  · next keyword name read =>
    by_cases clause : (keyword.isWord "package" && name.isName) = true
    · rw [if_pos clause]
      rw [Bool.and_eq_true] at clause
      simp only [Except.ok.injEq, read, Prod.mk.injEq, Option.some.injEq]
      constructor
      · rintro rfl
        exact ⟨_, _, ⟨rfl, rfl⟩, clause.1, clause.2, rfl⟩
      · rintro ⟨_, _, ⟨rfl, rfl⟩, -, -, same⟩
        exact same
    · rw [if_neg clause]
      rw [Bool.and_eq_true] at clause
      simp only [reduceCtorEq, read, Except.ok.injEq, Prod.mk.injEq, Option.some.injEq, false_iff]
      rintro ⟨_, _, ⟨rfl, rfl⟩, isPackage, isName, -⟩
      exact clause ⟨isPackage, isName⟩
  · next keyword read => simp [read]
  · next second read => simp [read]

/-- A lexical error of the short reader is one of the text. -/
theorem ofSource_of_lex {cause : LexError.Cause} {offset : Nat}
    (h : packageNameOf src = .error ⟨.lex cause, offset⟩) :
    ofSource src = .error ⟨.lex cause, offset⟩ := by
  rw [packageNameOf] at h
  split at h
  · next e failed =>
    rw [ofSource, Token.tokenize, collect_of_firstTwo failed]
    exact congrArg _ (Except.error.inj h)
  · split at h <;> simp at h
  · simp at h
  · simp at h

theorem packageNameOf_of_ofSource {file : SourceFile} (h : ofSource src = .ok file) :
    packageNameOf src = .ok file.package.name := by
  obtain ⟨ts, lexed, found⟩ := ofSource_eq_ok_iff.1 h
  obtain ⟨package, rest, items, trailing, clause, -, rfl⟩ := ofTokens_eq_ok_iff.1 found
  obtain ⟨keyword, cs, name, after, eq, comments, isPackage, isName, rfl, -⟩ :=
    readPackage_eq_ok_iff.1 clause
  have code : ¬ name.isComment = true := by
    rw [Token.isName, Bool.and_eq_true, beq_iff_eq] at isName
    simp [Token.isComment, isName.1]
  refine packageNameOf_eq_ok_iff.2 ⟨keyword, name, ?_, isPackage, isName, rfl⟩
  rw [Token.eq_map_of_collect lexed]
  have second : (cs ++ name :: after).dropWhile Token.isComment = name :: after := by
    rw [List.dropWhile_append_of_pos comments, List.dropWhile_cons_of_neg code]
  exact firstTwo_eq eq second

/-- The name is found whatever follows on further lines. -/
theorem packageNameOf_append (h : packageNameOf src = .ok n) (more : Text) :
    packageNameOf (src ++ '\n' :: more) = .ok n := by
  obtain ⟨keyword, name, read, isPackage, isName, same⟩ := packageNameOf_eq_ok_iff.1 h
  obtain ⟨ts, others, eq, reads⟩ := exists_prefix_of_firstTwo read
  obtain ⟨rest, whole, chained, placed⟩ := Token.chained_of_stream eq
  have longer := Token.streamFrom_append (chained.insertNewline more) 0
  refine packageNameOf_eq_ok_iff.2 ⟨keyword, name, ?_, isPackage, isName, same⟩
  rw [Token.stream, whole, List.append_assoc, longer, placed]
  exact reads _

/-- The reader of the package name agrees with the parser of whole files. It finds the name of
every file that is accepted; where it fails the file is refused, for the same reason at the same
position when a token was at fault; and what stands on the lines behind the text it has read does
not matter. -/
theorem parsePackageName_agrees (name src : Text) :
    (∀ file, parse name src = .ok file → parsePackageName name src = .ok file.package.name) ∧
    (∀ e, parsePackageName name src = .error e → ∃ e', parse name src = .error e' ∧
      ∀ cause, e.cause = .lex cause → e' = e) ∧
    ∀ n, parsePackageName name src = .ok n →
      ∀ more, parsePackageName name (src ++ '\n' :: more) = .ok n := by
  refine ⟨fun file accepted => ?_, fun e refused => ?_, fun n found more => ?_⟩
  · cases result : ofSource src with
    | error fault => simp [parse, result, Except.mapError] at accepted
    | ok found =>
      obtain rfl : found = file := by simpa [parse, result, Except.mapError] using accepted
      rw [parsePackageName, packageNameOf_of_ofSource result]
      rfl
  · cases failed : packageNameOf src with
    | ok n => simp [parsePackageName, failed, Except.mapError] at refused
    | error fault =>
      obtain rfl : fault.locate name src = e := by
        simpa [parsePackageName, failed, Except.mapError] using refused
      cases result : ofSource src with
      | ok file => simp [packageNameOf_of_ofSource result] at failed
      | error fault' =>
        refine ⟨fault'.locate name src, by rw [parse, result]; rfl, fun cause lexical => ?_⟩
        obtain ⟨_, offset⟩ := fault
        obtain rfl := lexical
        rw [ofSource_of_lex failed] at result
        rw [Except.error.inj result]
  · cases read : packageNameOf src with
    | error fault => simp [parsePackageName, read, Except.mapError] at found
    | ok n' =>
      obtain rfl : n' = n := by simpa [parsePackageName, read, Except.mapError] using found
      rw [parsePackageName, packageNameOf_append read more]
      rfl

/-- A package clause between comments. -/
def clauseSource : Text := "/* head\n*/ package /* the */ p // name\n\nfunc F() \x7b\x7d\n".toList

/-- A comment that does not end stands in the clause. -/
def openClause : Text := "package /* the p\n".toList

/-- The clause is all that the lines in front of a broken literal hold. -/
theorem parsePackageName_agrees_sample :
    (∃ file, parse "p.go".toList clauseSource = .ok file ∧
      parsePackageName "p.go".toList clauseSource = .ok file.package.name) ∧
    (∃ e, parsePackageName "p.go".toList openClause = .error e ∧
      parse "p.go".toList openClause = .error e) ∧
    parsePackageName "p.go".toList ("package p".toList ++ '\n' :: "\"open".toList) = .ok ['p'] := by
  refine ⟨?_, ?_, ?_⟩
  · have check : (parse "p.go".toList clauseSource).toOption.isSome = true := by
      unfold clauseSource
      rw [String.toList_ofList]
      decide +kernel
    cases accepted : parse "p.go".toList clauseSource with
    | error e =>
      rw [accepted] at check
      cases check
    | ok file => exact ⟨file, rfl, (parsePackageName_agrees _ _).1 file accepted⟩
  · have refused : parsePackageName "p.go".toList openClause =
        .error ⟨.lex .unterminatedComment, ⟨"p.go".toList, 1, 9⟩⟩ := by decide +kernel
    obtain ⟨e', same, lexical⟩ := (parsePackageName_agrees _ _).2.1 _ refused
    exact ⟨_, refused, lexical _ rfl ▸ same⟩
  · have found : parsePackageName "p.go".toList "package p".toList = .ok ['p'] := by decide +kernel
    exact (parsePackageName_agrees _ _).2.2 _ found _

end SourceFile

end GoSplit
