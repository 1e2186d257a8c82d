import GoSplit.Proofs.Checked.Header
import GoSplit.Proofs.Checked.Headings
import GoSplit.Proofs.Checked.Imports
import GoSplit.Proofs.Selector.Code

/-!
The items of a file, read by index. A declaration is known by its span; comments behind the last
item move the end of the last declaration. Every turn of the loop takes at least the keyword of
an item, so the turns run out only behind the last one.
-/

namespace GoSplit.Checked

open SourceFile (Item)

/-- A declaration that is known by where it stands. -/
structure DeclSpan where
  heading : Heading
  span : Span
  leadingStart : Option Nat
  deriving DecidableEq, Repr

def DeclSpan.of (d : Decl) : DeclSpan := ⟨d.heading, d.span, d.leadingStart⟩

/-- A file whose declarations are known by where they stand. -/
structure Outline where
  header : Header
  package : PackageClause
  imports : List ImportDecl
  decls : List DeclSpan
  deriving DecidableEq, Repr

def Outline.of (file : SourceFile) : Outline :=
  ⟨file.header, file.package, file.imports, file.decls.map DeclSpan.of⟩

namespace Reading

variable {ε : Type}

/-- A semicolon is passed over with the comments behind it. -/
def separatorTurn (r : Reading) (pos : Nat) : Checked ε (Turn Nat Nat) := do
  match ← r.token? pos with
  | some t =>
    if t.kind = .semicolon then return .again (← r.skipComments (pos + 1)) else return .finished pos
  | none => return .finished pos

/-- Where the semicolons and comments from an index on end. -/
def skipSeparators (r : Reading) (pos : Nat) : Checked ε Nat :=
  loop r.separatorTurn (r.size + 1) pos

/-- Where the comments between two indices start. -/
def leadingStart (r : Reading) (first stop : Nat) : Checked ε (Option Nat) :=
  if first < stop then do return some (← r.token first).start else pure none

/-- The last declaration reaches up to the comments between two indices. -/
def stretchLast (r : Reading) (first stop : Nat) (decls : List DeclSpan) :
    Checked ε (List DeclSpan) :=
  match decls.getLast? with
  | some last =>
    if first < stop then do
      let comment ← r.token (← minus stop 1)
      return decls.dropLast ++ [{ last with span := ⟨last.span.start, comment.stop⟩ }]
    else pure decls
  | none => pure decls

/-- Where the reading of a file has come to. -/
structure Parsing where
  pos : Nat
  imports : List ImportDecl
  decls : List DeclSpan

/-- Reads the item whose keyword is at an index; the comments above it are between the two
others. -/
def readItem (r : Reading) (s : Parsing) (behind start : Nat) (keyword : Token) :
    Checked ParseFault Parsing := do
  let leading ← r.leadingStart s.pos behind
  if keyword.isWord "import" || Item.isDeclKeyword keyword then
    let ending ← r.scanDeclEnd start
    let (last, next) ← r.absorbTrailing ending
    if keyword.isWord "import" then
      let (grouped, specs) ← r.importSpecs start ending.stop s.pos behind
      return ⟨next, s.imports ++ [⟨⟨keyword.start, last⟩, grouped, specs⟩], s.decls⟩
    else
      let heading ← r.heading start ending.stop
      return ⟨next, s.imports, s.decls ++ [⟨heading, ⟨keyword.start, last⟩, leading⟩]⟩
  else throw ⟨.unexpectedToken keyword.text .declaration, keyword.start⟩

def itemTurn (r : Reading) (s : Parsing) :
    Checked ParseFault (Turn Parsing (List ImportDecl × List DeclSpan)) := do
  let behind ← r.skipComments s.pos
  let start ← r.skipSeparators behind
  match ← r.token? start with
  | none => return .finished (s.imports, ← r.stretchLast s.pos behind s.decls)
  | some keyword => return .again (← r.readItem s behind start keyword)

/-- The whole file. -/
def outline (r : Reading) : Checked ParseFault Outline := do
  let stop ← r.skipComments 0
  let header ← r.buildHeader stop
  let (package, next) ← r.packageClause stop
  let (imports, decls) ← loop r.itemTurn (r.size + 1) ⟨next, [], []⟩
  return ⟨header, package, imports, decls⟩

namespace Of

variable {r : Reading} {before : Text} {toks front rest : List Token} {t keyword : Token}

theorem takeWhile_separators (ts : List Token) :
    ts.takeWhile Token.isSeparator = ts.takeWhile Token.isComment ++
      (ts.dropWhile Token.isComment).takeWhile Token.isSeparator := by
  induction ts with
  | nil => rfl
  | cons t ts ih =>
    by_cases comment : t.isComment = true
    · have separator : t.isSeparator = true := by simp [Token.isSeparator, comment]
      rw [List.takeWhile_cons_of_pos separator, List.takeWhile_cons_of_pos comment,
        List.dropWhile_cons_of_pos comment, ih, List.cons_append]
    · rw [List.takeWhile_cons_of_neg comment, List.dropWhile_cons_of_neg comment, List.nil_append]

theorem loop_separatorTurn (h : r.Of before toks) (cut : toks = front ++ rest)
    (code : ∀ t ∈ rest.head?, t.isComment = false) {turns : Nat} (enough : rest.length < turns) :
    (loop r.separatorTurn turns front.length : Checked ε Nat) =
      pure (front.length + (rest.takeWhile Token.isSeparator).length) := by
  obtain ⟨turns, rfl⟩ : ∃ n, turns = n + 1 := ⟨turns - 1, by omega⟩
  induction size : rest.length using Nat.strongRecOn generalizing front rest turns with
  | ind n ih =>
  have here := @token?_eq ε r before toks front rest h cut
  cases rest with
  | nil =>
    have turn : (r.separatorTurn front.length : Checked ε _) = pure (.finished front.length) := by
      rw [separatorTurn, here]
      rfl
    rw [loop_finished turn]
    rfl
  | cons t ts =>
    have notComment : t.isComment = false := code t rfl
    by_cases semicolon : t.kind = .semicolon
    · have separator : t.isSeparator = true := by simp [Token.isSeparator, semicolon]
      have behind : toks = (front ++ [t]) ++ ts := by simp [cut]
      have skipped := @skipComments_eq ε r before toks (front ++ [t]) ts h behind
      have turn : (r.separatorTurn front.length : Checked ε _) =
          pure (.again (front.length + 1 + (ts.takeWhile Token.isComment).length)) := by
        rw [List.length_append, List.length_singleton] at skipped
        simp only [separatorTurn, here, List.head?_cons, Option.map_some, pure_bind, skipped]
        exact if_pos semicolon
      have split := (List.takeWhile_append_dropWhile (p := Token.isComment) (l := ts)).symm
      have separators := takeWhile_separators ts
      have code' : ∀ u ∈ (ts.dropWhile Token.isComment).head?, u.isComment = false := by
        intro u mem
        have head := List.head?_dropWhile_not Token.isComment ts
        rw [Option.mem_def.1 mem] at head
        simpa using head
      generalize ts.takeWhile Token.isComment = comments at turn split separators
      generalize ts.dropWhile Token.isComment = code at split separators code'
      have place : front.length + 1 + comments.length = (front ++ t :: comments).length := by
        simp only [List.length_append, List.length_cons]
        omega
      have less : code.length < n := by
        rw [← size, split, List.length_cons, List.length_append]
        omega
      obtain ⟨turns, rfl⟩ : ∃ n, turns = n + 1 := ⟨turns - 1, by omega⟩
      have next := @ih code.length less (front ++ t :: comments) code (by rw [cut, split]; simp)
        code' turns (by omega) rfl
      rw [loop_again turn, place, next, List.takeWhile_cons_of_pos separator, separators]
      simp only [List.length_append, List.length_cons, Nat.add_assoc, Nat.add_comm 1]
    · have other : ¬ t.isSeparator = true := by simp [Token.isSeparator, notComment, semicolon]
      have turn : (r.separatorTurn front.length : Checked ε _) = pure (.finished front.length) := by
        rw [separatorTurn, here]
        simp only [List.head?_cons, Option.map_some, pure_bind]
        exact if_neg semicolon
      rw [loop_finished turn, List.takeWhile_cons_of_neg other]
      rfl

theorem leadingComments_takeWhile (ts : List Token) :
    Item.leadingComments (ts.takeWhile Token.isSeparator) = ts.takeWhile Token.isComment := by
  have both : (fun t : Token => decide (t.isComment = true ∧ t.isSeparator = true)) =
      Token.isComment := by
    funext t
    cases comment : t.isComment <;> simp [Token.isSeparator, comment]
  rw [Item.leadingComments, List.takeWhile_takeWhile, both]

theorem skipSeparators_eq (h : r.Of before toks) (cut : toks = front ++ rest) :
    (r.skipSeparators (front.length + (rest.takeWhile Token.isComment).length) : Checked ε Nat) =
      pure (front.length + (rest.takeWhile Token.isSeparator).length) := by
  have split := (List.takeWhile_append_dropWhile (p := Token.isComment) (l := rest)).symm
  have separators := takeWhile_separators rest
  have code : ∀ u ∈ (rest.dropWhile Token.isComment).head?, u.isComment = false := fun u mem => by
    have head := List.head?_dropWhile_not Token.isComment rest
    rw [Option.mem_def.1 mem] at head
    simpa using head
  generalize rest.takeWhile Token.isComment = comments at split separators
  generalize rest.dropWhile Token.isComment = left at split separators code
  have cut' : toks = (front ++ comments) ++ left := by rw [cut, split, List.append_assoc]
  have skipped := @loop_separatorTurn ε r before toks (front ++ comments) left h cut' code
    (r.size + 1)
    (by rw [h.size_eq, cut', List.length_append]; omega)
  rw [List.length_append] at skipped
  rw [skipSeparators, skipped, separators, List.length_append, Nat.add_assoc]

section

variable {separators : List Token}

theorem leadingStart_eq (h : r.Of before toks) (cut : toks = front ++ (separators ++ rest)) :
    (r.leadingStart front.length
      (front.length + (Item.leadingComments separators).length) : Checked ε _) =
      pure ((if (Item.leadingComments separators).isEmpty then [] else separators).head?.map
        (·.start)) := by
  cases comments : Item.leadingComments separators with
  | nil =>
    rw [leadingStart, if_neg (by simp)]
    rfl
  | cons c cs =>
    cases separators with
    | nil => cases comments
    | cons t separators =>
      have here := @token_eq ε r before toks front _ t h cut
      rw [leadingStart, if_pos (by simp), here, pure_bind]
      rfl

theorem readItem_eq (h : r.Of before toks) (cut : toks = front ++ (separators ++ keyword :: rest))
    (imports : List ImportDecl) (decls : List DeclSpan) :
    (∃ fault, Item.read separators keyword rest = .error fault ∧
      r.readItem ⟨front.length, imports, decls⟩
        (front.length + (Item.leadingComments separators).length)
        (front.length + separators.length) (bare keyword) = throw fault) ∨
    ∃ item, Item.read separators keyword rest = .ok item ∧
      r.readItem ⟨front.length, imports, decls⟩
        (front.length + (Item.leadingComments separators).length)
        (front.length + separators.length) (bare keyword) =
        pure ⟨(front ++ item.tokens).length, imports ++ SourceFile.importsOf [item],
          decls ++ (SourceFile.declsOf [] [item]).map DeclSpan.of⟩ := by
  have place : (front ++ separators).length = front.length + separators.length := List.length_append
  have cut' : toks = (front ++ separators) ++ keyword :: rest := by rw [cut, List.append_assoc]
  have scanned := @scanDeclEnd_eq r before toks (front ++ separators) (keyword :: rest) h cut'
  rw [place] at scanned
  rw [readItem, h.leadingStart_eq cut, pure_bind, Item.read]
  by_cases starts : (keyword.isWord "import" || Item.isDeclKeyword keyword) = true
  · rw [if_pos (show ((bare keyword).isWord "import" || Item.isDeclKeyword (bare keyword)) =
        true from starts),
      if_pos starts, scanned, Item.declExtent_keyword starts]
    cases extent : extentFrom [] rest with
    | error fault => exact .inl ⟨fault, rfl, rfl⟩
    | ok e =>
      have size : (rest.take e.size).length = e.size := by
        rw [List.length_take]
        exact Nat.min_eq_left (extentFrom_size_le extent)
      have closed : e.terminated = true → ∃ semicolon more, rest.drop e.size = semicolon :: more ∧
          semicolon.kind = .semicolon := by
        intro terminated
        obtain ⟨semicolon, more, kind, left⟩ :=
          drop_of_terminated (n := e.size) (by rw [extent, ← terminated])
        exact ⟨semicolon, more, left, kind⟩
      have nested : Balances [] (rest.take e.size) := balances_of_extentFrom .nil extent
      have whole := (List.take_append_drop e.size rest).symm
      have counted : e.succ.size - 1 = e.size := Nat.add_sub_cancel ..
      have terminated : e.succ.terminated = e.terminated := rfl
      have ending : endOf (front.length + separators.length) e.succ =
          ⟨front.length + separators.length + 1 + (rest.take e.size).length,
            front.length + separators.length + 1 + (rest.take e.size).length + if e.terminated
              then 1 else 0⟩ := by
        rw [size, endOf_succ]
        rfl
      simp only [Except.map, ofExcept_ok, pure_bind, ending, counted, terminated]
      generalize rest.take e.size = body at *
      generalize rest.drop e.size = after at *
      subst whole
      have absorbed := @absorbTrailing_eq ParseFault r before toks (front ++ separators) body after
        keyword h cut' e.terminated
        closed
      rw [place] at absorbed
      have reached : ∀ content,
          (front ++ Item.tokens ⟨separators, keyword, (Item.close e.terminated body after).1,
            (Item.close e.terminated body after).2, content⟩).length =
          front.length + separators.length + 1 + (Item.close e.terminated body after).1.length +
            (Item.close e.terminated body after).2.length := by
        intro content
        simp only [Item.tokens, List.length_append, List.length_cons]
        omega
      rw [absorbed]
      simp only [pure_bind]
      by_cases word : keyword.isWord "import" = true
      · have entries := h.importSpecs_eq cut nested
        rw [if_pos (show (bare keyword).isWord "import" = true from word), entries,
          Item.readContent, if_pos word]
        simp only
        cases ImportDecl.readSpecs keyword (Item.leadingComments separators)
          (decide (2 ≤ Item.newlinesBelowComments separators keyword)) body after with
        | error fault => exact .inl ⟨fault, rfl, rfl⟩
        | ok found =>
          refine .inr ⟨_, rfl, ?_⟩
          rw [reached]
          simp only [SourceFile.declsOf, List.map_nil, List.append_nil]
          rfl
      · have heading := @heading_eq r before toks (front ++ separators) body after h keyword cut'
        rw [place] at heading
        rw [if_neg (show ¬ (bare keyword).isWord "import" = true from word), heading,
          Item.readContent, if_neg word]
        cases Heading.read keyword body after with
        | error fault => exact .inl ⟨fault, rfl, rfl⟩
        | ok heading =>
          refine .inr ⟨_, rfl, ?_⟩
          rw [reached]
          have single : ∀ full closing, SourceFile.declsOf []
              [⟨separators, keyword, full, closing, .declares heading⟩] =
              [⟨heading, if (Item.leadingComments separators).isEmpty then []
                else separators, keyword, full⟩] := by
            intro full closing
            simp [SourceFile.declsOf, Item.leadingComments, Item.leading]
          simp only [SourceFile.importsOf, List.append_nil, single]
          rfl
  · rw [if_neg (show ¬ ((bare keyword).isWord "import" || Item.isDeclKeyword (bare keyword)) =
        true from starts),
      if_neg starts]
    exact .inl ⟨_, rfl, rfl⟩

end

/-! ### The last declaration -/

/-- The declarations when the last one reaches up to the end of the comments. -/
def stretched (comments : List Token) (decls : List DeclSpan) : List DeclSpan :=
  match comments.getLast?, decls.getLast? with
  | some comment, some last =>
    decls.dropLast ++ [{ last with span := ⟨last.span.start, comment.stop⟩ }]
  | _, _ => decls

theorem stretched_cons (comments : List Token) (d : DeclSpan) {decls : List DeclSpan}
    (some : decls ≠ []) :
    stretched comments (d :: decls) = d :: stretched comments decls := by
  obtain ⟨e, others, rfl⟩ := List.exists_cons_of_ne_nil some
  rw [stretched, stretched, List.getLast?_cons_cons]
  cases comments.getLast? with
  | none => rfl
  | some comment => cases (e :: others).getLast? <;> rfl

theorem stretched_eq_nil {comments : List Token} {decls : List DeclSpan}
    (none : stretched comments decls = []) :
    decls = [] := by
  unfold stretched at none
  split at none
  · simp at none
  · exact none

theorem stretchLast_eq (h : r.Of before toks) {comments : List Token}
    (cut : toks = front ++ (comments ++ rest)) (decls : List DeclSpan) :
    (r.stretchLast front.length (front.length + comments.length) decls : Checked ε _) =
      pure (stretched comments decls) := by
  rw [stretchLast, stretched]
  rcases List.eq_nil_or_concat comments with rfl | ⟨init, last, rfl⟩
  · cases decls.getLast? <;> simp
  · have here := @token_eq ε r before toks (front ++ init) rest last h (by simp [cut])
    have index : front.length + (init.concat last).length - 1 = (front ++ init).length := by simp
    have isLast : (init.concat last).getLast? = some last := by simp
    rw [isLast]
    cases decls.getLast? with
    | none => rfl
    | some d =>
      simp only
      rw [if_pos (by simp), minus_of_le (by simp; omega), pure_bind, index, here, pure_bind]
      rfl

/-- Stretching the last declaration is giving it the tokens up to there. -/
theorem stretched_declsOf (trailing : List Token) (items : List Item) :
    stretched (Item.leadingComments trailing) ((SourceFile.declsOf [] items).map DeclSpan.of) =
      (SourceFile.declsOf trailing items).map DeclSpan.of := by
  induction items with
  | nil => cases Item.leadingComments trailing <;> simp [SourceFile.declsOf, stretched]
  | cons item items ih =>
    cases content : item.content with
    | imports grouped specs => simpa only [SourceFile.declsOf, content] using ih
    | declares heading =>
      have first : (SourceFile.declsOf [] (item :: items)).map DeclSpan.of =
          .of ⟨heading, item.leading, item.keyword, item.body⟩ ::
            (SourceFile.declsOf [] items).map DeclSpan.of := by
        simp [SourceFile.declsOf, content, Item.leadingComments]
      rw [first]
      simp only [SourceFile.declsOf, content, List.map_cons]
      cases later : SourceFile.declsOf trailing items with
      | nil =>
        rw [later] at ih
        rw [stretched_eq_nil ih]
        rcases List.eq_nil_or_concat (Item.leadingComments trailing) with none | ⟨init, last, some⟩
        · simp [none, stretched]
        · simp [some, stretched, DeclSpan.of, Decl.span, Decl.leadingStart, ← List.append_assoc]
      | cons d others =>
        rw [later] at ih
        have more : (SourceFile.declsOf [] items).map DeclSpan.of ≠ [] := by
          intro none
          rw [none] at ih
          cases comments : (Item.leadingComments trailing).getLast? <;>
            simp [stretched, comments] at ih
        rw [stretched_cons _ _ more, ih]
        simp

/-! ### All items -/

theorem readItems_refused {separators : List Token} {fault : ParseFault}
    (all : ∀ t ∈ separators, t.isSeparator = true) (code : keyword.isSeparator = false)
    (refused : Item.read separators keyword rest = .error fault) :
    SourceFile.readItems (separators ++ keyword :: rest) = .error fault := by
  have cut := SourceFile.dropWhile_separators_append all (keyword :: rest) (by simpa using code)
  rw [SourceFile.readItems]
  split
  · next none => simp [cut.2] at none
  · next keyword' rest' same =>
    rw [cut.2] at same
    obtain ⟨rfl, rfl⟩ := List.cons.inj same
    simp only [cut.1, refused]

theorem declsOf_cons (item : Item) (items : List Item) :
    SourceFile.declsOf [] (item :: items) = SourceFile.declsOf [] [item] ++
      SourceFile.declsOf [] items := by
  cases content : item.content <;> simp [SourceFile.declsOf, content, Item.leadingComments]

theorem loop_itemTurn (h : r.Of before toks) (cut : toks = front ++ rest)
    (imports : List ImportDecl) (decls : List DeclSpan) {turns : Nat}
    (enough : rest.length < turns) :
    loop r.itemTurn turns ⟨front.length, imports, decls⟩ =
      ofExcept ((SourceFile.readItems rest).map fun found =>
        (imports ++ SourceFile.importsOf found.1, stretched (Item.leadingComments found.2)
          (decls ++ (SourceFile.declsOf [] found.1).map DeclSpan.of))) := by
  obtain ⟨turns, rfl⟩ : ∃ n, turns = n + 1 := ⟨turns - 1, by omega⟩
  induction size : rest.length using
    Nat.strongRecOn generalizing front rest imports decls turns with
  | ind n ih =>
  have behind := @skipComments_eq ParseFault r before toks front rest h cut
  have start := @skipSeparators_eq ParseFault r before toks front rest h cut
  have split := (List.takeWhile_append_dropWhile (p := Token.isSeparator) (l := rest)).symm
  have all : ∀ t ∈ rest.takeWhile Token.isSeparator, t.isSeparator = true :=
    fun t mem => List.mem_takeWhile_imp mem
  have code : ∀ t ∈ (rest.dropWhile Token.isSeparator).head?, t.isSeparator = false := by
    intro t mem
    have head := List.head?_dropWhile_not Token.isSeparator rest
    rw [Option.mem_def.1 mem] at head
    simpa using head
  rw [← leadingComments_takeWhile] at behind start
  generalize rest.takeWhile Token.isSeparator = separators at behind start split all
  generalize rest.dropWhile Token.isSeparator = left at split code
  subst split
  have cut' : toks = (front ++ separators) ++ left := by rw [cut, List.append_assoc]
  have found := @token?_eq ParseFault r before toks _ left h cut'
  rw [List.length_append] at found
  cases left with
  | nil =>
    rw [List.append_nil] at cut
    have whole : separators = Item.leadingComments separators ++
        separators.dropWhile Token.isComment :=
      (List.takeWhile_append_dropWhile ..).symm
    have last := @stretchLast_eq ParseFault r before toks front _ h _
      (cut.trans (congrArg (front ++ ·) whole)) decls
    have turn : r.itemTurn ⟨front.length, imports, decls⟩ =
        pure (.finished (imports, stretched (Item.leadingComments separators) decls)) := by
      simp only [itemTurn, behind, start, found, List.head?_nil, Option.map_none, pure_bind, last]
    rw [loop_finished turn, List.append_nil, SourceFile.readItems_separators all]
    simp [Except.map, SourceFile.importsOf, SourceFile.declsOf]
  | cons keyword rest =>
    have turn : r.itemTurn ⟨front.length, imports, decls⟩ = (do
        return .again (← r.readItem ⟨front.length, imports, decls⟩
          (front.length + (Item.leadingComments separators).length)
          (front.length + separators.length) (bare keyword))) := by
      simp only [itemTurn, behind, start, found, List.head?_cons, Option.map_some, pure_bind]
    rcases h.readItem_eq cut imports decls with ⟨fault, refused, thrown⟩ | ⟨item, read, done⟩
    · rw [thrown, throw_bind] at turn
      rw [loop_throw turn, readItems_refused all (code keyword rfl) refused]
      rfl
    · rw [done, pure_bind] at turn
      obtain ⟨same, same'⟩ := Item.read_before_keyword read
      have tiles : item.tokens ++ rest.drop item.size = separators ++ keyword :: rest := by
        conv_rhs => rw [← Item.body_append_closing read]
        simp [Item.tokens, same, same']
      have less : (rest.drop item.size).length < n := by
        simp only [List.length_append, List.length_cons, List.length_drop] at size ⊢
        omega
      obtain ⟨turns, rfl⟩ : ∃ n, turns = n + 1 := ⟨turns - 1, by simp at enough; omega⟩
      have next := @ih _ less (front ++ item.tokens) (rest.drop item.size)
        (by rw [List.append_assoc, tiles, cut]) (imports ++ SourceFile.importsOf [item])
        (decls ++ (SourceFile.declsOf [] [item]).map DeclSpan.of) turns (by omega) rfl
      rw [loop_again turn, next, SourceFile.readItems_cons all read]
      cases SourceFile.readItems (rest.drop item.size) with
      | error fault => rfl
      | ok found =>
        have more := SourceFile.importsOf_append [item] found.1
        rw [List.singleton_append] at more
        simp only [Except.map, more, declsOf_cons item found.1, List.map_append, List.append_assoc]

end Of

/-- The checked reading of a file gives its outline. -/
theorem outline_eq {r : Reading} {toks : List Token} (h : r.Of [] toks) :
    r.outline = ofExcept ((SourceFile.ofTokens r.src.byteLength toks).map Outline.of) := by
  have split := (List.takeWhile_append_dropWhile (p := Token.isComment) (l := toks)).symm
  have stop := @Of.skipComments_eq ParseFault r [] toks [] toks h rfl
  obtain ⟨apart, attached, header⟩ := @Of.buildHeader_eq ParseFault r toks _ _ h split
  rw [List.length_nil, Nat.zero_add] at stop
  rw [outline, stop, pure_bind, header, pure_bind, SourceFile.ofTokens]
  rcases h.packageClause_eq split with
    ⟨fault, refused, thrown⟩ | ⟨clause, mid, later, cut, read, found⟩
  · rw [thrown, refused]
    rfl
  · have cut' : toks = (toks.takeWhile Token.isComment ++ mid) ++ later := by
      rw [List.append_assoc, ← cut]
      exact split
    have items := @Of.loop_itemTurn r [] toks _ later h cut' [] [] (r.size + 1)
      (by rw [h.size_eq, cut', List.length_append]; omega)
    have given : SourceFile.readHeader toks =
        Header.ofGroups (!apart) (Header.groups (toks.takeWhile Token.isComment)) := by
      rw [SourceFile.readHeader]
      cases code : toks.dropWhile Token.isComment with
      | nil => rw [code] at read; cases read
      | cons next others =>
        rw [attached next (by rw [code]; rfl)]
        rfl
    rw [found, read, pure_bind]
    simp only [items, List.nil_append, Of.stretched_declsOf, given]
    cases SourceFile.readItems later <;> rfl

end Reading

end GoSplit.Checked
