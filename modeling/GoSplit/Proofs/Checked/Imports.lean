import GoSplit.Proofs.Checked.Extents
import GoSplit.Proofs.Selector.Nesting
import GoSplit.Proofs.SourceFile.Found
import Mathlib.Data.List.TakeWhile

/-!
Import declarations, read by index. In a parenthesised list the comments above an entry are known
by the index of the first one, and the line breaks passed since the last comment or entry are
looked up in the source.
-/

namespace GoSplit.Checked

open Token (Reads written)

namespace Reading

variable {ε : Type}

/-- The path between the quotes of a literal. -/
def pathOf (literal : Token) : Checked ParseFault Text :=
  if literal.isString && 2 ≤ literal.text.byteLength then do
    let path ← slice literal.text 1 (← minus literal.text.byteLength 1)
    if path.isEmpty then throw ⟨.malformedImport .emptyPath, literal.start⟩ else return path
  else throw ⟨.malformedImport (.notAPath literal.text), literal.start⟩

/-- The local name of an entry, if it has one, and the index of the token behind it that is no
comment. -/
def specParts (r : Reading) (index : Nat) (t : Token) : Checked ε (Option Text × Option Nat) :=
  match t.kind with
  | .ident => do return (some t.text, ← r.nextSignificant (index + 1))
  | .dot => do return (some ['.'], ← r.nextSignificant (index + 1))
  | _ => pure (none, some index)

/-- Reads the entry at an index, in front of `limit`; also gives the index of its path. -/
def importSpec (r : Reading) (index limit : Nat) : Checked ParseFault (ImportSpec × Nat) := do
  let t ← r.token index
  let (name, found) ← r.specParts index t
  match found.filter (· < limit) with
  | none => throw ⟨.malformedImport .missingPath, t.start⟩
  | some place => do
    let literal ← r.token place
    let path ← pathOf literal
    return (⟨name, path, literal.span, none, none⟩, place)

/-- The comment at an index, unless it is on a later line than the token in front of it. -/
def trailingComment (r : Reading) (index : Nat) : Checked ε (Option Text) := do
  if index = 0 then return none
  match ← r.token? (index - 1), ← r.token? index with
  | some previous, some t =>
    if t.isComment then
      if ← r.newlineBetween previous.stop t.start then return none else return some t.text
    else return none
  | _, _ => return none

/-- Where the reading of a parenthesised list has come to. -/
structure Listing where
  index : Nat
  /-- The first of the comments collected for the next entry. -/
  docStart : Option Nat
  /-- Where the last comment or entry ended. -/
  lastEnd : Nat
  specs : List ImportSpec

/-- The comments from an index on, when no empty line separates them from the token `t` at
`index`. -/
def docAbove (r : Reading) (docStart : Option Nat) (index : Nat) (t : Token) :
    Checked ε (Option Text) :=
  match docStart with
  | none => pure none
  | some first => do
    let last ← r.token (← minus index 1)
    if ← r.blankLineBetween last.stop t.start then return none
    else return some (← slice r.src (← r.token first).start last.stop)

/-- Reads the entry that starts with the token `t`. -/
def readEntry (r : Reading) (close : Nat) (s : Listing) (t : Token) :
    Checked ParseFault Listing := do
  let found ← r.importSpec s.index close
  let doc ← r.docAbove s.docStart s.index t
  let comment ← r.trailingComment (found.2 + 1)
  let next := if comment.isSome then found.2 + 2 else found.2 + 1
  let last ← r.token (← minus next 1)
  return ⟨next, none, last.stop, s.specs ++ [{ found.1 with doc, comment }]⟩

def listTurn (r : Reading) (close : Nat) (s : Listing) :
    Checked ParseFault (Turn Listing (List ImportSpec)) :=
  if close ≤ s.index then pure (.finished s.specs)
  else do
    let t ← r.token s.index
    if t.isComment then
      let apart ← r.blankLineBetween s.lastEnd t.start
      let docStart := if s.docStart.isNone || apart then some s.index else s.docStart
      return .again ⟨s.index + 1, docStart, t.stop, s.specs⟩
    else if t.kind == .semicolon then return .again ⟨s.index + 1, none, s.lastEnd, s.specs⟩
    else return .again (← r.readEntry close s t)

/-- The comments above a declaration that starts at `start`, given by the indices around them. -/
def leadingDoc (r : Reading) (first stop start : Nat) : Checked ε (Option Text) :=
  if first < stop then do
    let last ← r.token (← minus stop 1)
    if ← r.blankLineBetween last.stop (← r.token start).start then return none
    else return some (← slice r.src (← r.token first).start last.stop)
  else pure none

/-- The entries of the declaration between two indices, and whether they stand in parentheses. The
comments above it are between the other two. -/
def importSpecs (r : Reading) (start stop first behind : Nat) :
    Checked ParseFault (Bool × List ImportSpec) := do
  match (← r.nextSignificant (start + 1)).filter (· < stop) with
  | none => throw ⟨.malformedImport .missingPath, (← r.token start).stop⟩
  | some opening => do
    let t ← r.token opening
    if t.kind = .opening .paren then
      let specs ← loop (r.listTurn (← minus stop 1)) (r.size + 1) ⟨opening + 1, none, t.stop, []⟩
      return (true, specs)
    else
      let (spec, _) ← r.importSpec opening stop
      let doc ← r.leadingDoc first behind start
      let comment ← r.trailingComment stop
      return (false, [{ spec with doc, comment }])

theorem pathOf_eq {t : Token} {rest : Text} (reads : Reads t.kind t.text rest) :
    pathOf (bare t) = ofExcept (ImportSpec.pathOf t) := by
  have unquoted : pathOf (bare t) = if t.isString && decide (2 ≤ t.text.byteLength) then do
      let path ← slice t.text 1 (← minus t.text.byteLength 1)
      if path.isEmpty then throw ⟨.malformedImport .emptyPath, t.start⟩ else return path
    else throw ⟨.malformedImport (.notAPath t.text), t.start⟩ := rfl
  by_cases literal : t.isString = true
  · have kinds := Token.isString_iff.1 literal
    obtain ⟨quote, inner, one, text⟩ := reads.exists_quote kinds
    have size : t.text.byteLength = inner.byteLength + 2 := by
      simp [text, one]
      omega
    have sliced : t.text.slice? ⟨1, t.text.byteLength - 1⟩ = some inner :=
      Text.slice?_eq_some_iff.2 ⟨[quote], [quote], by simp [text], by
        rw [size]; simp [one, Nat.add_comm]⟩
    have large : (t.isString && decide (2 ≤ t.text.byteLength)) = true := by simp [literal, size]
    have path : t.text.tail.dropLast = inner := by simp [text]
    rw [unquoted, if_pos large, minus_of_le (by omega), pure_bind, slice_of_slice? sliced,
      pure_bind, ImportSpec.pathOf]
    rcases kinds with kind | kind
    · rw [kind]
      simp only [path]
      cases inner <;> rfl
    · rw [kind]
      simp only [path]
      cases inner <;> rfl
  · have other : ¬ (t.isString && decide (2 ≤ t.text.byteLength)) = true := by simp [literal]
    rw [unquoted, if_neg other, ImportSpec.pathOf]
    split
    · next kind => exact absurd (Token.isString_iff.2 (.inl kind)) literal
    · next kind => exact absurd (Token.isString_iff.2 (.inr kind)) literal
    · rfl

namespace Of

variable {r : Reading} {before : Text} {toks front body after rest : List Token} {t : Token}

/-- Looking for code up to an index is looking for it in the tokens in front of that. -/
theorem nextSignificant_filter (h : r.Of before toks) (cut : toks = front ++ (body ++ after)) :
    ∃ found, (r.nextSignificant front.length : Checked ε (Option Nat)) = pure found ∧
      found.filter (· < front.length + body.length) =
        (body.dropWhile Token.isComment).head?.map
          fun _ => front.length + (body.takeWhile Token.isComment).length := by
  refine ⟨_, h.nextSignificant_eq cut, ?_⟩
  have split :=
    congrArg List.length (List.takeWhile_append_dropWhile (p := Token.isComment) (l := body))
  rw [List.length_append] at split
  cases code : body.dropWhile Token.isComment with
  | nil =>
    have whole : (body.takeWhile Token.isComment).length = body.length := by
      simpa [code] using split
    rw [List.takeWhile_append, if_pos whole, List.length_append]
    cases (List.dropWhile Token.isComment (body ++ after)).head? with
    | none => rfl
    | some t => simp
  | cons t more =>
    rw [code, List.length_cons] at split
    rw [List.takeWhile_append, if_neg (by omega), List.dropWhile_append, code]
    simp
    omega

theorem specParts_named (h : r.Of before toks) (mem : t ∈ toks)
    (kind : t.kind = .ident ∨ t.kind = .dot) (index : Nat) :
    (r.specParts index (bare t) : Checked ε _) =
      r.nextSignificant (index + 1) >>= fun found => pure (some t.text, found) := by
  rw [specParts, bare_kind]
  rcases kind with kind | kind
  · rw [kind]
    rfl
  · obtain ⟨rest, reads⟩ := h.reads t mem
    rw [kind] at reads
    rw [kind, reads.eq_dot]

theorem specParts_other (r : Reading) (kind : ¬ (t.kind = .ident ∨ t.kind = .dot)) (index : Nat) :
    (r.specParts index (bare t) : Checked ε _) = pure (none, some index) := by
  rw [specParts, bare_kind]
  split
  · next ident => exact absurd (.inl ident) kind
  · next dot => exact absurd (.inr dot) kind
  · rfl

/-- What is left to read of an entry when its path has been found. -/
theorem ofLiteral_eq (h : r.Of before toks) (cut : toks = front ++ t :: rest) (name : Option Text)
    (n : Nat) :
    (do
      let literal ← r.token front.length
      let path ← pathOf literal
      return (⟨name, path, literal.span, none, none⟩, n) : Checked ParseFault (ImportSpec × Nat)) =
      ofExcept ((ImportSpec.ofLiteral name t).map fun spec => (spec, n)) := by
  obtain ⟨more, reads⟩ := h.reads t (by simp [cut])
  rw [h.token_eq cut, pure_bind, pathOf_eq reads, ImportSpec.ofLiteral]
  cases ImportSpec.pathOf t <;> rfl

/-- An entry in front of a limit is read like the tokens up to there. -/
theorem importSpec_eq (h : r.Of before toks) (cut : toks = front ++ t :: (body ++ after)) :
    r.importSpec front.length (front.length + 1 + body.length) =
      ofExcept ((ImportSpec.read t body).map fun found => (found.1, front.length + found.2)) := by
  have behind : toks = (front ++ [t]) ++ (body ++ after) := by simp [cut]
  obtain ⟨found, next, limited⟩ :=
    @nextSignificant_filter ParseFault r before toks _ body after h behind
  rw [List.length_append, List.length_singleton] at next limited
  rw [importSpec, h.token_eq cut, pure_bind]
  by_cases named : t.kind = .ident ∨ t.kind = .dot
  · have split := (List.takeWhile_append_dropWhile (p := Token.isComment) (l := body)).symm
    simp only [h.specParts_named (by simp [cut] : t ∈ toks) named, next, pure_bind, limited]
    cases code : body.dropWhile Token.isComment with
    | nil =>
      have model : ImportSpec.read t body = .error ⟨.malformedImport .missingPath, t.start⟩ := by
        rw [ImportSpec.read]
        rcases named with kind | kind <;> simp only [kind, code]
      rw [model]
      rfl
    | cons literal more =>
      rw [code] at split
      have model : ImportSpec.read t body = (ImportSpec.ofLiteral (some t.text) literal).map
          fun spec => (spec, (body.takeWhile Token.isComment).length + 1) := by
        rw [ImportSpec.read]
        rcases named with kind | kind <;> simp only [kind, code]
      have there : toks = (front ++ t :: body.takeWhile Token.isComment) ++ literal ::
          (more ++ after) := by
        rw [cut]
        conv_lhs => rw [split]
        simp
      have place : front.length + 1 + (body.takeWhile Token.isComment).length =
          (front ++ t :: body.takeWhile Token.isComment).length := by
        simp only [List.length_append, List.length_cons]
        omega
      have reached : front.length + ((body.takeWhile Token.isComment).length + 1) =
          (front ++ t :: body.takeWhile Token.isComment).length := by
        simp only [List.length_append, List.length_cons]
      simp only [List.head?_cons, Option.map_some, place]
      rw [h.ofLiteral_eq there, model]
      cases ImportSpec.ofLiteral (some t.text) literal with
      | error fault => rfl
      | ok spec => simp only [Except.map, reached]
  · have model : ImportSpec.read t body =
        (ImportSpec.ofLiteral none t).map fun spec => (spec, 0) := by
      rw [ImportSpec.read]
      split
      · next ident => exact absurd (.inl ident) named
      · next dot => exact absurd (.inr dot) named
      · rfl
    have inside : (some front.length).filter (· < front.length + 1 + body.length) =
        some front.length := by
      simp
      omega
    simp only [specParts_other r named, pure_bind, inside, model]
    rw [h.ofLiteral_eq cut]
    cases ImportSpec.ofLiteral none t <;> rfl

theorem trailingComment_eq (h : r.Of before toks) (cut : toks = front ++ t :: rest) :
    (r.trailingComment (front.length + 1) : Checked ε _) =
      pure (ImportSpec.trailingComment rest) := by
  have previous := @token?_eq ε r before toks front (t :: rest) h cut
  have next := @token?_eq ε r before toks (front ++ [t]) rest h (by simp [cut])
  rw [List.length_append, List.length_singleton] at next
  rw [trailingComment, if_neg (Nat.succ_ne_zero _), Nat.add_sub_cancel]
  simp only [previous, next, pure_bind, List.head?_cons, Option.map_some]
  cases rest with
  | nil => rfl
  | cons u rest =>
    have between := @slice_between ε r before toks front [] rest u t h cut
    simp only [List.head?_cons, Option.map_some, ImportSpec.trailingComment]
    rw [bare_isComment, bare_stop, bare_start, newlineBetween, between, pure_bind, Token.onNewLine]
    cases u.isComment with
    | false => rfl
    | true => cases found : Text.hasNewline u.gap <;> simp [found]

theorem docAbove_eq (h : r.Of before toks) {c : Token} {cs : List Token}
    (cut : toks = front ++ (c :: cs ++ t :: rest)) :
    (r.docAbove (some front.length) (front.length + 1 + cs.length) (bare t) : Checked ε _) =
      pure (ImportSpec.docAbove (c :: cs) t) := by
  obtain ⟨init, last, ends⟩ : ∃ init last, c :: cs = init ++ [last] :=
    ⟨_, _, (List.dropLast_append_getLast (List.cons_ne_nil c cs)).symm⟩
  have size : init.length = cs.length := by simpa using (congrArg List.length ends).symm
  have isLast : (c :: cs).getLastD c = last := by rw [ends]; simp
  have cut' : toks = (front ++ init) ++ last :: (t :: rest) := by rw [cut, ends]; simp
  have index : front.length + 1 + cs.length - 1 = (front ++ init).length := by
    rw [List.length_append, size]
    omega
  have final := @token_eq ε r before toks _ _ last h cut'
  have between := @slice_between ε r before toks (front ++ init) [] rest t last h cut'
  have first := @token_eq ε r before toks front _ c h cut
  have text := @slice_run ε r before toks front (t :: rest) cs c h cut
  rw [isLast] at text
  rw [Token.written_nil, List.nil_append] at between
  rw [docAbove, minus_of_le (by omega), pure_bind, index, final, pure_bind, bare_stop, bare_start,
    blankLineBetween, between, pure_bind, first]
  simp only [pure_bind, bare_start, text, ImportSpec.docAbove]
  cases t.gap.hasBlankLine <;> rfl

/-- The comments collected for the next entry end what has been passed. -/
def Collects (passed : List Token) (docStart : Option Nat) (doc : List Token) : Prop :=
  (docStart = none ∧ doc = []) ∨
    ∃ front c cs, doc = c :: cs ∧ passed = front ++ c :: cs ∧ docStart = some front.length

theorem newlines_append (s u : Text) : Text.newlines (s ++ u) = s.newlines + u.newlines :=
  List.count_append ..

theorem Collects.comment {passed doc : List Token} {docStart : Option Nat}
    (h : Collects passed docStart doc) (apart : Bool) (t : Token) :
    Collects (passed ++ [t]) (if docStart.isNone || apart then some passed.length else docStart)
      (if apart then [t] else doc ++ [t]) := by
  cases apart with
  | true => exact .inr ⟨passed, t, [], by simp, rfl, by simp⟩
  | false =>
    rcases h with ⟨rfl, rfl⟩ | ⟨front, c, cs, rfl, rfl, rfl⟩
    · exact .inr ⟨passed, t, [], by simp, rfl, by simp⟩
    · exact .inr ⟨front, c, cs ++ [t], by simp, by simp, by simp⟩

/-- A list is not closed behind a comment. -/
def Shut (last : Token) (inner : List Token) : Prop :=
  last.isComment = true → ∃ u ∈ inner, ∃ bracket, u.kind = .closing bracket

theorem Shut.append {last : Token} {used left : List Token} (h : Shut last (used ++ left))
    (open_ : ∀ u ∈ used, ∀ bracket, u.kind ≠ .closing bracket) : Shut last left := by
  intro comment
  obtain ⟨u, mem, bracket, kind⟩ := h comment
  exact ⟨u, (List.mem_append.1 mem).resolve_left fun early => open_ u early bracket kind,
    bracket, kind⟩

theorem Shut.tail {last t : Token} {inner : List Token} (h : Shut last (t :: inner))
    (open_ : ∀ bracket, t.kind ≠ .closing bracket) : Shut last inner :=
  Shut.append (show Shut last ([t] ++ inner) from h) (by simpa using open_)

section

variable {p : Token} {mid inner doc : List Token} {since close : Nat} {docStart : Option Nat}
  {specs : List ImportSpec}

theorem listTurn_finished (r : Reading) {s : Listing} (ended : close ≤ s.index) :
    r.listTurn close s = pure (.finished s.specs) := if_pos ended

theorem listTurn_comment (h : r.Of before toks) (cut : toks = front ++ p :: (mid ++ t :: rest))
    (passed : Text.newlines (written mid) = since) (open_ : front.length + 1 + mid.length < close)
    (comment : t.isComment = true) :
    r.listTurn close ⟨front.length + 1 + mid.length, docStart, p.stop, specs⟩ =
      pure (.again ⟨front.length + 1 + mid.length + 1,
        if docStart.isNone || decide (2 ≤ since + t.gap.newlines)
          then some (front.length + 1 + mid.length)
        else docStart, t.stop, specs⟩) := by
  have cut' : toks = (front ++ p :: mid) ++ t :: rest := by simp [cut]
  have place : (front ++ p :: mid).length = front.length + 1 + mid.length := by
    rw [List.length_append, List.length_cons]
    omega
  have here := @token_eq ParseFault r before toks _ rest t h cut'
  have between := @slice_between ParseFault r before toks front mid rest t p h cut
  have blank : Text.hasBlankLine (written mid ++ t.gap) = decide (2 ≤ since + t.gap.newlines) := by
    rw [Text.hasBlankLine, newlines_append, passed]
  rw [place] at here
  rw [listTurn, if_neg (Nat.not_le.2 open_), here, pure_bind, bare_isComment, if_pos comment,
    bare_start, blankLineBetween, between, pure_bind, pure_bind, blank]
  rfl

theorem listTurn_semicolon (h : r.Of before toks) (cut : toks = front ++ t :: rest) {lastEnd : Nat}
    (open_ : front.length < close) (kind : t.kind = .semicolon) :
    r.listTurn close ⟨front.length, docStart, lastEnd, specs⟩ =
      pure (.again ⟨front.length + 1, none, lastEnd, specs⟩) := by
  have code : ¬ t.isComment = true := by simp [Token.isComment, kind]
  have semicolon : (t.kind == .semicolon) = true := by simp [kind]
  rw [listTurn, if_neg (Nat.not_le.2 open_), h.token_eq cut, pure_bind, bare_isComment, if_neg code,
    bare_kind, if_pos semicolon]

theorem docAbove_of_collects (h : r.Of before toks) (cut : toks = front ++ t :: rest)
    (docs : Collects front docStart doc) :
    (r.docAbove docStart front.length (bare t) : Checked ε _) =
      pure (ImportSpec.docAbove doc t) := by
  rcases docs with ⟨rfl, rfl⟩ | ⟨ahead, c, cs, rfl, rfl, rfl⟩
  · rfl
  · have above := @docAbove_eq ε r before toks ahead rest t h c cs (by simp [cut])
    have place : ahead.length + 1 + cs.length = (ahead ++ c :: cs).length := by
      rw [List.length_append, List.length_cons]
      omega
    rwa [place] at above

/-- What an entry consists of: the tokens up to its path, of which none closes anything. -/
theorem exists_path {spec : ImportSpec} {n : Nat} (found : ImportSpec.read t body = .ok (spec, n)) :
    ∃ ahead literal others, t :: body = ahead ++ literal :: others ∧ n = ahead.length ∧
      body.drop n = others ∧
      ∀ u ∈ ahead ++ [literal], ∀ bracket, u.kind ≠ .closing bracket := by
  have plain : ∀ {name : Option Text} {literal : Token}, ImportSpec.ofLiteral name literal =
      .ok spec →
      ∀ bracket, literal.kind ≠ .closing bracket := by
    intro name literal read bracket
    have string := (ImportSpec.ofLiteral_eq_ok_iff.1 read).1
    rcases Token.isString_iff.1 string with kind | kind <;> simp [kind]
  rcases ImportSpec.read_eq_ok_iff.1 found with
    ⟨-, read, rfl⟩ | ⟨kind, comments, literal, others, rfl, all, read, rfl⟩
  · exact ⟨[], t, body, rfl, rfl, rfl, by simpa using plain read⟩
  · refine ⟨t :: comments, literal, others, rfl, rfl, ?_, fun u mem bracket => ?_⟩
    · rw [List.append_cons, List.drop_left' (by simp)]
    · rcases List.mem_append.1 mem with mem | mem
      · rcases List.mem_cons.1 mem with rfl | mem
        · rcases kind with kind | kind <;> simp [kind]
        · intro closing
          have comment := all u mem
          simp [Token.isComment, closing] at comment
      · obtain rfl : u = literal := by simpa using mem
        exact plain read bracket

theorem readEntry_eq (h : r.Of before toks) {last : Token}
    (cut : toks = front ++ t :: (body ++ last :: after)) (docs : Collects front docStart doc)
    (shut : Shut last (t :: body)) {lastEnd : Nat} :
    (∃ fault, ImportSpec.read t body = .error fault ∧
      r.readEntry (front.length + 1 + body.length) ⟨front.length, docStart, lastEnd, specs⟩
        (bare t) = throw fault) ∨
    ∃ spec n used q left, ImportSpec.read t body = .ok (spec, n) ∧ t :: body = used ++ q :: left ∧
      left = (body.drop n).drop (if (ImportSpec.trailingComment (body.drop n)).isSome then 1
        else 0) ∧
      Shut last left ∧
      r.readEntry (front.length + 1 + body.length) ⟨front.length, docStart, lastEnd, specs⟩
        (bare t) =
        pure ⟨(front ++ used).length + 1, none, q.stop, specs ++ [{ spec with
          doc := ImportSpec.docAbove doc t
          comment := ImportSpec.trailingComment (body.drop n) }]⟩ := by
  have above := @docAbove_of_collects ParseFault r before toks front _ t doc docStart h cut docs
  rw [readEntry, h.importSpec_eq cut]
  cases found : ImportSpec.read t body with
  | error fault => exact .inl ⟨fault, rfl, rfl⟩
  | ok result =>
    obtain ⟨spec, n⟩ := result
    obtain ⟨ahead, literal, others, whole, rfl, dropped, open_⟩ := exists_path found
    have left : Shut last others := by
      rw [whole, List.append_cons] at shut
      exact shut.append open_
    have cut' : toks = (front ++ ahead) ++ literal :: (others ++ last :: after) := by
      rw [cut, ← List.cons_append, whole]
      simp
    have place : front.length + ahead.length = (front ++ ahead).length := List.length_append.symm
    have comment : (r.trailingComment ((front ++ ahead).length + 1) : Checked ParseFault _) =
        pure (ImportSpec.trailingComment others) := by
      rw [h.trailingComment_eq cut']
      cases others with
      | nil =>
        -- The closing parenthesis is not behind a comment.
        have code : ¬ last.isComment = true := fun comment => by simpa using left comment
        simp [ImportSpec.trailingComment, code]
      | cons c others => rfl
    refine .inr ?_
    cases trailing : ImportSpec.trailingComment others with
    | none =>
      refine ⟨spec, ahead.length, ahead, literal, others, rfl, whole,
        by rw [dropped, trailing]; rfl, left, ?_⟩
      have previous := @token_eq ParseFault r before toks _ _ literal h cut'
      simp only [Except.map, ofExcept_ok, pure_bind, above, place, comment, dropped, trailing,
        Option.isSome_none, Bool.false_eq_true, if_false, minus_of_le (Nat.le_add_left 1 _),
        Nat.add_sub_cancel, previous, bare_stop]
    | some text =>
      cases others with
      | nil => cases trailing
      | cons c others =>
        have cut'' : toks = (front ++ (ahead ++ [literal])) ++ c :: (others ++ last :: after) := by
          simp [cut']
        have previous := @token_eq ParseFault r before toks _ _ c h cut''
        refine ⟨spec, ahead.length, ahead ++ [literal], c, others, rfl, by simp [whole],
          by rw [dropped, trailing]; rfl, ?_, ?_⟩
        · refine left.tail fun bracket kind => ?_
          simp [ImportSpec.trailingComment, Token.isComment, kind] at trailing
        · have behind : (front ++ ahead).length + 2 =
              (front ++ (ahead ++ [literal])).length + 1 := by
            simp only [List.length_append, List.length_singleton]
            omega
          simp only [Except.map, ofExcept_ok, pure_bind, above, place, comment, dropped, trailing,
            Option.isSome_some, if_true, minus_of_le (Nat.le_add_left 1 _), Nat.add_sub_cancel,
            previous, bare_stop, behind]

theorem listTurn_entry (h : r.Of before toks) (cut : toks = front ++ t :: rest)
    (open_ : front.length < close) (code : t.isComment = false) (other : t.kind ≠ .semicolon)
    {lastEnd : Nat} :
    r.listTurn close ⟨front.length, docStart, lastEnd, specs⟩ = (do
      return .again (← r.readEntry close ⟨front.length, docStart, lastEnd, specs⟩ (bare t))) := by
  have notComment : ¬ t.isComment = true := by simp [code]
  have notSemicolon : ¬ (t.kind == .semicolon) = true := by simpa using other
  rw [listTurn, if_neg (Nat.not_le.2 open_), h.token_eq cut, pure_bind, bare_isComment,
    if_neg notComment, bare_kind, if_neg notSemicolon]

theorem loop_listTurn (h : r.Of before toks) {last : Token}
    (cut : toks = front ++ p :: (mid ++ (inner ++ last :: after)))
    (closed : close = front.length + 1 + mid.length + inner.length)
    (passed : Text.newlines (written mid) = since)
    (docs : Collects (front ++ p :: mid) docStart doc) (shut : Shut last inner) {turns : Nat}
    (enough : inner.length < turns) :
    loop (r.listTurn close) turns ⟨front.length + 1 + mid.length, docStart, p.stop, specs⟩ =
      ofExcept ((ImportSpec.readList doc since inner).map (specs ++ ·)) := by
  induction turns generalizing front p mid inner doc since docStart specs with
  | zero => cases enough
  | succ turns ih =>
    have place : (front ++ p :: mid).length = front.length + 1 + mid.length := by
      rw [List.length_append, List.length_cons]
      omega
    cases inner with
    | nil =>
      have ended : close ≤ front.length + 1 + mid.length := Nat.le_of_eq closed
      rw [loop_finished (listTurn_finished r ended), ImportSpec.readList]
      simp [Except.map]
    | cons t rest =>
      rw [List.length_cons] at closed enough
      have open_ : front.length + 1 + mid.length < close := by omega
      have cut' : toks = (front ++ p :: mid) ++ t :: (rest ++ last :: after) := by simp [cut]
      by_cases comment : t.isComment = true
      · have turn := @listTurn_comment r before toks front (rest ++ last :: after) t p mid since
          close docStart specs h
          (by simp [cut]) passed open_ comment
        have shut' := shut.tail fun bracket kind => by simp [Token.isComment, kind] at comment
        have more := docs.comment (decide (2 ≤ since + t.gap.newlines)) t
        rw [place] at more
        have next := @ih _ t [] rest _ 0 _ specs cut'
          (by rw [place, closed, List.length_nil]; omega) rfl more shut'
          (by omega)
        rw [place] at next
        rw [loop_again turn, ImportSpec.readList, if_pos comment]
        simpa only [decide_eq_true_eq, List.length_nil, Nat.add_zero] using next
      · have code : t.isComment = false := by simpa using comment
        by_cases semicolon : t.kind = .semicolon
        · have turn := @listTurn_semicolon r before toks (front ++ p :: mid) _ t close docStart
            specs h cut' p.stop
            (by omega) semicolon
          have text := h.eq_semicolon (by simp [cut] : t ∈ toks) semicolon
          have isSemicolon : (t.kind == .semicolon) = true := by simp [semicolon]
          have passed' : Text.newlines (written (mid ++ [t])) = since + t.gap.newlines := by
            have last : Text.newlines (written [t]) = t.gap.newlines := by
              rw [Token.written_cons, Token.written_nil, text, newlines_append, newlines_append]
              rfl
            rw [Token.written_append, newlines_append, passed, last]
          have shut' := shut.tail fun bracket kind => by simp [kind] at semicolon
          have next := @ih front p (mid ++ [t]) rest [] _ none specs (by simp [cut])
            (by rw [closed, List.length_append, List.length_singleton]; omega) passed'
              (.inl ⟨rfl, rfl⟩) shut' (by omega)
          rw [place] at turn
          rw [List.length_append, List.length_singleton] at next
          rw [loop_again turn, ImportSpec.readList, if_neg comment, if_pos isSemicolon]
          exact next
        · have turn := @listTurn_entry r before toks (front ++ p :: mid) _ t close docStart specs h
            cut' (by omega) code
            semicolon p.stop
          have notSemicolon : ¬ (t.kind == .semicolon) = true := by simpa using semicolon
          have closed' : close = (front ++ p :: mid).length + 1 + rest.length := by omega
          have result := @readEntry_eq r before toks (front ++ p :: mid) rest after t doc docStart
            specs h last cut' docs
            shut p.stop
          rw [← closed', place] at result
          rw [place] at turn
          rw [ImportSpec.readList, if_neg comment, if_neg notSemicolon]
          rcases result with
            ⟨fault, refused, thrown⟩ | ⟨spec, n, used, q, left, found, whole, isLeft, shut', done⟩
          · rw [thrown, throw_bind] at turn
            rw [loop_throw turn, refused]
            rfl
          · rw [done, pure_bind] at turn
            have cut'' : toks = (front ++ p :: mid ++ used) ++ q ::
                ([] ++ (left ++ last :: after)) := by
              rw [cut', ← List.cons_append, whole]
              simp
            have size := congrArg List.length whole
            simp only [List.length_append, List.length_cons] at size
            have reached : (front ++ p :: mid ++ used).length =
                (front ++ p :: mid).length + used.length :=
              List.length_append
            have next := @ih _ q [] left [] 0 none
              (specs ++ [{ spec with
                doc := ImportSpec.docAbove doc t
                comment := ImportSpec.trailingComment (rest.drop n) }])
              cut'' (by rw [closed', reached, List.length_nil]; omega) rfl (.inl ⟨rfl, rfl⟩) shut'
              (by omega)
            rw [List.length_nil, Nat.add_zero] at next
            rw [loop_again turn, next, found]
            simp only [← isLeft]
            cases ImportSpec.readList [] 0 left with
            | error fault => rfl
            | ok others => simp [Except.map]

end

/-! ### Whole declarations -/

theorem newlinesAcross_eq (run : List Token) (next : Token) :
    Token.newlinesAcross run next = Text.newlines (written run ++ next.gap) := by
  induction run with
  | nil => rfl
  | cons t run ih =>
    rw [Token.written_cons, List.append_assoc, List.append_assoc, newlines_append,
      newlines_append, ← ih]
    simp [Token.newlinesAcross, Nat.add_assoc]

theorem leadingDoc_eq (h : r.Of before toks) {comments mid : List Token}
    (cut : toks = front ++ (comments ++ (mid ++ t :: rest))) :
    (r.leadingDoc front.length (front.length + comments.length)
      (front.length + comments.length + mid.length) :
        Checked ε _) =
      pure (if comments.isEmpty || decide (2 ≤ Token.newlinesAcross mid t) then none
        else some (Token.spell comments)) := by
  cases comments with
  | nil =>
    rw [leadingDoc, if_neg (by simp)]
    rfl
  | cons c cs =>
    obtain ⟨init, last, ends⟩ : ∃ init last, c :: cs = init ++ [last] :=
      ⟨_, _, (List.dropLast_append_getLast (List.cons_ne_nil c cs)).symm⟩
    have size := congrArg List.length ends
    rw [List.length_append, List.length_singleton] at size
    have isLast : (c :: cs).getLastD c = last := by rw [ends]; simp
    have cut' : toks = (front ++ init) ++ last :: (mid ++ t :: rest) := by rw [cut, ends]; simp
    have cut'' : toks = (front ++ (c :: cs ++ mid)) ++ t :: rest := by simp [cut]
    have index : front.length + (c :: cs).length - 1 = (front ++ init).length := by
      rw [List.length_append, size]
      omega
    have place : front.length + (c :: cs).length + mid.length =
        (front ++ (c :: cs ++ mid)).length := by
      rw [List.length_append, List.length_append, Nat.add_assoc]
    have final := @token_eq ε r before toks _ _ last h cut'
    have here := @token_eq ε r before toks _ _ t h cut''
    have between := @slice_between ε r before toks (front ++ init) mid rest t last h cut'
    have first := @token_eq ε r before toks front _ c h cut
    have text := @slice_run ε r before toks front (mid ++ t :: rest) cs c h cut
    rw [isLast] at text
    rw [leadingDoc, if_pos (by simp), minus_of_le (by simp; omega), pure_bind, index, final,
      pure_bind, place, here, pure_bind, bare_stop, bare_start, blankLineBetween, between,
      pure_bind, first, newlinesAcross_eq]
    simp only [pure_bind, bare_start, text, List.isEmpty_cons, Bool.false_or, Text.hasBlankLine]
    split_ifs <;> rfl

theorem balances_comments {stack : List Bracket} {cs ts : List Token}
    (comments : ∀ c ∈ cs, c.isComment = true) :
    Balances stack (cs ++ ts) ↔ Balances stack ts := by
  induction cs with
  | nil => rfl
  | cons c cs ih =>
    have plain : c.isPlain = true := by
      rcases Token.isComment_iff.1 (comments c (by simp)) with kind | kind <;>
        simp [Token.isPlain, kind]
    rw [List.cons_append, balances_plain plain, ih fun c mem => comments c (by simp [mem])]

/-- A list in parentheses ends with a token that is shut behind its entries. -/
theorem exists_shut {comments rest : List Token} {opening : Token}
    (all : ∀ c ∈ comments, c.isComment = true) (kind : opening.kind = .opening .paren)
    (nested : Balances [] (comments ++ opening :: rest)) :
    ∃ inner last, rest = inner ++ [last] ∧ Shut last inner := by
  rw [balances_comments all, balances_opening kind] at nested
  obtain ⟨inside, close, behind, rfl, -, closing, -⟩ :=
    @exists_splitAtClose [] [] .paren rest nested
  rcases List.eq_nil_or_concat behind with rfl | ⟨init, last, ends⟩
  · exact ⟨inside, close, rfl, fun comment => by simp [Token.isComment, closing] at comment⟩
  · rw [List.concat_eq_append] at ends
    exact ⟨inside ++ close :: init, last, by simp [ends], fun _ => ⟨close, by simp, _, closing⟩⟩

/-- An import declaration is read like its tokens. -/
theorem importSpecs_eq (h : r.Of before toks) {separators : List Token} {keyword : Token}
    (cut : toks = front ++ (separators ++ keyword :: (body ++ after))) (nested : Balances [] body) :
    r.importSpecs (front.length + separators.length)
      (front.length + separators.length + 1 + body.length)
        front.length (front.length + (SourceFile.Item.leadingComments separators).length) =
      ofExcept (ImportDecl.readSpecs keyword (SourceFile.Item.leadingComments separators)
        (decide (2 ≤ SourceFile.Item.newlinesBelowComments separators keyword)) body after) := by
  have place : (front ++ separators).length = front.length + separators.length := List.length_append
  have here := @token_eq ParseFault r before toks (front ++ separators) (body ++ after) keyword h
    (by simp [cut])
  have behind : toks = (front ++ separators ++ [keyword]) ++ (body ++ after) := by simp [cut]
  obtain ⟨found, next, limited⟩ :=
    @nextSignificant_filter ParseFault r before toks _ body after h behind
  rw [List.length_append, List.length_singleton, place] at next limited
  rw [place] at here
  have split := (List.takeWhile_append_dropWhile (p := Token.isComment) (l := body)).symm
  have all : ∀ c ∈ body.takeWhile Token.isComment, c.isComment = true :=
    fun c mem => List.mem_takeWhile_imp mem
  rw [importSpecs, next, pure_bind, limited, ImportDecl.readSpecs]
  cases code : body.dropWhile Token.isComment with
  | nil =>
    simp only [List.head?_nil, Option.map_none, here, pure_bind]
    rfl
  | cons opening rest =>
    rw [code] at split
    generalize body.takeWhile Token.isComment = comments at split all
    subst split
    have cut' : toks = (front ++ separators ++ keyword :: comments) ++ opening ::
        (rest ++ after) := by simp [cut]
    have index : front.length + separators.length + 1 + comments.length =
        (front ++ separators ++ keyword :: comments).length := by
      simp only [List.length_append, List.length_cons]
      omega
    have there := @token_eq ParseFault r before toks _ _ opening h cut'
    simp only [List.head?_cons, Option.map_some, index, there, pure_bind]
    by_cases paren : opening.kind = .opening .paren
    · rw [if_pos (show (bare opening).kind = .opening .paren from paren), if_pos paren]
      obtain ⟨inner, last, rfl, shut⟩ := exists_shut all paren nested
      have listed := @loop_listTurn r before toks (front ++ separators ++ keyword :: comments) after
        opening [] inner []
        0 _ none [] h last (by rw [cut']; simp) rfl rfl (.inl ⟨rfl, rfl⟩) shut (r.size + 1)
        (by rw [h.size_eq, cut']; simp; omega)
      have limit : front.length + separators.length + 1 +
          (comments ++ opening :: (inner ++ [last])).length - 1 =
          (front ++ separators ++ keyword :: comments).length + 1 + inner.length := by
        simp only [List.length_append, List.length_cons, List.length_nil]
        omega
      simp only [List.length_nil, Nat.add_zero] at listed
      rw [minus_of_le (by omega), pure_bind, limit, bare_stop, listed, List.dropLast_concat]
      cases ImportSpec.readList [] 0 inner <;> rfl
    · rw [if_neg (show ¬ (bare opening).kind = .opening .paren from paren), if_neg paren]
      have entry := @importSpec_eq r before toks _ rest after opening h cut'
      have limit : front.length + separators.length + 1 + (comments ++ opening :: rest).length =
          (front ++ separators ++ keyword :: comments).length + 1 + rest.length := by
        simp only [List.length_append, List.length_cons]
        omega
      rw [limit, entry]
      cases ImportSpec.read opening rest with
      | error fault => rfl
      | ok result =>
        obtain ⟨spec, n⟩ := result
        have whole : separators = SourceFile.Item.leadingComments separators ++
            separators.dropWhile Token.isComment := (List.takeWhile_append_dropWhile ..).symm
        have doc := @leadingDoc_eq ParseFault r before toks front _ keyword h
          (SourceFile.Item.leadingComments separators) (separators.dropWhile Token.isComment)
          (by rw [cut]; conv_lhs => rw [whole]
              rw [List.append_assoc])
        have index : front.length + (SourceFile.Item.leadingComments separators).length +
            (separators.dropWhile Token.isComment).length = front.length + separators.length := by
          conv_rhs => rw [whole, List.length_append, ← Nat.add_assoc]
        obtain ⟨init, last, ends⟩ : ∃ init last, opening :: rest = init ++ [last] :=
          ⟨_, _, (List.dropLast_append_getLast (List.cons_ne_nil opening rest)).symm⟩
        have trailing := @trailingComment_eq ParseFault r before toks
          (front ++ separators ++ keyword :: (comments ++ init)) after last h
          (by rw [cut', ← List.cons_append, ends]; simp)
        have stop : (front ++ separators ++ keyword :: (comments ++ init)).length + 1 =
            (front ++ separators ++ keyword :: comments).length + 1 + rest.length := by
          have size := congrArg List.length ends
          simp only [List.length_append, List.length_cons, List.length_nil] at size ⊢
          omega
        rw [index] at doc
        rw [stop] at trailing
        simp only [Except.map, ofExcept_ok, pure_bind, doc, trailing]
        rfl

end Of

end Reading

end GoSplit.Checked
