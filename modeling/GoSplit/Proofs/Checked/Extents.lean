import GoSplit.Proofs.Checked.Reading
import GoSplit.Proofs.Token.Spellings

/-!
Where a declaration ends, found by index. The open delimiters are kept as indices of tokens;
behind the end the comments on its line are taken along.
-/

namespace GoSplit.Checked.Reading

open List (Forall₂)
open Token (written)

variable {ε : Type}

/-- The search for an end: the token it has come to and the open delimiters, the innermost
first. -/
structure Search where
  index : Nat
  stack : List Nat

/-- The index behind the last token of a declaration, and the one to go on from. -/
structure DeclEnd where
  stop : Nat
  pos : Nat

/-- What the token at an index does to the stack of open delimiters. -/
def nested (r : Reading) (stack : List Nat) (index : Nat) (t : Token) :
    Checked ParseFault (List Nat) :=
  match t.kind with
  | .opening _ => pure (index :: stack)
  | .closing close =>
    match stack with
    | [] => throw ⟨.unbalancedDelimiter t.text, t.start⟩
    | last :: outer => do
      let opener ← r.token last
      if opener.kind = .opening close then return outer
      else throw ⟨.mismatchedDelimiter opener.text t.text, t.start⟩
  | _ => pure stack

/-- Whether no token but comments follows on the line of the token in front of the index. -/
def breaksAt (r : Reading) (t : Token) (index : Nat) : Checked ε Bool := do
  match ← r.nextSignificant index with
  | none => return true
  | some next => r.newlineBetween t.stop (← r.token next).start

def extentTurn (r : Reading) (s : Search) : Checked ParseFault (Turn Search DeclEnd) :=
  if s.index < r.size then do
    let t ← r.token s.index
    if t.isComment then return .again ⟨s.index + 1, s.stack⟩
    else if t.kind == .semicolon && s.stack.isEmpty then return .finished ⟨s.index, s.index + 1⟩
    else
      let stack ← r.nested s.stack s.index t
      if stack.isEmpty && t.endsStatement then
        if ← r.breaksAt t (s.index + 1) then return .finished ⟨s.index + 1, s.index + 1⟩
        else return .again ⟨s.index + 1, stack⟩
      else return .again ⟨s.index + 1, stack⟩
  else
    match s.stack.getLast? with
    | some outermost => do
      let opener ← r.token outermost
      throw ⟨.unclosedDelimiter opener.text, opener.start⟩
    | none => pure (.finished ⟨r.size, r.size⟩)

/-- The end of the declaration that starts at an index. -/
def scanDeclEnd (r : Reading) (start : Nat) : Checked ParseFault DeclEnd :=
  loop r.extentTurn (r.size + 1) ⟨start, []⟩

/-- A comment behind the byte `stop`, unless it is on a later line. -/
def absorbTurn (r : Reading) (state : Nat × Nat) : Checked ε (Turn (Nat × Nat) (Nat × Nat)) := do
  let (stop, index) := state
  match ← r.token? index with
  | none => return .finished (stop, index)
  | some t =>
    if !t.isComment then return .finished (stop, index)
    else if ← r.newlineBetween stop t.start then return .finished (stop, index)
    else return .again (t.stop, index + 1)

/-- The end of a declaration with the comments behind it on its line, and the index behind
these. -/
def absorbTrailing (r : Reading) (ending : DeclEnd) : Checked ε (Nat × Nat) := do
  let last ← r.token (← minus ending.stop 1)
  loop r.absorbTurn (r.size + 1) (last.stop, max ending.stop ending.pos)

namespace Of

variable {r : Reading} {before : Text} {toks front rest run after : List Token} {t : Token}

/-- The index is that of the token. -/
def Points (r : Reading) (i : Nat) (t : Token) : Prop :=
  (r.token i : Checked ParseFault Token) = pure (bare t)

theorem points (h : r.Of before toks) (cut : toks = front ++ t :: rest) : Points r front.length t :=
  h.token_eq cut

/-- The outermost delimiter of both stacks. -/
theorem getLast?_points {stack : List Nat} {opened : List Token}
    (deep : Forall₂ (Points r) stack opened) :
    (stack.getLast? = none ∧ opened.getLast? = none) ∨
      ∃ i t, stack.getLast? = some i ∧ opened.getLast? = some t ∧ Points r i t := by
  induction deep with
  | nil => exact .inl ⟨rfl, rfl⟩
  | @cons i t stack opened points _ ih =>
    rw [List.getLast?_cons, List.getLast?_cons]
    rcases ih with ⟨none, none'⟩ | ⟨j, u, last, last', points'⟩
    · exact .inr ⟨i, t, by rw [none]; rfl, by rw [none']; rfl, points⟩
    · exact .inr ⟨j, u, by rw [last]; rfl, by rw [last']; rfl, points'⟩

theorem nested_eq {stack : List Nat} {opened : List Token} (deep : Forall₂ (Points r) stack opened)
    {i : Nat} (here : Points r i t) :
    (∃ fault, nest opened t = .error fault ∧ r.nested stack i (bare t) = throw fault) ∨
      ∃ inside stack', nest opened t = .ok inside ∧ r.nested stack i (bare t) = pure stack' ∧
        Forall₂ (Points r) stack' inside := by
  rw [nest, nested, bare_kind]
  cases t.kind with
  | opening bracket => exact .inr ⟨_, _, rfl, rfl, .cons here deep⟩
  | closing close =>
    cases deep with
    | nil => exact .inl ⟨_, rfl, rfl⟩
    | @cons j opener _ outer points deep =>
      have read : (r.token j : Checked ParseFault Token) = pure (bare opener) := points
      simp only [read, pure_bind, bare_kind]
      by_cases same : opener.kind = .opening close
      · exact .inr ⟨_, _, if_pos same, if_pos same, deep⟩
      · exact .inl ⟨_, if_neg same, if_neg same⟩
  | _ => exact .inr ⟨_, _, rfl, rfl, deep⟩

theorem hasNewline_append (s u : Text) :
    Text.hasNewline (s ++ u) = (s.hasNewline || u.hasNewline) :=
  List.any_append

theorem breaksBeforeNext_eq (ts : List Token) :
    breaksBeforeNext ts = ((ts.dropWhile Token.isComment).head?.map fun next =>
      Text.hasNewline (written (ts.takeWhile Token.isComment) ++ next.gap)).getD true := by
  induction ts with
  | nil => rfl
  | cons t ts ih =>
    cases comment : t.isComment with
    | true =>
      rw [breaksBeforeNext, comment, ih, List.dropWhile_cons_of_pos comment,
        List.takeWhile_cons_of_pos comment, Token.onNewLine]
      cases (ts.dropWhile Token.isComment).head? with
      | none => simp
      | some next => simp [hasNewline_append]
    | false =>
      have code : ¬ t.isComment = true := by simp [comment]
      rw [breaksBeforeNext, comment, List.dropWhile_cons_of_neg code,
        List.takeWhile_cons_of_neg code]
      simp [Token.onNewLine]

theorem breaksAt_eq (h : r.Of before toks) (cut : toks = front ++ t :: rest) :
    (r.breaksAt (bare t) (front.length + 1) : Checked ε Bool) = pure (breaksBeforeNext rest) := by
  have behind : toks = (front ++ [t]) ++ rest := by simp [cut]
  have next := @nextSignificant_eq ε r before toks (front ++ [t]) rest h behind
  have split := (List.takeWhile_append_dropWhile (p := Token.isComment) (l := rest)).symm
  rw [List.length_append, List.length_singleton] at next
  rw [breaksAt, next, pure_bind, breaksBeforeNext_eq]
  cases code : rest.dropWhile Token.isComment with
  | nil => rfl
  | cons u more =>
    rw [code] at split
    have cut' : toks = front ++ t :: (rest.takeWhile Token.isComment ++ u :: more) := by
      rw [cut, ← split]
    have there : toks = (front ++ [t] ++ rest.takeWhile Token.isComment) ++ u :: more := by
      simp [cut']
    have points := @token_eq ε r before toks _ _ _ h there
    simp only [List.length_append, List.length_singleton] at points
    simp only [List.head?_cons, Option.map_some, points, pure_bind, newlineBetween, bare_stop,
      bare_start, h.slice_between cut', Option.getD_some]

/-- The end that an extent tells when it is counted from an index. -/
def endOf (start : Nat) (e : Extent) : DeclEnd :=
  ⟨start + e.size, start + e.size + if e.terminated then 1 else 0⟩

theorem endOf_succ (start : Nat) (e : Extent) : endOf start e.succ = endOf (start + 1) e := by
  simp only [endOf, Extent.succ, Nat.add_assoc, Nat.add_comm 1]
  rfl

theorem loop_extentTurn (h : r.Of before toks) (cut : toks = front ++ rest) {stack : List Nat}
    {opened : List Token} (deep : Forall₂ (Points r) stack opened) {turns : Nat}
    (enough : rest.length < turns) :
    loop r.extentTurn turns ⟨front.length, stack⟩ =
      ofExcept ((extentFrom opened rest).map (endOf front.length)) := by
  obtain ⟨turns, rfl⟩ : ∃ n, turns = n + 1 := ⟨turns - 1, by omega⟩
  induction rest generalizing front stack opened turns with
  | nil =>
    have ended : ¬ front.length < r.size := by simp [h.size_eq, cut]
    rcases getLast?_points deep with ⟨none, none'⟩ | ⟨i, t, last, last', points⟩
    · have turn : r.extentTurn ⟨front.length, stack⟩ = pure (.finished ⟨r.size, r.size⟩) := by
        rw [extentTurn, if_neg ended, none]
      rw [loop_finished turn, h.size_eq, cut, extentFrom, none']
      simp [endOf, Except.map]
    · have read : (r.token i : Checked ParseFault Token) = pure (bare t) := points
      have turn : r.extentTurn ⟨front.length, stack⟩ =
          throw ⟨.unclosedDelimiter t.text, t.start⟩ := by
        rw [extentTurn, if_neg ended, last]
        simp only [read, pure_bind, bare_text, bare_start]
      rw [loop_throw turn, extentFrom, last']
      rfl
  | cons t rest ih =>
    have inside : front.length < r.size := by simp [h.size_eq, cut]
    have behind : toks = (front ++ [t]) ++ rest := by simp [cut]
    obtain ⟨more, rfl⟩ : ∃ n, turns = n + 1 := ⟨turns - 1, by simp at enough; omega⟩
    -- The search goes on behind the token.
    have next : ∀ {stack opened}, Forall₂ (Points r) stack opened →
        loop r.extentTurn (more + 1) ⟨front.length + 1, stack⟩ =
          ofExcept (((extentFrom opened rest).map Extent.succ).map (endOf front.length)) := by
      intro stack opened deep
      have run := @ih (front ++ [t]) behind stack opened deep more (by simpa using enough)
      rw [List.length_append, List.length_singleton] at run
      rw [run]
      cases extentFrom opened rest with
      | error fault => rfl
      | ok e => simp [Except.map, endOf_succ]
    have step : r.extentTurn ⟨front.length, stack⟩ = (do
        if t.isComment then return .again ⟨front.length + 1, stack⟩
        else if t.kind == .semicolon && stack.isEmpty
          then return .finished ⟨front.length, front.length + 1⟩
        else
          let stack ← r.nested stack front.length (bare t)
          if stack.isEmpty && t.endsStatement then
            if breaksBeforeNext rest then return .finished ⟨front.length + 1, front.length + 1⟩
            else return .again ⟨front.length + 1, stack⟩
          else return .again ⟨front.length + 1, stack⟩) := by
      rw [extentTurn, if_pos inside, h.token_eq cut, pure_bind, h.breaksAt_eq cut]
      rfl
    rw [extentFrom]
    by_cases comment : t.isComment = true
    · rw [if_pos comment, loop_again (step.trans (if_pos comment)), next deep]
    rw [if_neg comment] at step ⊢
    have empty : stack.isEmpty = opened.isEmpty := by cases deep <;> rfl
    rw [empty] at step
    by_cases semicolon : (t.kind == .semicolon && opened.isEmpty) = true
    · rw [if_pos semicolon, loop_finished (step.trans (if_pos semicolon))]
      rfl
    rw [if_neg semicolon] at step ⊢
    rcases nested_eq deep (h.points cut) with
      ⟨fault, refused, thrown⟩ | ⟨inner, stack', nests, found, deep'⟩
    · rw [thrown] at step
      rw [refused, loop_throw step]
      rfl
    rw [found, pure_bind] at step
    have empty' : stack'.isEmpty = inner.isEmpty := by cases deep' <;> rfl
    rw [empty'] at step
    rw [nests]
    by_cases ends : (inner.isEmpty && t.endsStatement) = true
    · rw [if_pos ends] at step
      by_cases breaks : breaksBeforeNext rest = true
      · rw [if_pos breaks] at step
        rw [loop_finished step]
        simp [ends, breaks, Except.map, endOf]
      · rw [if_neg breaks] at step
        rw [loop_again step, next deep']
        simp [breaks]
    · rw [if_neg ends] at step
      rw [loop_again step, next deep']
      simp [ends]

theorem scanDeclEnd_eq (h : r.Of before toks) (cut : toks = front ++ rest) :
    r.scanDeclEnd front.length = ofExcept ((declExtent rest).map (endOf front.length)) := by
  refine h.loop_extentTurn cut .nil ?_
  rw [h.size_eq, cut, List.length_append]
  omega

/-! ### Comments behind the end -/

/-- One turn behind the token `p`, with the tokens `mid` passed over. -/
theorem absorbTurn_eq (h : r.Of before toks) {p : Token} {mid : List Token}
    (cut : toks = front ++ p :: (mid ++ rest)) :
    (r.absorbTurn (p.stop, front.length + 1 + mid.length) : Checked ε _) =
      match rest with
      | [] => pure (.finished (p.stop, front.length + 1 + mid.length))
      | t :: _ =>
        if t.isComment && !Text.hasNewline (written mid ++ t.gap) then
          pure (.again (t.stop, front.length + 1 + mid.length + 1))
        else pure (.finished (p.stop, front.length + 1 + mid.length)) := by
  have behind : toks = (front ++ p :: mid) ++ rest := by simp [cut]
  have found := @token?_eq ε r before toks (front ++ p :: mid) rest h behind
  rw [List.length_append, List.length_cons, Nat.add_comm mid.length, ← Nat.add_assoc] at found
  simp only [absorbTurn, found, pure_bind]
  cases rest with
  | nil => rfl
  | cons t rest =>
    simp only [List.head?_cons, Option.map_some, bare_isComment, bare_start, bare_stop,
      newlineBetween, h.slice_between cut, pure_bind]
    cases t.isComment with
    | false => rfl
    | true => cases Text.hasNewline (written mid ++ t.gap) <;> rfl

theorem loop_absorbTurn (h : r.Of before toks) (cut : toks = front ++ t :: rest) {turns : Nat}
    (enough : rest.length < turns) :
    (loop r.absorbTurn turns (t.stop, front.length + 1) : Checked ε (Nat × Nat)) =
      pure (((SourceFile.sameLineComments rest).getLastD t).stop,
        front.length + 1 + (SourceFile.sameLineComments rest).length) := by
  obtain ⟨turns, rfl⟩ : ∃ n, turns = n + 1 := ⟨turns - 1, by omega⟩
  induction rest generalizing front t turns with
  | nil => exact loop_finished (@absorbTurn_eq ε r before toks front [] h t [] cut) turns
  | cons u rest ih =>
    have turn := @absorbTurn_eq ε r before toks front (u :: rest) h t [] cut
    simp only [Token.written_nil, List.nil_append, List.length_nil, Nat.add_zero] at turn
    by_cases same : (u.isComment && !u.onNewLine) = true
    · obtain ⟨turns, rfl⟩ : ∃ n, turns = n + 1 := ⟨turns - 1, by simp at enough; omega⟩
      have next := @ih (front ++ [t]) u (by simp [cut]) turns (by simpa using enough)
      rw [List.length_append, List.length_singleton] at next
      have taken : SourceFile.sameLineComments (u :: rest) =
          u :: SourceFile.sameLineComments rest :=
        List.takeWhile_cons_of_pos same
      rw [loop_again (turn.trans (if_pos same)), next, taken]
      simp only [List.getLastD_cons, List.length_cons, Nat.add_assoc, Nat.add_comm 1]
    · have taken : SourceFile.sameLineComments (u :: rest) = [] := List.takeWhile_cons_of_neg same
      rw [loop_finished (turn.trans (if_neg same)), taken]
      rfl

theorem eq_semicolon (h : r.Of before toks) (mem : t ∈ toks) (kind : t.kind = .semicolon) :
    t.text = [';'] := by
  obtain ⟨rest, reads⟩ := h.reads t mem
  rw [kind] at reads
  exact reads.eq_semicolon

theorem getLastD_append {α : Type} (as bs : List α) (a : α) :
    (as ++ bs).getLastD a = bs.getLastD (as.getLastD a) := by
  rw [List.getLastD_eq_getLast?, List.getLastD_eq_getLast?, List.getLastD_eq_getLast?,
    List.getLast?_append]
  cases bs.getLast? <;> rfl

/-- A comment behind a semicolon goes with the declaration when it is on its line. -/
theorem close_cons {semicolon u : Token} {more : List Token} (text : semicolon.text = [';']) :
    SourceFile.Item.close true run (semicolon :: u :: more) =
      if u.isComment && !Text.hasNewline (written [semicolon] ++ u.gap) then
        (run ++ semicolon :: u :: SourceFile.sameLineComments more, [])
      else (run, [semicolon]) := by
  have broken : Text.hasNewline (written [semicolon] ++ u.gap) =
      (semicolon.onNewLine || u.onNewLine) := by
    have plain : Text.hasNewline (';' :: u.gap) = u.gap.hasNewline := rfl
    simp [written, text, hasNewline_append, plain, Token.onNewLine]
  rw [SourceFile.Item.close, SourceFile.sameLineComments, List.takeWhile_cons, broken]
  cases u.isComment <;> cases u.onNewLine <;> cases semicolon.onNewLine <;> rfl

/-- The end of a declaration with the comments behind it, and the token that comes next. -/
theorem absorbTrailing_eq (h : r.Of before toks) (cut : toks = front ++ t :: (run ++ after))
    {terminated : Bool}
    (closed : terminated = true → ∃ semicolon more, after = semicolon :: more ∧
      semicolon.kind = .semicolon) :
    (r.absorbTrailing ⟨front.length + 1 + run.length,
        front.length + 1 + run.length + if terminated then 1 else 0⟩ : Checked ε (Nat × Nat)) =
      pure (((SourceFile.Item.close terminated run after).1.getLastD t).stop,
        front.length + 1 + (SourceFile.Item.close terminated run after).1.length +
          (SourceFile.Item.close terminated run after).2.length) := by
  obtain ⟨init, last, ends⟩ : ∃ init last, t :: run = init ++ [last] :=
    ⟨_, _, (List.dropLast_append_getLast (List.cons_ne_nil t run)).symm⟩
  have size : init.length = run.length := by simpa using (congrArg List.length ends).symm
  have isLast : run.getLastD t = last := by
    rw [← @List.getLastD_cons _ t t run, ends]
    simp
  have cut' : toks = (front ++ init) ++ last :: after := by rw [cut, ← List.cons_append, ends]; simp
  have final := @token_eq ε r before toks (front ++ init) after last h cut'
  have index : front.length + 1 + run.length - 1 = (front ++ init).length := by
    rw [List.length_append, size]
    omega
  have reached : (front ++ init).length + 1 = front.length + 1 + run.length := by
    rw [List.length_append, size]
    omega
  have enough : after.length < r.size + 1 := by
    rw [h.size_eq, cut', List.length_append, List.length_cons]
    omega
  rw [absorbTrailing, minus_of_le (show 1 ≤ front.length + 1 + run.length by omega), pure_bind,
    index, final, pure_bind, bare_stop]
  cases terminated with
  | false =>
    have absorbed := @loop_absorbTurn ε r before toks (front ++ init) after last h cut'
      (r.size + 1) enough
    rw [reached] at absorbed
    simp only [Bool.false_eq_true, if_false, Nat.add_zero, Nat.max_self]
    have closing : SourceFile.Item.close false run after =
        (run ++ SourceFile.sameLineComments after, []) := rfl
    rw [absorbed, closing, getLastD_append, isLast, List.length_append, ← Nat.add_assoc]
    rfl
  | true =>
    obtain ⟨semicolon, more, rfl, kind⟩ := closed rfl
    have text := h.eq_semicolon (by simp [cut] : semicolon ∈ toks) kind
    -- The semicolon lies between the end and the first comment.
    have turn := @absorbTurn_eq ε r before toks (front ++ init) more h last [semicolon] cut'
    rw [reached, List.length_singleton] at turn
    rw [if_pos rfl, Nat.max_eq_right (Nat.le_succ _)]
    cases more with
    | nil =>
      have closing : SourceFile.Item.close true run [semicolon] = (run, [semicolon]) := rfl
      rw [loop_finished turn, closing, isLast]
      rfl
    | cons u more =>
      simp only at turn
      rw [close_cons text]
      by_cases same : (u.isComment && !Text.hasNewline (written [semicolon] ++ u.gap)) = true
      · rw [if_pos same] at turn
        have cut'' : toks = (front ++ init ++ [last, semicolon]) ++ u :: more := by simp [cut']
        have absorbed := @loop_absorbTurn ε r before toks _ more u h cut'' r.size
          (by rw [h.size_eq, cut'']; simp; omega)
        have place : (front ++ init ++ [last, semicolon]).length + 1 =
            front.length + 1 + run.length + 1 + 1 := by
          simp [size]
          omega
        rw [place] at absorbed
        have counted : (run ++ semicolon :: u :: SourceFile.sameLineComments more).length =
            run.length + 1 + 1 + (SourceFile.sameLineComments more).length := by
          simp only [List.length_append, List.length_cons]
          omega
        rw [loop_again turn, absorbed, if_pos same, getLastD_append, List.getLastD_cons,
          List.getLastD_cons, counted]
        simp only [Nat.add_assoc, List.length_nil, Nat.add_zero]
      · rw [if_neg same] at turn
        rw [loop_finished turn, if_neg same, isLast]
        rfl

end Of

end GoSplit.Checked.Reading
