import GoSplit.Proofs.Checked.Extents
import GoSplit.Proofs.SourceFile.Accounting

/-!
Where declarations end, said of positions. The delimiters that are open behind a run of tokens
are given by a relation that takes the run apart from its end; a verdict is a reason to stop at
one position, read off what is open there and off the source behind it. The scan for the end of
a declaration gives the verdict at the first position that has one.
-/

namespace GoSplit

open List (Forall₂)

namespace Ending

/-- Behind the tokens the delimiters `opened` are open, the innermost first, and each of the
others has been closed by one of its kind. -/
inductive Opens : List Token → List Token → Prop
  | start : Opens [] []
  | plain {ts opened : List Token} {t : Token} : Opens ts opened → t.isPlain = true →
      Opens (ts ++ [t]) opened
  | opening {ts opened : List Token} {t : Token} {bracket : Bracket} : Opens ts opened →
      t.kind = .opening bracket → Opens (ts ++ [t]) (t :: opened)
  | closing {ts opened : List Token} {opener t : Token} {bracket : Bracket} :
      Opens ts (opener :: opened) → opener.kind = .opening bracket → t.kind = .closing bracket →
      Opens (ts ++ [t]) opened

/-- The next token that is no comment is missing, or the text from the token `t` up to it has a
line break. -/
def breaksBehind (src : Text) (t : Token) (rest : List Token) : Bool :=
  match rest.find? fun next => !next.isComment with
  | none => true
  | some next => (src.slice? ⟨t.stop, next.start⟩).any Text.hasNewline

/-- A reason to stop at a position of the tokens, and what the scan then comes to. -/
inductive Verdict (src : Text) (ts : List Token) : Nat → Except ParseFault Extent → Prop
  | semicolon {front rest : List Token} {t : Token} : ts = front ++ t :: rest →
      t.kind = .semicolon → Opens front [] →
      Verdict src ts front.length (.ok ⟨front.length, true⟩)
  | line {front rest : List Token} {t : Token} : ts = front ++ t :: rest →
      t.endsStatement = true → Opens (front ++ [t]) [] → breaksBehind src t rest = true →
      Verdict src ts front.length (.ok ⟨front.length + 1, false⟩)
  | unbalanced {front rest : List Token} {t : Token} {bracket : Bracket} :
      ts = front ++ t :: rest → t.kind = .closing bracket → Opens front [] →
      Verdict src ts front.length (.error ⟨.unbalancedDelimiter t.text, t.start⟩)
  | mismatched {front rest opened : List Token} {opener t : Token} {bracket : Bracket} :
      ts = front ++ t :: rest → t.kind = .closing bracket → Opens front (opener :: opened) →
      opener.kind ≠ .opening bracket →
      Verdict src ts front.length (.error ⟨.mismatchedDelimiter opener.text t.text, t.start⟩)
  | unclosed {opened : List Token} {outermost : Token} : Opens ts (opened ++ [outermost]) →
      Verdict src ts ts.length (.error ⟨.unclosedDelimiter outermost.text, outermost.start⟩)
  | ended : Opens ts [] → Verdict src ts ts.length (.ok ⟨ts.length, false⟩)

/-- The verdict at the first position that has one. -/
def FirstVerdict (src : Text) (ts : List Token) (result : Except ParseFault Extent) : Prop :=
  ∃ n, Verdict src ts n result ∧ ∀ m < n, ∀ other, ¬ Verdict src ts m other

/-! ### What is open -/

section

variable {ts us opened opened' : List Token} {t : Token}

theorem nest_plain (stack : List Token) (plain : t.isPlain = true) : nest stack t = .ok stack := by
  rw [nest]
  split
  · next bracket kind => simp [Token.isPlain, kind] at plain
  · next bracket kind => simp [Token.isPlain, kind] at plain
  · rfl

/-- One token further, what is open is what the token makes of it. -/
theorem opens_snoc_iff : Opens (ts ++ [t]) opened' ↔
    ∃ opened, Opens ts opened ∧ nest opened t = .ok opened' := by
  constructor
  · intro h
    generalize eq : ts ++ [t] = whole at h
    cases h with
    | start => exact absurd eq (List.append_ne_nil_of_right_ne_nil _ (List.cons_ne_nil _ _))
    | plain before plain =>
      obtain ⟨rfl, same⟩ := List.append_inj' eq rfl
      obtain rfl := List.singleton_inj.1 same
      exact ⟨_, before, nest_plain _ plain⟩
    | opening before opens =>
      obtain ⟨rfl, same⟩ := List.append_inj' eq rfl
      obtain rfl := List.singleton_inj.1 same
      exact ⟨_, before, by simp [nest, opens]⟩
    | closing before opens closes =>
      obtain ⟨rfl, same⟩ := List.append_inj' eq rfl
      obtain rfl := List.singleton_inj.1 same
      exact ⟨_, before, by simp [nest, opens, closes]⟩
  · rintro ⟨opened, before, nested⟩
    rw [nest] at nested
    split at nested
    · next bracket kind =>
      obtain rfl := Except.ok.inj nested
      exact before.opening kind
    · next bracket kind =>
      cases opened with
      | nil => cases nested
      | cons opener outer =>
        simp only at nested
        split at nested
        · next opens =>
          obtain rfl := Except.ok.inj nested
          exact before.closing opens kind
        · cases nested
    · next opens closes =>
      obtain rfl := Except.ok.inj nested
      refine before.plain ?_
      rw [Token.isPlain]
      split
      · next bracket kind => exact (opens bracket kind).elim
      · next bracket kind => exact (closes bracket kind).elim
      · rfl

theorem Opens.unique (h : Opens ts opened) (h' : Opens ts opened') : opened = opened' := by
  induction ts using List.reverseRecOn generalizing opened opened' with
  | nil =>
    have none : ∀ {opened}, Opens [] opened → opened = [] := by
      intro opened h
      generalize eq : ([] : List Token) = whole at h
      cases h with
      | start => rfl
      | plain | opening | closing => cases List.append_eq_nil_iff.1 eq.symm |>.2
    rw [none h, none h']
  | append_singleton ts t ih =>
    obtain ⟨before, opens, nested⟩ := opens_snoc_iff.1 h
    obtain ⟨before', opens', nested'⟩ := opens_snoc_iff.1 h'
    obtain rfl := ih opens opens'
    exact Except.ok.inj (nested.symm.trans nested')

/-- Code that closes what is open in front of it leaves nothing open. -/
theorem Opens.append_of_balances {brackets : List Bracket} (h : Opens ts opened)
    (same : Forall₂ (fun t b => t.kind = .opening b) opened brackets)
    (closed : Balances brackets us) :
    Opens (ts ++ us) [] := by
  induction us generalizing ts opened brackets with
  | nil =>
    obtain rfl : brackets = [] := closed
    rw [List.forall₂_nil_right_iff.1 same] at h
    rwa [List.append_nil]
  | cons t us ih =>
    rw [List.append_cons]
    cases kind : t.kind with
    | opening b => exact ih (h.opening kind) (.cons kind same) ((balances_opening kind).1 closed)
    | closing b =>
      obtain ⟨outer, rfl, later⟩ := (balances_closing kind).1 closed
      cases same with
      | cons opens same => exact ih (h.closing opens kind) same later
    | _ =>
      have plain : t.isPlain = true := by simp [Token.isPlain, kind]
      exact ih (h.plain plain) same ((balances_plain plain).1 closed)

theorem opens_of_balances (closed : Balances [] us) : Opens us [] :=
  Opens.start.append_of_balances .nil closed

end

/-! ### The verdict at a position -/

section

variable {src : Text} {front rest opened : List Token} {t : Token}
  {result : Except ParseFault Extent}

/-- What there is to say at a token where `opened` is open in front of it. -/
theorem verdict_cases (before : Opens front opened)
    (h : Verdict src (front ++ t :: rest) front.length result) :
    (t.kind = .semicolon ∧ opened = [] ∧ result = .ok ⟨front.length, true⟩) ∨
    (t.endsStatement = true ∧ nest opened t = .ok [] ∧ breaksBehind src t rest = true ∧
      result = .ok ⟨front.length + 1, false⟩) ∨
    ∃ fault, nest opened t = .error fault ∧ result = .error fault := by
  have parts : ∀ {front' rest' t'}, front ++ t :: rest = front' ++ t' :: rest' →
      front.length = front'.length → front = front' ∧ t = t' ∧ rest = rest' := by
    intro front' rest' t' eq size
    obtain ⟨rfl, same⟩ := List.append_inj eq size
    exact ⟨rfl, List.cons.inj same⟩
  generalize at_ : front.length = n at h
  cases h with
  | semicolon eq kind opens =>
    obtain ⟨rfl, rfl, rfl⟩ := parts eq at_
    exact .inl ⟨kind, before.unique opens, by rw [at_]⟩
  | line eq ends opens breaks =>
    obtain ⟨rfl, rfl, rfl⟩ := parts eq at_
    obtain ⟨opened', before', nested⟩ := opens_snoc_iff.1 opens
    obtain rfl := before.unique before'
    exact .inr (.inl ⟨ends, nested, breaks, by rw [at_]⟩)
  | unbalanced eq kind opens =>
    obtain ⟨rfl, rfl, rfl⟩ := parts eq at_
    obtain rfl := before.unique opens
    exact .inr (.inr ⟨_, by simp [nest, kind], rfl⟩)
  | mismatched eq kind opens other =>
    obtain ⟨rfl, rfl, rfl⟩ := parts eq at_
    obtain rfl := before.unique opens
    exact .inr (.inr ⟨_, by simp [nest, kind, other], rfl⟩)
  | unclosed _ => simp at at_
  | ended _ => simp at at_

/-- A token that nests, ends nothing and is no semicolon outside of delimiters is no place to
stop. -/
theorem not_verdict {inside : List Token} (before : Opens front opened)
    (nested : nest opened t = .ok inside)
    (goesOn : ¬ (t.kind == .semicolon && opened.isEmpty) = true)
    (stays : ¬ (inside.isEmpty && t.endsStatement && breaksBehind src t rest) = true) :
    ¬ Verdict src (front ++ t :: rest) front.length result := by
  intro verdict
  rcases verdict_cases before verdict with
    ⟨kind, rfl, -⟩ | ⟨ends, closed, breaks, -⟩ | ⟨fault, failed, -⟩
  · exact goesOn (by simp [kind])
  · rw [nested] at closed
    exact stays (by simp [Except.ok.inj closed, ends, breaks])
  · rw [nested] at failed
    cases failed

/-- A closing delimiter that does not nest is where the scan stops. -/
theorem verdict_of_nest {fault : ParseFault} (before : Opens front opened)
    (failed : nest opened t = .error fault) :
    Verdict src (front ++ t :: rest) front.length (.error fault) := by
  rw [nest] at failed
  split at failed
  · cases failed
  · next bracket kind =>
    cases opened with
    | nil =>
      obtain rfl := Except.error.inj failed
      exact .unbalanced rfl kind before
    | cons opener outer =>
      simp only at failed
      split at failed
      · cases failed
      · next other =>
        obtain rfl := Except.error.inj failed
        exact .mismatched rfl kind before other
  · cases failed

/-- Where there is a verdict at a token, something definite is open in front of it. -/
theorem Verdict.exists_opens (h : Verdict src (front ++ t :: rest) front.length result) :
    ∃ opened, Opens front opened := by
  have parts : ∀ {front' rest' t'}, front ++ t :: rest = front' ++ t' :: rest' →
      front.length = front'.length → front = front' ∧ t = t' := by
    intro front' rest' t' eq size
    obtain ⟨rfl, same⟩ := List.append_inj eq size
    exact ⟨rfl, (List.cons.inj same).1⟩
  generalize at_ : front.length = n at h
  cases h with
  | semicolon eq _ opens | unbalanced eq _ opens | mismatched eq _ opens _ =>
    obtain ⟨rfl, rfl⟩ := parts eq at_
    exact ⟨_, opens⟩
  | line eq _ opens _ =>
    obtain ⟨rfl, rfl⟩ := parts eq at_
    obtain ⟨opened, before, -⟩ := opens_snoc_iff.1 opens
    exact ⟨opened, before⟩
  | unclosed _ => simp at at_
  | ended _ => simp at at_

theorem Verdict.le_length {ts : List Token} {n : Nat} (h : Verdict src ts n result) :
    n ≤ ts.length := by
  cases h with
  | unclosed _ => exact Nat.le_refl _
  | ended _ => exact Nat.le_refl _
  | semicolon eq | line eq | unbalanced eq | mismatched eq => simp [eq]

/-- Behind the last token the verdict is whether something is still open. -/
theorem verdict_end {ts : List Token} (h : Verdict src ts ts.length result) :
    (Opens ts [] ∧ result = .ok ⟨ts.length, false⟩) ∨
    ∃ opened outermost, Opens ts (opened ++ [outermost]) ∧
      result = .error ⟨.unclosedDelimiter outermost.text, outermost.start⟩ := by
  generalize at_ : ts.length = n at h
  cases h with
  | unclosed opens => exact .inr ⟨_, _, opens, rfl⟩
  | ended opens => exact .inl ⟨opens, rfl⟩
  | semicolon eq | line eq | unbalanced eq | mismatched eq => simp [eq] at at_

theorem Verdict.unique {ts : List Token} {n : Nat} {other : Except ParseFault Extent}
    (h : Verdict src ts n result) (h' : Verdict src ts n other) : result = other := by
  rcases Nat.lt_or_eq_of_le h.le_length with inside | rfl
  · obtain ⟨front, t, rest, rfl, rfl⟩ : ∃ front t rest, ts = front ++ t :: rest ∧
      front.length = n := by
      refine ⟨ts.take n, ts[n], ts.drop (n + 1), ?_, by simp; omega⟩
      rw [← List.drop_eq_getElem_cons inside, List.take_append_drop]
    obtain ⟨opened, before⟩ := h.exists_opens
    have noEnd : t.kind = .semicolon → t.endsStatement = false := fun kind => by
      simp [Token.endsStatement, kind]
    have nests : t.kind = .semicolon → nest opened t = .ok opened := fun kind =>
      nest_plain opened (by simp [Token.isPlain, kind])
    rcases verdict_cases before h with
      ⟨kind, _, rfl⟩ | ⟨ends, closed, _, rfl⟩ | ⟨fault, failed, rfl⟩ <;>
      rcases verdict_cases before h' with
        ⟨kind', _, rfl⟩ | ⟨ends', closed', _, rfl⟩ | ⟨fault', failed', rfl⟩
    all_goals simp_all
  · rcases verdict_end h with ⟨opens, rfl⟩ | ⟨opened, outermost, opens, rfl⟩ <;>
      rcases verdict_end h' with ⟨opens', rfl⟩ | ⟨opened', outermost', opens', rfl⟩
    · rfl
    · simpa using opens.unique opens'
    · simpa using opens.unique opens'
    · obtain ⟨-, last⟩ := List.append_inj' (opens.unique opens') rfl
      rw [List.singleton_inj.1 last]

theorem FirstVerdict.unique {ts : List Token} {other : Except ParseFault Extent}
    (h : FirstVerdict src ts result) (h' : FirstVerdict src ts other) : result = other := by
  obtain ⟨n, verdict, first⟩ := h
  obtain ⟨m, verdict', first'⟩ := h'
  rcases Nat.lt_trichotomy n m with less | rfl | less
  · exact absurd verdict (first' n less result)
  · exact verdict.unique verdict'
  · exact absurd verdict' (first m less other)

end

/-! ### The scan -/

section

variable {src : Text}

theorem map_shift_of_succ (n : Nat) (result : Except ParseFault Extent) :
    (result.map Extent.succ).map (Extent.shift n) = result.map (Extent.shift (n + 1)) := by
  cases result with
  | error fault => rfl
  | ok e => simp [Except.map, Extent.succ, Extent.shift, Nat.add_assoc, Nat.add_comm 1]

/-- Reading on behind tokens that give no verdict, the scan comes to the first one. -/
theorem firstVerdict_extentFrom {front ts stack : List Token} (before : Opens front stack)
    (passed : ∀ m < front.length, ∀ other, ¬ Verdict src (front ++ ts) m other)
    (breaks : ∀ front' t rest, front ++ ts = front' ++ t :: rest →
      breaksBehind src t rest = breaksBeforeNext rest) :
    FirstVerdict src (front ++ ts) ((extentFrom stack ts).map (Extent.shift front.length)) := by
  induction ts generalizing front stack with
  | nil =>
    rw [List.append_nil] at passed ⊢
    refine ⟨front.length, ?_, passed⟩
    rw [extentFrom]
    cases last : stack.getLast? with
    | none =>
      obtain rfl := List.getLast?_eq_none_iff.1 last
      simpa [Except.map, Extent.shift] using Verdict.ended before
    | some outermost =>
      obtain ⟨opened, rfl⟩ := List.getLast?_eq_some_iff.1 last
      exact .unclosed before
  | cons t ts ih =>
    -- A token without a verdict is passed over.
    have next : ∀ {inside}, nest stack t = .ok inside →
        ¬ (t.kind == .semicolon && stack.isEmpty) = true →
        ¬ (inside.isEmpty && t.endsStatement && breaksBeforeNext ts) = true →
        FirstVerdict src (front ++ t :: ts)
          (((extentFrom inside ts).map Extent.succ).map (Extent.shift front.length)) := by
      intro inside nested goesOn stays
      rw [← breaks front t ts rfl] at stays
      have found := @ih (front ++ [t]) inside (opens_snoc_iff.2 ⟨stack, before, nested⟩)
      rw [List.length_append, List.length_singleton, ← List.append_cons] at found
      rw [map_shift_of_succ]
      refine found (fun m less other => ?_) breaks
      rcases Nat.lt_or_eq_of_le (Nat.le_of_lt_succ less) with less | rfl
      · exact passed m less other
      · exact not_verdict before nested goesOn stays
    rw [extentFrom]
    split
    · next comment =>
      have kind := Token.isComment_iff.1 comment
      refine next (nest_plain stack ?_) ?_ ?_
      · rcases kind with kind | kind <;> simp [Token.isPlain, kind]
      · rcases kind with kind | kind <;> simp [kind]
      · rcases kind with kind | kind <;> simp [Token.endsStatement, kind]
    · split
      · next stop =>
        simp only [Bool.and_eq_true, beq_iff_eq, List.isEmpty_iff] at stop
        obtain ⟨kind, rfl⟩ := stop
        refine ⟨front.length, ?_, passed⟩
        simpa [Except.map, Extent.shift] using Verdict.semicolon rfl kind before
      · next goesOn =>
        split
        · next fault failed => exact ⟨front.length, verdict_of_nest before failed, passed⟩
        · next inside nested =>
          split
          · next ends =>
            simp only [Bool.and_eq_true, List.isEmpty_iff] at ends
            obtain ⟨⟨rfl, ends⟩, stops⟩ := ends
            refine ⟨front.length, ?_, passed⟩
            have line := Verdict.line rfl ends (opens_snoc_iff.2 ⟨stack, before, nested⟩)
              ((breaks front t ts rfl).trans stops)
            simpa [Except.map, Extent.shift, Nat.add_comm] using line
          · next stays => exact next nested goesOn stays

theorem find?_not_isComment (rest : List Token) :
    (rest.find? fun next => !next.isComment) = (rest.dropWhile Token.isComment).head? := by
  induction rest with
  | nil => rfl
  | cons t rest ih =>
    cases comment : t.isComment <;> simp [comment, ih]

/-- Between tokens of a text, the line breaks that they carry are those of the text. -/
theorem breaksBehind_eq {toks front rest : List Token} {t : Token}
    (lexed : Token.tokenize src = .ok toks) (cut : toks = front ++ t :: rest) :
    breaksBehind src t rest = breaksBeforeNext rest := by
  rw [breaksBehind, find?_not_isComment, Checked.Reading.Of.breaksBeforeNext_eq]
  cases code : rest.dropWhile Token.isComment with
  | nil => rfl
  | cons next more =>
    have split := (List.takeWhile_append_dropWhile (p := Token.isComment) (l := rest)).symm
    rw [code] at split
    have cut' : toks = front ++ t :: (rest.takeWhile Token.isComment ++ next :: more) := by
      rw [cut, ← split]
    have between := (Checked.Reading.of_tokenize lexed).slice?_between cut'
    simp only [List.head?_cons, Option.map_some, Option.getD_some, between, Option.any_some]

theorem declExtent_eq_iff {toks : List Token} (lexed : Token.tokenize src = .ok toks) (start : Nat)
    (result : Except ParseFault Extent) :
    declExtent (toks.drop start) = result ↔ FirstVerdict src (toks.drop start) result := by
  have scanned : FirstVerdict src (toks.drop start) (declExtent (toks.drop start)) := by
    have found := @firstVerdict_extentFrom src [] (toks.drop start) [] .start (by simp)
      fun front t rest eq => by
        have cut : toks = (toks.take start ++ front) ++ t :: rest := by
          rw [List.append_assoc, ← eq, List.nil_append, List.take_append_drop]
        exact breaksBehind_eq lexed cut
    cases result : extentFrom [] (toks.drop start) <;>
      simpa [declExtent, result, Except.map] using found
  constructor
  · rintro rfl
    exact scanned
  · exact scanned.unique

end

end Ending

namespace SourceFile

open Ending

/-- A declaration, with what the comments at the end of the file add to it, closes what it opens. -/
theorem balances_of_mem_declsOf {items : List Item} {trailing : List Token} {d : Decl}
    (read : ∀ item ∈ items, ∃ rest, Item.read item.before item.keyword rest = .ok item ∧
      ∀ t ∈ item.before, t.isSeparator = true)
    (mem : d ∈ declsOf trailing items) : Balances [] d.tokens := by
  induction items with
  | nil => simp [declsOf] at mem
  | cons item items ih =>
    obtain ⟨⟨_, first, separators⟩, others⟩ := List.forall_mem_cons.1 read
    rw [declsOf] at mem
    split at mem
    · exact ih others mem
    · rcases List.mem_cons.1 mem with rfl | mem
      · obtain ⟨closed, semicolon⟩ := Item.balances first separators
        have plain : ∀ t ∈ item.before, t.isPlain = true := fun t mem =>
          Token.isPlain_of_isSeparator (separators t mem)
        have core : Balances [] (item.keyword :: item.body) :=
          (balances_append_iff (balances_of_plain plain)).1 closed
        have leading : Balances [] item.leading :=
          balances_of_plain fun t mem => plain t (item.leading_suffix.subset mem)
        have behind : ∀ t ∈ item.closing, t.isPlain = true := fun t mem => by
          simp [Token.isPlain, (semicolon t mem).2]
        have comments : ∀ t ∈ Item.leadingComments trailing, t.isPlain = true := fun t mem =>
          Token.isPlain_of_isSeparator (by
            simp [Token.isSeparator, List.all_eq_true.1 List.all_takeWhile t mem])
        have later : Balances [] (items.flatMap Item.tokens) := balances_flatMap fun item mem => by
          obtain ⟨_, read, separators⟩ := others item mem
          exact Item.balances_tokens read separators
        rw [Decl.tokens, ← List.cons_append]
        refine balances_append leading (balances_append core ?_)
        split
        · exact balances_append (balances_append (balances_of_plain behind) later)
            (balances_of_plain comments)
        · rfl
      · exact ih others mem

/-- The scan for the end of a declaration stops at the first position with a reason to, for that
reason, and the tokens of every declaration of an accepted source nest. -/
theorem declExtent_follows_rule {name src : Text} {toks : List Token}
    (lexed : Token.tokenize src = .ok toks) :
    (∀ start result, declExtent (toks.drop start) = result ↔
      FirstVerdict src (toks.drop start) result) ∧
    ∀ file, parse name src = .ok file → ∀ d ∈ file.decls, Opens d.tokens [] := by
  refine ⟨declExtent_eq_iff lexed, fun file parsed d mem => opens_of_balances ?_⟩
  obtain ⟨clause, word, after, items, trailing, -, -, -, itemsOf, -, declared, -⟩ :=
    exists_clause (parse_eq_ok_iff.1 parsed)
  rw [declared] at mem
  exact balances_of_mem_declsOf (fun item mem => itemsOf.read mem) mem

/-- A declaration that goes on behind a comma in parentheses and behind an operator, and ends at
the line break inside a comment. -/
def endingSource : Text :=
  "package p\n\nvar x = f(1,\n\t2) +\n\ty /* z\n*/ type T struct \x7b a []int \x7d\n".toList

/-- The scan stops at the line break in the comment, and at once from the parenthesis on. -/
theorem declExtent_follows_rule_sample : ∃ toks file, Token.tokenize endingSource = .ok toks ∧
    parse "p.go".toList endingSource = .ok file ∧
    FirstVerdict endingSource (toks.drop 2) (.ok ⟨11, false⟩) ∧
    FirstVerdict endingSource (toks.drop 10) (.error ⟨.unbalancedDelimiter [')'], 26⟩) ∧
    file.decls.length = 2 ∧ ∀ d ∈ file.decls, Opens d.tokens [] := by
  have check : (Token.tokenize endingSource).toOption.any (fun toks =>
      decide (declExtent (toks.drop 2) = .ok ⟨11, false⟩) &&
        decide (declExtent (toks.drop 10) = .error ⟨.unbalancedDelimiter [')'], 26⟩)) = true := by
    unfold endingSource
    rw [String.toList_ofList]
    decide +kernel
  have accepted : (parse "p.go".toList endingSource).toOption.any (fun file =>
      decide (file.decls.length = 2)) = true := by
    unfold endingSource
    rw [String.toList_ofList]
    decide +kernel
  obtain ⟨toks, lexed, extents⟩ := exists_of_toOption_any check
  obtain ⟨file, parsed, two⟩ := exists_of_toOption_any accepted
  simp only [Bool.and_eq_true, decide_eq_true_eq] at extents two
  obtain ⟨follows, nested⟩ := @declExtent_follows_rule "p.go".toList endingSource toks lexed
  exact ⟨toks, file, lexed, parsed, (follows 2 _).1 extents.1, (follows 10 _).1 extents.2, two,
    nested file parsed⟩

end SourceFile

end GoSplit
