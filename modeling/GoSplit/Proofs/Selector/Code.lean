import GoSplit.Proofs.Selector.Declared
import GoSplit.Proofs.SourceFile.Parsed
import Mathlib.Data.List.DropRight

/-!
The code of the declarations of a parsed file, which is what is left of their tokens without
comments and without the semicolons around them. The tokens of a file behind its imports are
the code of its declarations, with semicolons between them.
-/

namespace GoSplit

open SourceFile (Item ItemsOf)

namespace Token

/-! ### Leaving the comments out -/

/-- The text of the comments behind the last token that is none. -/
def held (before : Text) : List Token → Text
  | [] => before
  | t :: ts => if t.isComment then held (before ++ t.gap ++ t.text) ts else held [] ts

theorem go_append (before : Text) (ts us : List Token) :
    withoutComments.go before (ts ++ us) =
      withoutComments.go before ts ++ withoutComments.go (held before ts) us := by
  induction ts generalizing before with
  | nil => rfl
  | cons t ts ih =>
    rw [List.cons_append, withoutComments.go, withoutComments.go, held]
    split
    · exact ih _
    · rw [ih, List.cons_append]

theorem go_comments {cs : List Token} (comments : ∀ c ∈ cs, c.isComment = true) (before : Text) :
    withoutComments.go before cs = [] := by
  induction cs generalizing before with
  | nil => rfl
  | cons c cs ih =>
    rw [withoutComments.go, comments c (by simp), if_pos rfl]
    exact ih (fun c mem => comments c (by simp [mem])) _

theorem go_starts (before : Text) (ts : List Token) :
    (withoutComments.go before ts).map start = (ts.filter fun t => !t.isComment).map start := by
  induction ts generalizing before with
  | nil => rfl
  | cons t ts ih =>
    rw [withoutComments.go, List.filter_cons]
    cases t.isComment <;> simp [ih]

theorem balances_go (stack : List Bracket) (before : Text) (ts : List Token) :
    Balances stack (withoutComments.go before ts) ↔ Balances stack ts := by
  induction ts generalizing stack before with
  | nil => rfl
  | cons t ts ih =>
    rw [withoutComments.go]
    split
    · next comment =>
      have plain : t.isPlain = true := by
        rcases isComment_iff.1 comment with kind | kind <;> simp [isPlain, kind]
      rw [ih, balances_plain plain]
    · change Balances stack (t :: withoutComments.go [] ts) ↔ Balances stack (t :: ts)
      cases kind : t.kind with
      | opening b => rw [balances_opening kind, balances_opening kind, ih]
      | closing b => simp only [balances_closing kind, ih]
      | _ =>
        have plain : t.isPlain = true := by simp [isPlain, kind]
        rw [balances_plain plain, balances_plain plain, ih]

theorem onNewLine_go {before : Text} {ts : List Token}
    (h : before.hasNewline = true ∨ breaksBeforeNext ts = true) :
    ∀ t ∈ (withoutComments.go before ts).head?, t.onNewLine = true := by
  have joined : ∀ {s t : Text}, (s ++ t).hasNewline = true ↔ s.hasNewline = true ∨
      t.hasNewline = true := by
    simp [Text.hasNewline]
  induction ts generalizing before with
  | nil => simp [withoutComments.go]
  | cons t ts ih =>
    rw [withoutComments.go]
    simp only [breaksBeforeNext, Bool.or_eq_true, Bool.and_eq_true] at h
    split
    · apply ih
      rw [joined, joined]
      rcases h with h | h | ⟨-, h | h⟩
      · exact .inl (.inl (.inl h))
      · exact .inl (.inl (.inr h))
      · exact .inl (.inr h)
      · exact .inr h
    · next code =>
      intro u mem
      obtain rfl := Option.some.inj mem
      rw [onNewLine, joined]
      rcases h with h | h | ⟨comment, -⟩
      · exact .inl h
      · exact .inr h
      · exact absurd comment code

end Token

/-! ### Where declarations end -/

/-- A declaration closes what it opens. -/
theorem balances_of_extentFrom {stack ts : List Token} {brackets : List Bracket} {n : Nat}
    {terminated : Bool} (same : List.Forall₂ (fun t b => t.kind = .opening b) stack brackets)
    (h : extentFrom stack ts = .ok ⟨n, terminated⟩) : Balances brackets (ts.take n) := by
  induction ts generalizing stack brackets n with
  | nil =>
    rw [List.take_nil]
    unfold extentFrom at h
    cases last : stack.getLast? with
    | some outermost => simp [last] at h
    | none =>
      rw [List.getLast?_eq_none_iff.1 last] at same
      exact List.forall₂_nil_left_iff.1 same
  | cons t ts ih =>
    rw [extentFrom] at h
    split at h
    · next comment =>
      obtain ⟨m, rfl, rest⟩ := map_succ_eq_ok h
      rw [List.take_succ_cons, balances_plain]
      · exact ih same rest
      · rcases Token.isComment_iff.1 comment with kind | kind <;> simp [Token.isPlain, kind]
    · split at h
      · next stop =>
        simp only [Except.ok.injEq, Extent.mk.injEq] at h
        rw [← h.1, List.take_zero]
        simp only [Bool.and_eq_true, List.isEmpty_iff] at stop
        rw [stop.2] at same
        exact List.forall₂_nil_left_iff.1 same
      · split at h
        · simp at h
        · next inside nested =>
          -- What the token does to the stack it does to the brackets.
          obtain ⟨brackets', inner, passes⟩ : ∃ brackets',
              List.Forall₂ (fun t b => t.kind = .opening b) inside brackets' ∧
                ∀ us, Balances brackets' us → Balances brackets (t :: us) := by
            unfold nest at nested
            split at nested
            · next b kind =>
              obtain rfl := Except.ok.inj nested
              exact ⟨b :: brackets, .cons kind same, fun us => (balances_opening kind).2⟩
            · next b kind =>
              cases same with
              | nil => simp at nested
              | @cons opener c outer cs first others =>
                simp only at nested
                split at nested
                · next matching =>
                  obtain rfl := Except.ok.inj nested
                  have brackets : c = b := by
                    rw [first] at matching
                    exact Token.Kind.opening.inj matching
                  refine ⟨cs, others, fun us rest => (balances_closing kind).2 ⟨cs, ?_, rest⟩⟩
                  rw [brackets]
                · simp at nested
            · next opens closes =>
              obtain rfl := Except.ok.inj nested
              refine ⟨brackets, same, fun us => (balances_plain ?_).2⟩
              cases kind : t.kind <;> simp_all [Token.isPlain]
          split at h
          · next ends =>
            simp only [Except.ok.injEq, Extent.mk.injEq] at h
            rw [← h.1, List.take_succ_cons, List.take_zero]
            apply passes
            simp only [Bool.and_eq_true, List.isEmpty_iff] at ends
            rw [ends.1.1] at inner
            exact List.forall₂_nil_left_iff.1 inner
          · obtain ⟨m, rfl, rest⟩ := map_succ_eq_ok h
            rw [List.take_succ_cons]
            exact passes _ (ih inner rest)

/-- Where no semicolon ends a declaration, the file does or a line break behind a token that
ends a statement. -/
theorem drop_of_unterminated {stack ts : List Token} {n : Nat}
    (h : extentFrom stack ts = .ok ⟨n, false⟩) :
    ts.drop n = [] ∨ ∃ init last, ts.take n = init ++ [last] ∧ last.isComment = false ∧
      last.endsStatement = true ∧ breaksBeforeNext (ts.drop n) = true := by
  induction ts generalizing stack n with
  | nil => exact .inl (by simp)
  | cons t ts ih =>
    have later : ∀ {stack : List Token} {m : Nat}, extentFrom stack ts = .ok ⟨m, false⟩ →
        (t :: ts).drop (m + 1) = [] ∨ ∃ init last, (t :: ts).take (m + 1) = init ++ [last] ∧
          last.isComment = false ∧ last.endsStatement = true ∧
          breaksBeforeNext ((t :: ts).drop (m + 1)) = true := by
      intro stack m rest
      rcases ih rest with none | ⟨init, last, eq, code, ends, breaks⟩
      · exact .inl none
      · exact .inr ⟨t :: init, last, by rw [List.take_succ_cons, eq]; rfl, code, ends, breaks⟩
    rw [extentFrom] at h
    split at h
    · obtain ⟨m, rfl, rest⟩ := map_succ_eq_ok h
      exact later rest
    · next code =>
      split at h
      · simp at h
      · split at h
        · simp at h
        · split at h
          · next ends =>
            simp only [Except.ok.injEq, Extent.mk.injEq, and_true] at h
            subst h
            simp only [Bool.and_eq_true] at ends
            exact .inr ⟨[], t, rfl, by simpa using code, ends.1.2, ends.2⟩
          · obtain ⟨m, rfl, rest⟩ := map_succ_eq_ok h
            exact later rest

/-- The tokens of a declaration without comments, and without the semicolons that separate it
from the others. -/
def Decl.code (d : Decl) : List Token :=
  ((Token.withoutComments d.tokens).dropWhile fun t => t.kind == .semicolon).rdropWhile
    fun t => t.kind == .semicolon

namespace Selector

theorem go_separators {ts : List Token} (separators : ∀ t ∈ ts, t.isSeparator = true)
    (before : Text) : ∀ t ∈ Token.withoutComments.go before ts, t.kind = .semicolon := by
  induction ts generalizing before with
  | nil => simp [Token.withoutComments.go]
  | cons t ts ih =>
    have rest := ih fun t mem => separators t (List.mem_cons_of_mem _ mem)
    rw [Token.withoutComments.go]
    split
    · exact rest _
    · next code =>
      have first := separators t (List.mem_cons_self ..)
      simp only [Token.isSeparator, code, Bool.false_or, beq_iff_eq] at first
      exact List.forall_mem_cons.2 ⟨first, rest _⟩

theorem declared_semicolons {ts us : List Token} {codes : List (List Token)}
    (semicolons : ∀ t ∈ ts, t.kind = .semicolon) (h : Declared us codes) :
    Declared (ts ++ us) codes := by
  induction ts with
  | nil => exact h
  | cons t ts ih =>
    exact .semicolon (semicolons t (List.mem_cons_self ..))
      (ih fun t mem => semicolons t (List.mem_cons_of_mem _ mem))

/-- Comments and semicolons in front of declarations. -/
theorem declared_separators {ts us : List Token} {codes : List (List Token)}
    (separators : ∀ t ∈ ts, t.isSeparator = true)
    (h : ∀ before, Declared (Token.withoutComments.go before us) codes) (before : Text) :
    Declared (Token.withoutComments.go before (ts ++ us)) codes := by
  rw [Token.go_append]
  exact declared_semicolons (go_separators separators before) (h _)

theorem declared_nil {ts : List Token} (separators : ∀ t ∈ ts, t.isSeparator = true)
    (before : Text) : Declared (Token.withoutComments.go before ts) [] := by
  have none := @declared_separators ts [] [] separators (fun _ => .nil) before
  rwa [List.append_nil] at none

/-- A declaration starts with a word, if no semicolon comes first. -/
theorem Declared.head {ts : List Token} {codes : List (List Token)} (h : Declared ts codes) :
    ∀ t ∈ ts.head?, t.kind = .semicolon ∨ t.kind = .ident := by
  intro t mem
  cases h with
  | nil => simp at mem
  | semicolon kind _ =>
    obtain rfl := Option.some.inj mem
    exact .inl kind
  | code gap kind _ _ _ _ _ =>
    obtain rfl := Option.some.inj mem
    exact .inr kind

end Selector

namespace SourceFile

open Selector (Declared Follows)

/-- The tokens of an item up to the end of its declaration. -/
structure Core (keyword : Token) (core after : List Token) : Prop where
  balanced : Balances [] core
  ends : ∀ last ∈ (keyword :: Token.withoutComments core).getLast?,
    ∀ t ∈ (Token.withoutComments.go (Token.held [] core) after).head?,
      t.kind = .semicolon ∨ t.onNewLine = true ∧ last.endsStatement = true
  last : ∀ last ∈ (Token.withoutComments core).getLast?, last.kind ≠ .semicolon

theorem core_of_extent {keyword : Token} {core after : List Token} {terminated : Bool}
    (extent : extentFrom [] (core ++ after) = .ok ⟨core.length, terminated⟩) :
    Core keyword core after := by
  have balanced : Balances [] core := by
    have closed := balances_of_extentFrom .nil extent
    rwa [List.take_left] at closed
  refine ⟨balanced, ?_, ?_⟩
  · cases terminated with
    | true =>
      -- The semicolon comes next.
      obtain ⟨semicolon, post, kind, cut⟩ := drop_of_terminated extent
      rw [List.drop_left] at cut
      subst cut
      intro last _ t mem
      rw [Token.withoutComments.go, if_neg (by simp [Token.isComment, kind])] at mem
      obtain rfl := Option.some.inj mem
      exact .inl kind
    | false =>
      rcases drop_of_unterminated extent with none | ⟨init, z, cut, code, ends, breaks⟩
      · rw [List.drop_left] at none
        subst none
        simp [Token.withoutComments.go]
      · rw [List.take_left] at cut
        rw [List.drop_left] at breaks
        subst cut
        intro last memLast t mem
        refine .inr ⟨Token.onNewLine_go (.inr breaks) t mem, ?_⟩
        have split : Token.withoutComments (init ++ [z]) =
            Token.withoutComments init ++ [{ z with gap := Token.held [] init ++ z.gap }] := by
          rw [Token.withoutComments, Token.go_append, Token.withoutComments.go, code,
            if_neg (by simp)]
          rfl
        rw [split, ← List.cons_append, List.getLast?_concat] at memLast
        obtain rfl := Option.some.inj memLast
        exact ends
  · by_cases some : ∃ t ∈ core, t.isComment = false
    · obtain ⟨init, z, cs, rfl, code, comments⟩ := exists_last_code some
      have size : (init ++ z :: cs).length = init.length + 1 + cs.length := by
        simp only [List.length_append, List.length_cons]
        omega
      rw [List.append_assoc, List.cons_append, size] at extent
      have solid := (extentFrom_last code comments extent).1
      have split : Token.withoutComments (init ++ z :: cs) =
          Token.withoutComments init ++ [{ z with gap := Token.held [] init ++ z.gap }] := by
        rw [Token.withoutComments, Token.go_append, Token.withoutComments.go, code,
          if_neg (by simp), Token.go_comments comments]
        rfl
      rw [split, List.getLast?_concat]
      rintro last mem
      obtain rfl := Option.some.inj mem
      exact solid
    · have comments : ∀ c ∈ core, c.isComment = true := by simpa using some
      rw [Token.withoutComments, Token.go_comments comments]
      simp

section

variable {keyword : Token} {core after : List Token} {codes : List (List Token)}

/-- A declaration in front of others. -/
theorem Core.declared (h : Core keyword core after) (kind : keyword.kind = .ident)
    {gap : Text}
    (form : Selector.hasForm ({ keyword with gap := gap } :: Token.withoutComments core) = true)
    (binds : Selector.bindsInBlocks ⟨0, 0⟩
      ({ keyword with gap := gap } :: Token.withoutComments core) = true)
    (others : ∀ before, Declared (Token.withoutComments.go before after) codes) (before : Text) :
    Declared (Token.withoutComments.go before (keyword :: (core ++ after)))
      (({ keyword with gap := gap } :: Token.withoutComments core) :: codes) := by
  rw [Token.withoutComments.go, if_neg (by simp [Token.isComment, kind]), Token.go_append]
  have balanced := (Token.balances_go [] [] core).2 h.balanced
  refine @Declared.code { keyword with gap := gap } _ _ _ (before ++ keyword.gap) kind balanced form
    binds (Selector.follows_gap gap ?_) (others _)
  intro last memLast t mem
  rcases h.ends last memLast t mem with semicolon | ⟨line, ends⟩
  · exact .inl semicolon
  · rcases (others _).head t mem with semicolon | ident
    · exact .inl semicolon
    · exact .inr ⟨ident, line, ends⟩

/-- A declaration with nothing but semicolons and comments behind it. -/
theorem Core.alone (h : Core keyword core after) {separators : List Token}
    (all : ∀ t ∈ separators, t.isSeparator = true) : Core keyword core separators := by
  refine ⟨h.balanced, fun last _ t mem => .inl ?_, h.last⟩
  exact Selector.go_separators all _ t (List.mem_of_mem_head? mem)

end

/-- What an item has up to the end of its declaration, and what comes along. -/
theorem exists_core {before rest : List Token} {keyword : Token} {item : Item}
    (h : Item.read before keyword rest = .ok item) :
    ∃ core tail, item.body = core ++ tail ∧ (∀ t ∈ tail, t.isSeparator = true) ∧
      rest = core ++ (tail ++ (item.closing ++ rest.drop item.size)) ∧
      Core keyword core (tail ++ (item.closing ++ rest.drop item.size)) := by
  obtain ⟨core, after, terminated, cut, extent, -, ends⟩ := Item.exists_of_read h
  have whole := Item.body_append_closing h
  obtain ⟨tail, body, separators⟩ : ∃ tail, item.body = core ++ tail ∧
      ∀ t ∈ tail, t.isSeparator = true := by
    have comment : ∀ {ts : List Token}, ∀ t ∈ sameLineComments ts, t.isSeparator = true := by
      intro ts t mem
      simp [Token.isSeparator, (sameLine_sameLineComments ts t mem).1]
    generalize item.body = full at ends
    generalize item.closing = closing at ends
    cases ends with
    | line _ => exact ⟨_, rfl, comment⟩
    | @commented semicolon more kind _ _ =>
      refine ⟨_, rfl, List.forall_mem_cons.2 ⟨by simp [Token.isSeparator, kind], comment⟩⟩
    | closed _ _ => exact ⟨[], by simp, by simp⟩
  have behind : after = tail ++ (item.closing ++ rest.drop item.size) := by
    rw [cut, body] at whole
    rw [cut]
    simp only [List.append_assoc, List.append_cancel_left_eq] at whole
    exact whole.symm
  refine ⟨core, tail, body, separators, by rw [← behind, ← cut], ?_⟩
  rw [← behind]
  exact core_of_extent extent

theorem rdropWhile_semicolons {ts us : List Token} (semicolons : ∀ t ∈ us, t.kind = .semicolon) :
    (ts ++ us).rdropWhile (fun t => t.kind == .semicolon) =
      ts.rdropWhile fun t => t.kind == .semicolon := by
  induction us using List.reverseRecOn with
  | nil => simp
  | append_singleton us u ih =>
    rw [← List.append_assoc, List.rdropWhile_concat_pos _ _ _ (by simp [semicolons u (by simp)])]
    exact ih fun t mem => semicolons t (List.mem_append_left _ mem)

/-- The code of a declaration is what its item has up to the end of the declaration. -/
theorem code_of_core {heading : Heading} {leading core tail : List Token} {keyword : Token}
    {after : List Token} (h : Core keyword core after) (kind : keyword.kind = .ident)
    (leads : ∀ t ∈ leading, t.isSeparator = true) (tails : ∀ t ∈ tail, t.isSeparator = true) :
    ∃ gap, Decl.code ⟨heading, leading, keyword, core ++ tail⟩ =
      { keyword with gap := gap } :: Token.withoutComments core := by
  refine ⟨Token.held [] leading ++ keyword.gap, ?_⟩
  have front := Selector.go_separators leads []
  have back := Selector.go_separators tails (Token.held [] core)
  have whole : Token.withoutComments (leading ++ keyword :: (core ++ tail)) =
      Token.withoutComments.go [] leading ++
        ({ keyword with gap := Token.held [] leading ++ keyword.gap } ::
          (Token.withoutComments core ++ Token.withoutComments.go (Token.held [] core) tail)) := by
    rw [Token.withoutComments, Token.go_append, Token.withoutComments.go,
      if_neg (by simp [Token.isComment, kind]), Token.go_append]
    rfl
  rw [Decl.code, Decl.tokens, whole, List.dropWhile_append_of_pos (by simpa using front),
    List.dropWhile_cons_of_neg (by simp [kind]), ← List.cons_append, rdropWhile_semicolons back,
    List.rdropWhile_eq_self_iff]
  intro some
  rcases List.eq_nil_or_concat (Token.withoutComments core) with none | ⟨init, z, eq⟩
  · simp [none, kind]
  · have solid := h.last z (by simp [eq])
    simpa [eq] using solid

/-- The tokens behind the imports are the code of the declarations with semicolons between
them, and so are the tokens of each declaration alone. -/
theorem declared_of_items {ts trailing : List Token} {items : List Item}
    (h : ItemsOf ts items trailing)
    (declares : ∀ item ∈ items, ∃ heading, item.content = .declares heading)
    (form : ∀ d ∈ declsOf trailing items, Selector.hasForm d.code = true)
    (binds : ∀ d ∈ declsOf trailing items, Selector.bindsInBlocks ⟨0, 0⟩ d.code = true) :
    (∀ before, Declared (Token.withoutComments.go before ts)
      ((declsOf trailing items).map Decl.code)) ∧
      ∀ d ∈ declsOf trailing items, Declared (Token.withoutComments d.tokens) [d.code] := by
  induction h with
  | none separators => exact ⟨Selector.declared_nil separators, by simp [declsOf]⟩
  | @cons before rest trailing keyword item items separators read others ih =>
    obtain ⟨heading, content⟩ := declares item (List.mem_cons_self ..)
    have declares' : ∀ item ∈ items, ∃ heading, item.content = .declares heading :=
      fun item mem => declares item (List.mem_cons_of_mem _ mem)
    obtain ⟨same, same'⟩ := Item.read_before_keyword read
    obtain ⟨core, tail, body, tails, cut, facts⟩ := exists_core read
    have kind := (Item.starts_cases (Item.read_eq_ok_iff.1 read).1).1
    have closing := Item.closing_separators read
    -- Only the last declaration reaches further, over comments at the end of the file.
    obtain ⟨stretch, stretches, decls⟩ : ∃ stretch, (∀ t ∈ stretch, t.isSeparator = true) ∧
        declsOf trailing (item :: items) =
          ⟨heading, item.leading, keyword, core ++ (tail ++ stretch)⟩ ::
            declsOf trailing items := by
      rw [declsOf]
      simp only [content, same', ← List.append_assoc, ← body]
      cases items with
      | nil =>
        split
        · refine ⟨_, fun t mem => ?_, rfl⟩
          rw [List.flatMap_nil, List.append_nil] at mem
          rcases List.mem_append.1 mem with mem | mem
          · exact closing t mem
          · have comment := List.all_eq_true.1 List.all_takeWhile t mem
            simp [Token.isSeparator, comment]
        · exact ⟨[], by simp, rfl⟩
      | cons next items =>
        obtain ⟨heading', content'⟩ := declares' next (List.mem_cons_self ..)
        have some : declsOf trailing (next :: items) ≠ [] :=
          declsOf_ne_nil trailing (List.mem_cons_self ..) content'
        rw [List.isEmpty_eq_false_iff.2 some]
        exact ⟨[], by simp, rfl⟩
    rw [decls] at form binds ⊢
    have behind : ∀ t ∈ tail ++ stretch, t.isSeparator = true := by
      intro t mem
      rcases List.mem_append.1 mem with mem | mem
      · exact tails t mem
      · exact stretches t mem
    have leads : ∀ t ∈ item.leading, t.isSeparator = true := by
      rw [← same] at separators
      exact fun t mem => separators t (item.leading_suffix.subset mem)
    obtain ⟨gap, code⟩ := @code_of_core heading item.leading core (tail ++ stretch) keyword _ facts
      kind leads behind
    have form' := form _ (List.mem_cons_self ..)
    have binds' := binds _ (List.mem_cons_self ..)
    rw [code] at form' binds'
    obtain ⟨later, alone⟩ := ih declares' (fun d mem => form d (List.mem_cons_of_mem _ mem))
      fun d mem => binds d (List.mem_cons_of_mem _ mem)
    refine ⟨?_, List.forall_mem_cons.2 ⟨?_, alone⟩⟩
    · rw [List.map_cons, code]
      apply Selector.declared_separators separators
      rw [cut]
      apply facts.declared kind form' binds'
      apply Selector.declared_separators tails
      exact Selector.declared_separators closing later
    · rw [code, Decl.tokens, Token.withoutComments]
      apply Selector.declared_separators leads
      exact (facts.alone behind).declared kind form' binds' (Selector.declared_nil behind)

end SourceFile

end GoSplit
