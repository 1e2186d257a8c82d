import GoSplit.Proofs.Draft.RoundTrip
import GoSplit.Proofs.Selector.Files
import GoSplit.Proofs.Selector.Moved

/-!
The code of a declaration that is printed and read again. It is the same code in another place,
behind other white space, so it has the same form and refers to the same packages.
-/

namespace GoSplit

open Token (Chained Covers dropGap place withoutComments)

namespace Token

/-! ### Places -/

theorem place_move (offset k : Nat) (ts : List Token) :
    place (offset + k) ts = (place offset ts).map (Token.move k) := by
  induction ts generalizing offset with
  | nil => rfl
  | cons t ts ih =>
    have start : offset + k + t.gap.byteLength = offset + t.gap.byteLength + k := by omega
    have next : offset + t.gap.byteLength + k + t.text.byteLength =
        offset + t.gap.byteLength + t.text.byteLength + k := by omega
    rw [place, place, List.map_cons, start, next, ih]
    rfl

theorem place_append (offset : Nat) (ts us : List Token) :
    place offset (ts ++ us) = place offset ts ++ place (offset + (written ts).byteLength) us := by
  induction ts generalizing offset with
  | nil => rfl
  | cons t ts ih =>
    have next : offset + (written (t :: ts)).byteLength =
        offset + t.gap.byteLength + t.text.byteLength + (written ts).byteLength := by
      simp only [written_cons, Text.byteLength_append]
      omega
    rw [List.cons_append, place, place, ih, next]
    rfl

theorem length_place (offset : Nat) (ts : List Token) : (place offset ts).length = ts.length := by
  induction ts generalizing offset with
  | nil => rfl
  | cons t ts ih => rw [place, List.length_cons, List.length_cons, ih]

/-- The tokens stand where a text has them. -/
def InPlace (ts : List Token) : Prop := ∃ offset, place offset ts = ts

theorem InPlace.append {ts us : List Token} (h : InPlace (ts ++ us)) : InPlace ts ∧ InPlace us := by
  obtain ⟨offset, placed⟩ := h
  rw [place_append] at placed
  obtain ⟨left, right⟩ := List.append_inj placed (length_place offset ts)
  exact ⟨⟨_, left⟩, ⟨_, right⟩⟩

theorem InPlace.dropGap {ts : List Token} (h : InPlace ts) : InPlace (dropGap ts) := by
  obtain ⟨offset, placed⟩ := h
  cases ts with
  | nil => exact ⟨offset, rfl⟩
  | cons t ts =>
    refine ⟨offset + t.gap.byteLength, ?_⟩
    rw [place] at placed
    obtain ⟨first, rest⟩ := List.cons.inj placed
    have start : t.start = offset + t.gap.byteLength := (congrArg Token.start first).symm
    have empty : Text.byteLength [] = 0 := rfl
    rw [Token.dropGap, place, empty, Nat.add_zero, start, rest]

theorem InPlace.trimLast {ts : List Token} {last : Token} (h : InPlace (ts ++ [last]))
    (text : Text) :
    InPlace (ts ++ [{ last with text := text }]) := by
  obtain ⟨offset, placed⟩ := h
  rw [place_append] at placed
  obtain ⟨left, right⟩ := List.append_inj placed (length_place offset ts)
  refine ⟨offset, ?_⟩
  rw [place_append, left]
  obtain ⟨first, -⟩ := List.cons.inj right
  have start : last.start = offset + (written ts).byteLength + last.gap.byteLength :=
    (congrArg Token.start first).symm
  rw [start]
  rfl

/-- Tokens in place are those of the text alone, further on. -/
theorem InPlace.exists_move {ts : List Token} (h : InPlace ts) :
    ∃ k, ts = (place 0 ts).map (Token.move k) := by
  obtain ⟨offset, placed⟩ := h
  refine ⟨offset, ?_⟩
  rw [← place_move, Nat.zero_add, placed]

/-! ### The code in other places -/

theorem withoutComments_move (k : Nat) (before : Text) (ts : List Token) :
    withoutComments.go before (ts.map (Token.move k)) =
      (withoutComments.go before ts).map (Token.move k) := by
  induction ts generalizing before with
  | nil => rfl
  | cons t ts ih =>
    have comment : (t.move k).isComment = t.isComment := rfl
    rw [List.map_cons, withoutComments.go, withoutComments.go, comment, ih, ih]
    split <;> rfl

/-- White space and comments in front of the code do not matter for it. -/
theorem dropGap_go (before before' : Text) (ts : List Token) :
    Token.dropGap (withoutComments.go before ts) =
      Token.dropGap (withoutComments.go before' ts) := by
  induction ts generalizing before before' with
  | nil => rfl
  | cons t ts ih =>
    rw [withoutComments.go, withoutComments.go]
    split
    · exact ih _ _
    · rfl

theorem dropGap_withoutComments (ts : List Token) :
    Token.dropGap (withoutComments (Token.dropGap ts)) = Token.dropGap (withoutComments ts) := by
  cases ts with
  | nil => rfl
  | cons t ts =>
    have comment : ({ t with gap := [] } : Token).isComment = t.isComment := rfl
    rw [Token.dropGap, withoutComments, withoutComments, withoutComments.go,
      withoutComments.go, comment]
    split
    · exact dropGap_go _ _ ts
    · rfl

/-- The tokens without the semicolons around them. -/
def stripped (ts : List Token) : List Token :=
  (ts.dropWhile fun t => t.kind == .semicolon).rdropWhile fun t => t.kind == .semicolon

theorem stripped_move (k : Nat) (ts : List Token) :
    stripped (ts.map (Token.move k)) = (stripped ts).map (Token.move k) := by
  simp only [stripped, List.rdropWhile, List.dropWhile_map, ← List.map_reverse]
  rfl

theorem stripped_cons {t : Token} (code : t.kind ≠ .semicolon) (ts : List Token) :
    stripped (t :: ts) = t :: ts.rdropWhile fun t => t.kind == .semicolon := by
  have kept : (t.kind == .semicolon) = false := beq_eq_false_iff_ne.2 code
  rw [stripped, List.dropWhile_cons_of_neg (by simp [kept]), List.rdropWhile, List.rdropWhile,
    List.reverse_cons, List.dropWhile_append]
  split
  · next none => simp [List.isEmpty_iff.1 none, kept]
  · simp

theorem dropGap_stripped {ts us : List Token} (h : Token.dropGap ts = Token.dropGap us) :
    Token.dropGap (stripped ts) = Token.dropGap (stripped us) := by
  match ts, us with
  | [], [] => rfl
  | t :: ts, u :: us =>
    obtain ⟨first, rfl⟩ := List.cons.inj h
    have kind : t.kind = u.kind := (Token.mk.inj first).1
    by_cases code : t.kind = .semicolon
    · have code' : u.kind = .semicolon := kind ▸ code
      rw [stripped, stripped, List.dropWhile_cons_of_pos (by simp [code]),
        List.dropWhile_cons_of_pos (by simp [code'])]
    · rw [stripped_cons code, stripped_cons (kind ▸ code), Token.dropGap, Token.dropGap, first]

/-! ### Printed and read again -/

/-- The text of tokens, trimmed at its end, holds the code of these tokens. -/
theorem Chained.exists_trimmed {ts : List Token} {after : Text} (h : Chained ts after)
    (placed : InPlace ts) (code : ∀ t ∈ ts.getLast?, t.kind ≠ .op) :
    ∃ us, InPlace us ∧ Covers us (Text.trimEnd (spell ts)) ∧
      Token.dropGap (withoutComments us) = Token.dropGap (withoutComments ts) := by
  rcases List.eq_nil_or_concat ts with rfl | ⟨init, last, rfl⟩
  · exact ⟨[], placed, covers_nil blank_nil, rfl⟩
  · rw [List.concat_eq_append] at h placed code ⊢
    have op : last.kind ≠ .op := code last (by simp)
    have trimmed := h.trimLast op
    have reads := (chained_append.1 h).2.2.1
    refine ⟨Token.dropGap (init ++ [{ last with text := Text.trimEnd last.text }]),
      (placed.trimLast _).dropGap, ⟨[], ?_, trimmed.dropGap, blank_nil⟩, ?_⟩
    · rw [List.append_nil, written_dropGap, spell_trimLast (reads.trimEnd op).1]
    · rw [dropGap_withoutComments, withoutComments, withoutComments, go_append, go_append]
      congr 2
      by_cases comment : last.isComment = true
      · have comment' : ({ last with text := Text.trimEnd last.text } : Token).isComment =
            true := comment
        simp [withoutComments.go, comment, comment']
      · rw [(alike_trimEnd reads op).2 (by simpa using comment)]

end Token

namespace Decl

theorem Printable.isComplete {ds : List Decl} (h : Printable ds) :
    ∀ d ∈ ds, d.isComplete = true := by
  induction h with
  | nil => simp
  | last final =>
    obtain ⟨core, closing, tail, rereads⟩ := final
    simpa using rereads.complete
  | cons settled _ ih => exact List.forall_mem_cons.2 ⟨settled.complete, ih⟩

/-- The text of a complete declaration, trimmed at its end, holds its code. -/
theorem exists_code {d : Decl} {after : Text} (chained : Chained d.tokens after)
    (placed : Token.InPlace d.tokens) (complete : d.isComplete = true) :
    ∃ us k, Token.tokenize (Text.trimEnd d.text) = .ok us ∧
      dropGap d.code = (dropGap (Token.stripped (withoutComments us))).map (Token.move k) := by
  obtain ⟨us, placed', covers, same⟩ :=
    chained.exists_trimmed placed (Draft.kind_ne_op_of_isComplete complete)
  obtain ⟨k, moved⟩ := placed'.exists_move
  refine ⟨place 0 us, k, covers.tokenize, ?_⟩
  have stripped := Token.dropGap_stripped same
  rw [moved, withoutComments, Token.withoutComments_move, Token.stripped_move] at stripped
  have head : ∀ vs : List Token,
      dropGap (vs.map (Token.move k)) = (dropGap vs).map (Token.move k) := by
    intro vs
    cases vs <;> rfl
  rw [head] at stripped
  exact stripped.symm

end Decl

namespace Selector

theorem packageSelectors_dropGap (ts : List Token) :
    packageSelectors (dropGap ts) = packageSelectors ts := by
  cases ts with
  | nil => rfl
  | cons t ts => exact packageSelectors_gap [] t ts

theorem hasForm_dropGap (ts : List Token) : hasForm (dropGap ts) = hasForm ts := by
  cases ts <;> rfl

theorem bindsInBlocks_dropGap (d : Depth) (ts : List Token) :
    bindsInBlocks d (dropGap ts) = bindsInBlocks d ts := by
  cases ts <;> rfl

theorem hasForm_move (k : Nat) (ts : List Token) :
    hasForm (ts.map (Token.move k)) = hasForm ts := by
  have moves := Token.transfers_move k
  cases ts with
  | nil => rfl
  | cons t ts =>
    simp only [List.map_cons, hasForm, moves.isWord, isFunction_move moves, isSpecs_move moves]

end Selector

namespace Draft

/-- A declaration read again has the form of the one that was printed, and refers to the same
packages. -/
theorem Repeats.code {d' d : Decl} (h : Repeats d' d) {after after' : Text}
    (chained : Chained d.tokens after) (placed : Token.InPlace d.tokens)
    (complete : d.isComplete = true) (chained' : Chained d'.tokens after')
    (placed' : Token.InPlace d'.tokens) (complete' : d'.isComplete = true) :
    Selector.hasForm d'.code = Selector.hasForm d.code ∧
      Selector.bindsInBlocks ⟨0, 0⟩ d'.code = Selector.bindsInBlocks ⟨0, 0⟩ d.code ∧
      packageSelectors d'.code = packageSelectors d.code := by
  obtain ⟨us, k, tokens, code⟩ := Decl.exists_code chained placed complete
  obtain ⟨us', k', tokens', code'⟩ := Decl.exists_code chained' placed' complete'
  rw [h.text, Text.trimEnd_trimEnd, tokens] at tokens'
  cases tokens'
  refine ⟨?_, ?_, ?_⟩
  · rw [← Selector.hasForm_dropGap, ← Selector.hasForm_dropGap d.code, code, code',
      Selector.hasForm_move, Selector.hasForm_move]
  · rw [← Selector.bindsInBlocks_dropGap, ← Selector.bindsInBlocks_dropGap _ d.code, code, code',
      Selector.bindsInBlocks_move (Token.transfers_move k),
      Selector.bindsInBlocks_move (Token.transfers_move k')]
  · rw [← Selector.packageSelectors_dropGap, ← Selector.packageSelectors_dropGap d.code,
      code, code', packageSelectors_move (Token.transfers_move k),
      packageSelectors_move (Token.transfers_move k')]

end Draft

namespace SourceFile

theorem decl_inPlace {src : Text} {file : SourceFile} (parsed : ofSource src = .ok file) {d : Decl}
    (mem : d ∈ file.decls) : Token.InPlace d.tokens ∧ ∃ after, Chained d.tokens after := by
  obtain ⟨tail, -, chained, -, placed⟩ := Token.tokenize_eq_ok_iff.1 (tokens_of_parsed parsed)
  have inside := decl_within parsed mem
  refine ⟨?_, chained.within inside⟩
  obtain ⟨front, back, eq⟩ := inside
  have whole : Token.InPlace file.tokens := ⟨0, placed⟩
  rw [← eq] at whole
  exact whole.append.1.append.2

end SourceFile

end GoSplit
