import GoSplit.Proofs.Edit

/-!
Tokens tile their text. A slice of a text exists only when its ends are in order, within the
text and between characters; the tokens and the gaps between them are such slices, one behind
the other, and together they are the text.
-/

namespace GoSplit

namespace Text

theorem splitAtByte_eq_some_iff {n : Nat} {t before after : Text} :
    splitAtByte n t = some (before, after) ↔ t = before ++ after ∧ before.byteLength = n := by
  constructor
  · intro split
    induction t generalizing n before with
    | nil =>
      simp only [splitAtByte] at split
      split at split
      · simp_all
      · cases split
    | cons c cs ih =>
      rw [splitAtByte] at split
      split_ifs at split with zero inside
      · simp_all
      · cases rest : splitAtByte (n - c.utf8Size) cs with
        | none => simp [rest] at split
        | some found =>
          obtain ⟨front, back⟩ := found
          simp only [rest, Option.some.injEq, Prod.mk.injEq] at split
          obtain ⟨rfl, rfl⟩ := split
          obtain ⟨rfl, size⟩ := ih rest
          refine ⟨rfl, ?_⟩
          rw [byteLength_cons, size]
          omega
  · rintro ⟨rfl, rfl⟩
    exact splitAtByte_append before after

/-- The text between two bytes; none unless they are in order, within the text and between
characters. -/
def slice? (src : Text) (span : Span) : Option Text :=
  if span.stop < span.start then none
  else
    match splitAtByte span.start src with
    | none => none
    | some (_, behind) => (splitAtByte span.size behind).map Prod.fst

theorem slice?_eq_some_iff {src inside : Text} {span : Span} :
    src.slice? span = some inside ↔ ∃ before after, src = before ++ (inside ++ after) ∧
      span = ⟨before.byteLength, before.byteLength + inside.byteLength⟩ := by
  obtain ⟨start, stop⟩ := span
  constructor
  · intro sliced
    rw [slice?] at sliced
    split_ifs at sliced with order
    cases first : splitAtByte start src with
    | none => simp [first] at sliced
    | some found =>
      obtain ⟨before, behind⟩ := found
      simp only [first, Option.map_eq_some_iff, Prod.exists] at sliced
      obtain ⟨_, after, second, rfl⟩ := sliced
      obtain ⟨rfl, rfl⟩ := splitAtByte_eq_some_iff.1 first
      obtain ⟨rfl, size⟩ := splitAtByte_eq_some_iff.1 second
      refine ⟨before, after, rfl, ?_⟩
      simp only [Span.size] at size order
      rw [Span.mk.injEq]
      omega
  · rintro ⟨before, after, rfl, span⟩
    rw [Span.mk.injEq] at span
    obtain ⟨rfl, rfl⟩ := span
    rw [slice?, if_neg (by simp), splitAtByte_append]
    simp [Span.size, splitAtByte_append]

/-- A slice has its ends within the text and between characters. -/
theorem bounds_of_slice? {src inside : Text} {span : Span} (h : src.slice? span = some inside) :
    span.stop ≤ src.byteLength ∧ src.isBoundary span.start = true ∧
      src.isBoundary span.stop = true := by
  obtain ⟨before, after, rfl, rfl⟩ := slice?_eq_some_iff.1 h
  refine ⟨?_, isBoundary_append before _, ?_⟩
  · simp only [byteLength_append]
    omega
  · rw [← byteLength_append, ← List.append_assoc]
    exact isBoundary_append (before ++ inside) after

/-- A character of two texts in a row lies in the first or in the second. -/
theorem append_eq_at {first second before after : Text} {c : Char}
    (h : first ++ second = before ++ c :: after) :
    (c ∈ first ∧ before.byteLength < first.byteLength) ∨
      ∃ more, before = first ++ more ∧ second = more ++ c :: after := by
  rcases List.append_eq_append_iff.1 h with ⟨more, rfl, rfl⟩ | ⟨more, rfl, eq⟩
  · exact .inr ⟨more, rfl, rfl⟩
  · rcases more with _ | ⟨d, more⟩
    · exact .inr ⟨[], by simp, by simpa using eq.symm⟩
    · obtain ⟨rfl, rfl⟩ := List.cons.inj eq
      have pos := c.utf8Size_pos
      refine .inl ⟨by simp, ?_⟩
      simp only [byteLength_append, byteLength_cons]
      omega

end Text

namespace Token

/-- The spans of tokens and of what stands between them, from byte `offset` to the end of a
text of `size` bytes. -/
def tiles (offset size : Nat) : List Token → List Span
  | [] => [⟨offset, size⟩]
  | t :: ts => ⟨offset, t.start⟩ :: t.span :: tiles t.stop size ts

variable {src tail : Text} {ts : List Token} {offset : Nat}

theorem place_cons_eq {t : Token} (placed : place offset (t :: ts) = t :: ts) :
    t.start = offset + t.gap.byteLength ∧ place t.stop ts = ts := by
  rw [place, List.cons.injEq] at placed
  obtain ⟨head, others⟩ := placed
  have start : t.start = offset + t.gap.byteLength := (congrArg Token.start head).symm
  rw [← start] at others
  exact ⟨start, others⟩

/-- Every token is the slice at its span. -/
theorem slice?_of_mem {before : Text} (whole : src = before ++ (written ts ++ tail))
    (start : before.byteLength = offset) (placed : place offset ts = ts) {t : Token}
    (mem : t ∈ ts) :
    src.slice? t.span = some t.text := by
  induction ts generalizing before offset with
  | nil => cases mem
  | cons u us ih =>
    obtain ⟨first, others⟩ := place_cons_eq placed
    rcases List.mem_cons.1 mem with rfl | later
    · apply Text.slice?_eq_some_iff.2
      refine ⟨before ++ t.gap, written us ++ tail, by simp [whole], ?_⟩
      simp only [span, stop, Span.mk.injEq, Text.byteLength_append]
      omega
    · have rest : src = (before ++ (u.gap ++ u.text)) ++ (written us ++ tail) := by simp [whole]
      apply ih rest _ others later
      simp only [stop, Text.byteLength_append]
      omega

/-- The tiles of a text are slices, and joined they are what they were cut from. -/
theorem mapM_tiles {before : Text} (whole : src = before ++ (written ts ++ tail))
    (start : before.byteLength = offset) (placed : place offset ts = ts) :
    ∃ pieces, (tiles offset src.byteLength ts).mapM src.slice? = some pieces ∧
      pieces.flatten = written ts ++ tail := by
  induction ts generalizing before offset with
  | nil =>
    have rest : src.slice? ⟨offset, src.byteLength⟩ = some tail := by
      apply Text.slice?_eq_some_iff.2
      exact ⟨before, [], by simp [whole], by simp [whole, start]⟩
    exact ⟨[tail], by simp [tiles, rest], by simp⟩
  | cons t ts ih =>
    obtain ⟨first, others⟩ := place_cons_eq placed
    have whole' : src = before ++ (t.gap ++ t.text) ++ (written ts ++ tail) := by simp [whole]
    obtain ⟨pieces, sliced, joined⟩ :=
      ih whole' (by simp only [stop, Text.byteLength_append]; omega) others
    have gap : src.slice? ⟨offset, t.start⟩ = some t.gap := by
      apply Text.slice?_eq_some_iff.2
      exact ⟨before, t.text ++ (written ts ++ tail), by simp [whole], by rw [start, first]⟩
    have text := slice?_of_mem whole start placed (List.mem_cons_self ..)
    refine ⟨t.gap :: t.text :: pieces, ?_, by simp [joined]⟩
    simp [tiles, List.mapM_cons, gap, text, sliced]

/-- What lies in no token is white space. -/
theorem isSpace_of_outside (chained : Chained ts tail) (blank : Blank tail)
    (placed : place offset ts = ts) {before after : Text} {c : Char}
    (split : written ts ++ tail = before ++ c :: after)
    (outside : ∀ t ∈ ts, offset + before.byteLength < t.start ∨
      t.stop ≤ offset + before.byteLength) :
    isSpace c = true := by
  induction ts generalizing offset before with
  | nil =>
    apply blank
    rw [written_nil, List.nil_append] at split
    simp [split]
  | cons t ts ih =>
    obtain ⟨first, others⟩ := place_cons_eq placed
    obtain ⟨gap, -, chained⟩ := chained
    rw [written_cons, List.append_assoc, List.append_assoc] at split
    rcases Text.append_eq_at split with ⟨mem, -⟩ | ⟨behindGap, rfl, split'⟩
    · exact gap c mem
    rcases Text.append_eq_at split' with ⟨-, inside⟩ | ⟨more, rfl, split''⟩
    · have missed := outside t (List.mem_cons_self ..)
      simp only [stop, Text.byteLength_append] at missed
      omega
    · apply ih chained others split''
      intro u mem
      have missed := outside u (List.mem_cons_of_mem t mem)
      simp only [Text.byteLength_append] at missed
      have far : t.stop = t.start + t.text.byteLength := rfl
      omega

/-- The lexer tiles its input: the spans of the tokens are not empty, lie behind each other,
and are slices of the text; what lies in none of them is white space; and the tokens with
the gaps between them are the whole text, each character once. -/
theorem tokenize_tiles (h : tokenize src = .ok ts) :
    (∀ t ∈ ts, t.start < t.stop ∧ t.stop ≤ src.byteLength ∧ src.isBoundary t.start = true ∧
      src.isBoundary t.stop = true ∧ src.slice? t.span = some t.text) ∧
    ts.Pairwise (fun t u => t.start < u.start ∧ t.stop ≤ u.start) ∧
    (∀ (before : Text) c after, src = before ++ c :: after →
      (∀ t ∈ ts, before.byteLength < t.start ∨ t.stop ≤ before.byteLength) →
      c = ' ' ∨ c = '\t' ∨ c = '\r' ∨ c = '\n' ∨ c = '\uFEFF') ∧
    ∃ pieces, (tiles 0 src.byteLength ts).mapM src.slice? = some pieces ∧ pieces.flatten = src := by
  obtain ⟨tail, whole, chained, blank, placed⟩ := tokenize_eq_ok_iff.1 h
  refine ⟨fun t mem => ?_, ?_, fun before c after split outside => ?_, ?_⟩
  · have sliced := @slice?_of_mem src tail ts 0 [] whole rfl placed t mem
    obtain ⟨within, left, right⟩ := Text.bounds_of_slice? sliced
    exact ⟨chained.start_lt_stop mem, within, left, right, sliced⟩
  · have behind := pairwise_place 0 ts
    rw [placed] at behind
    exact (pairwise_start chained placed).and behind
  · have space : isSpace c = true := by
      apply isSpace_of_outside chained blank placed (whole.symm.trans split)
      simpa using outside
    simp only [isSpace, Bool.or_eq_true, beq_iff_eq] at space
    tauto
  · obtain ⟨pieces, sliced, joined⟩ := @mapM_tiles src tail ts 0 [] whole rfl placed
    exact ⟨pieces, sliced, joined.trans whole.symm⟩

/-- An escape in front of a character of several bytes, a line comment that leaves its carriage
return outside, and a byte order mark between tokens. -/
def tiledSample : Text := "\"\\é\" // ü\r\n\uFEFFx".toList

def tiledTokens : List Token :=
  [⟨.string, [], "\"\\é\"".toList, 0⟩, ⟨.lineComment, [' '], "// ü".toList, 6⟩,
    ⟨.ident, "\r\n\uFEFF".toList, ['x'], 16⟩]

theorem tokenize_tiles_sample :
    tokenize tiledSample = .ok tiledTokens ∧
      ∃ pieces, (tiles 0 tiledSample.byteLength tiledTokens).mapM tiledSample.slice? = some pieces ∧
        pieces.flatten = tiledSample := by
  have read : tokenize tiledSample = .ok tiledTokens := by
    -- The kernel is slow at decoding a literal: a sample is unfolded to its characters first, here
    -- and wherever one is evaluated.
    unfold tiledSample
    rw [String.toList_ofList]
    decide +kernel
  exact ⟨read, (tokenize_tiles read).2.2.2⟩

end Token

end GoSplit
