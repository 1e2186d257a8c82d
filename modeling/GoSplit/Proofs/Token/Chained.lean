import GoSplit.Proofs.Token.Reads

/-!
Lists of tokens and the text they stand for. `Chained ts after` says that the tokens
are read one after the other when `after` follows the last one. The main statements are
`tokenize_eq_ok_iff`, by which tokenizing a text and being chained in front of its
white space are the same thing, and `Covers.appendLine`, by which the tokens of two texts
with a line break between them are those of the one and then those of the other.
-/

namespace GoSplit.Token

/-- The text of tokens with what stands between them. -/
def written (ts : List Token) : Text := ts.flatMap fun t => t.gap ++ t.text

@[simp] theorem written_nil : written [] = [] := rfl

@[simp] theorem written_cons (t : Token) (ts : List Token) :
    written (t :: ts) = t.gap ++ t.text ++ written ts := rfl

@[simp] theorem written_append (ts us : List Token) :
    written (ts ++ us) = written ts ++ written us := by
  simp [written]

/-- White space only. -/
def Blank (t : Text) : Prop := ∀ c ∈ t, isSpace c = true

theorem blank_append {s t : Text} : Blank (s ++ t) ↔ Blank s ∧ Blank t := by
  simp only [Blank, List.mem_append]
  constructor
  · intro h
    exact ⟨fun c mem => h c (.inl mem), fun c mem => h c (.inr mem)⟩
  · rintro ⟨hs, ht⟩ c (mem | mem)
    · exact hs c mem
    · exact ht c mem

theorem blank_nil : Blank [] := by simp [Blank]

theorem blank_newline : Blank ['\n'] := by simp [Blank, isSpace]

/-- Each token is read in front of those behind it and `after`. -/
def Chained : List Token → Text → Prop
  | [], _ => True
  | t :: ts, after => Blank t.gap ∧ Reads t.kind t.text (written ts ++ after) ∧ Chained ts after

theorem chained_append {ts us : List Token} {after : Text} :
    Chained (ts ++ us) after ↔ Chained ts (written us ++ after) ∧ Chained us after := by
  induction ts with
  | nil => simp [Chained]
  | cons t ts ih => simp [Chained, ih, and_assoc]

theorem Reads.text_ne_nil {kind : Kind} {text rest : Text} (h : Reads kind text rest) :
    text ≠ [] := by
  obtain ⟨c, body, rfl, -, -⟩ := h
  simp

theorem Chained.written_ne_nil {ts : List Token} {after : Text} (h : Chained ts after)
    (some_left : ts ≠ []) : written ts ≠ [] := by
  cases ts with
  | nil => exact absurd rfl some_left
  | cons t ts =>
    obtain ⟨-, reads, -⟩ := h
    simp [reads.text_ne_nil]

/-- A text that ends behind chained tokens leaves them as they are, unless the last one
is a line comment that would lose a carriage return. -/
theorem Chained.atEnd {ts : List Token} {after : Text} (h : Chained ts after)
    (kept : ∀ t ∈ ts.getLast?, t.kind = .lineComment → t.text.getLast? ≠ some '\r') :
    Chained ts [] := by
  induction ts with
  | nil => trivial
  | cons t ts ih =>
    obtain ⟨blank, reads, more⟩ := h
    rcases ts with _ | ⟨u, us⟩
    · exact ⟨blank, by simpa using reads.atEnd (kept t (by simp)), trivial⟩
    · refine ⟨blank, ?_, ih more (by simpa using kept)⟩
      rw [List.append_nil]
      exact reads.truncate (more.written_ne_nil (by simp))

/-- A line break behind what follows chained tokens leaves them as they are. -/
theorem Chained.insertNewline {ts : List Token} {after : Text} (h : Chained ts after)
    (more : Text) : Chained ts (after ++ '\n' :: more) := by
  induction ts with
  | nil => trivial
  | cons t ts ih =>
    obtain ⟨blank, reads, rest⟩ := h
    refine ⟨blank, ?_, ih rest⟩
    rw [← List.append_assoc]
    exact reads.appendNewline more

/-! ### Placing tokens -/

/-- The tokens where they stand when the text before them ends at byte `offset`. -/
def place (offset : Nat) : List Token → List Token
  | [] => []
  | t :: ts =>
    { t with start := offset + t.gap.byteLength }
      :: place (offset + t.gap.byteLength + t.text.byteLength) ts

theorem place_nil (offset : Nat) : place offset [] = [] := rfl

theorem place_cons (offset : Nat) (t : Token) (ts : List Token) :
    place offset (t :: ts) =
      { t with start := offset + t.gap.byteLength }
        :: place (offset + t.gap.byteLength + t.text.byteLength) ts := rfl

/-- The token further on in a text. -/
def move (distance : Nat) (t : Token) : Token := { t with start := t.start + distance }

theorem takeWhile_blank_append {gap : Text} (blank : Blank gap) {rest : Text}
    (solid : ∀ c ∈ rest.head?, isSpace c = false) : (gap ++ rest).takeWhile isSpace = gap := by
  rw [List.takeWhile_append_of_pos blank]
  cases rest <;> simp_all

theorem dropWhile_blank_append {gap : Text} (blank : Blank gap) {rest : Text}
    (solid : ∀ c ∈ rest.head?, isSpace c = false) : (gap ++ rest).dropWhile isSpace = rest := by
  rw [List.dropWhile_append_of_pos blank]
  cases rest <;> simp_all

theorem blank_takeWhile (src : Text) : Blank (src.takeWhile isSpace) := by
  intro c mem
  exact List.all_eq_true.1 List.all_takeWhile c mem

theorem solid_of_dropWhile {src : Text} {c : Char} {rest : Text}
    (h : src.dropWhile isSpace = c :: rest) : isSpace c = false := by
  have := List.head?_dropWhile_not isSpace src
  rw [h] at this
  simpa using this

/-! #### The stream, one token at a time -/

theorem streamFrom_eq (offset : Nat) (src : Text) :
    streamFrom offset src =
      match src.dropWhile isSpace with
      | [] => []
      | c :: rest =>
        match scan c rest with
        | .error cause => [.error ⟨cause, offset + Text.byteLength (src.takeWhile isSpace)⟩]
        | .ok (kind, n) =>
          .ok ⟨kind, src.takeWhile isSpace, c :: rest.take n,
              offset + Text.byteLength (src.takeWhile isSpace)⟩
            :: streamFrom (offset + Text.byteLength (src.takeWhile isSpace)
                + Text.byteLength (c :: rest.take n)) (rest.drop n) := by
  rw [streamFrom]
  split
  · next eq => rw [eq]
  · next eq =>
    rw [eq]
    rfl

theorem streamFrom_eq_nil {src : Text} (h : src.dropWhile isSpace = []) (offset : Nat) :
    streamFrom offset src = [] := by
  rw [streamFrom_eq, h]

theorem streamFrom_eq_cons {src rest : Text} {c : Char} {kind : Kind} {n : Nat}
    (h : src.dropWhile isSpace = c :: rest) (read : scan c rest = .ok (kind, n)) (offset : Nat) :
    streamFrom offset src =
      .ok ⟨kind, src.takeWhile isSpace, c :: rest.take n,
          offset + Text.byteLength (src.takeWhile isSpace)⟩
        :: streamFrom (offset + Text.byteLength (src.takeWhile isSpace)
            + Text.byteLength (c :: rest.take n)) (rest.drop n) := by
  rw [streamFrom_eq, h]
  simp only [read]

theorem streamFrom_eq_error {src rest : Text} {c : Char} {cause : LexError.Cause}
    (h : src.dropWhile isSpace = c :: rest) (read : scan c rest = .error cause) (offset : Nat) :
    streamFrom offset src =
      [.error ⟨cause, offset + Text.byteLength (src.takeWhile isSpace)⟩] := by
  rw [streamFrom_eq, h]
  simp only [read]

/-- Chained tokens come first, whatever stands behind them. -/
theorem streamFrom_append {ts : List Token} {rest : Text} (chained : Chained ts rest)
    (offset : Nat) :
    streamFrom offset (written ts ++ rest) =
      (place offset ts).map .ok ++ streamFrom (offset + (written ts).byteLength) rest := by
  induction ts generalizing offset with
  | nil => rfl
  | cons t ts ih =>
    obtain ⟨gap, ⟨c, body, text, solid, read⟩, more⟩ := chained
    have front : ∀ d ∈ (c :: (body ++ (written ts ++ rest))).head?, isSpace d = false := by
      simpa using solid
    have src : written (t :: ts) ++ rest = t.gap ++ c :: (body ++ (written ts ++ rest)) := by
      simp [text]
    have before := takeWhile_blank_append gap front
    have behind := dropWhile_blank_append gap front
    rw [src, streamFrom_eq_cons behind read, before, List.take_left, List.drop_left,
      ← text, ih more]
    simp [place_cons, Nat.add_assoc]

theorem streamFrom_written {ts : List Token} {tail : Text} (chained : Chained ts tail)
    (blank : Blank tail) (offset : Nat) :
    streamFrom offset (written ts ++ tail) = (place offset ts).map .ok := by
  have none_left : (tail ++ []).dropWhile isSpace = [] := dropWhile_blank_append blank (by simp)
  rw [List.append_nil] at none_left
  rw [streamFrom_append chained, streamFrom_eq_nil none_left, List.append_nil]

theorem collect_map_ok {α : Type} (as : List α) :
    collect (as.map (Except.ok : α → Except LexError α)) = .ok as := by
  induction as with
  | nil => rfl
  | cons a as ih => simp [collect, ih]

theorem chained_of_collect {src : Text} {offset : Nat} {ts : List Token}
    (h : collect (streamFrom offset src) = .ok ts) :
    ∃ tail, src = written ts ++ tail ∧ Chained ts tail ∧ Blank tail ∧ place offset ts = ts := by
  -- The text left over gets shorter with every token.
  induction eqn : src.length using Nat.strongRecOn generalizing src offset ts with
  | _ size ih =>
    have cut := List.takeWhile_append_dropWhile (p := isSpace) (l := src)
    cases left : src.dropWhile isSpace with
    | nil =>
      rw [streamFrom_eq_nil left, collect] at h
      obtain rfl : [] = ts := by simpa using h
      rw [left, List.append_nil] at cut
      exact ⟨src, rfl, trivial, cut ▸ blank_takeWhile src, rfl⟩
    | cons c rest =>
      have solid := solid_of_dropWhile left
      cases read : scan c rest with
      | error cause =>
        rw [streamFrom_eq_error left read, collect] at h
        simp at h
      | ok found =>
        obtain ⟨kind, n⟩ := found
        rw [streamFrom_eq_cons left read, collect] at h
        cases others : collect (streamFrom (offset + Text.byteLength (src.takeWhile isSpace)
            + Text.byteLength (c :: rest.take n)) (rest.drop n)) with
        | error e => simp only [others, reduceCtorEq] at h
        | ok us =>
          simp only [others, Except.ok.injEq] at h
          subst h
          have shorter : (rest.drop n).length < size := by
            have := congrArg List.length cut
            simp only [left, List.length_append, List.length_cons] at this
            simp only [List.length_drop]
            omega
          obtain ⟨tail, eq, chained, blank, placed⟩ := ih _ shorter others rfl
          have reads := reads_of_scan solid read
          refine ⟨tail, ?_, ⟨blank_takeWhile src, eq ▸ reads, chained⟩, blank, ?_⟩
          · rw [written_cons, List.append_assoc, ← eq, List.append_assoc, List.cons_append,
              List.take_append_drop, ← left, cut]
          · rw [place_cons, placed]

/-- Tokenizing a text and being chained in front of white space are the same. -/
theorem tokenize_eq_ok_iff {src : Text} {ts : List Token} :
    tokenize src = .ok ts ↔
      ∃ tail, src = written ts ++ tail ∧ Chained ts tail ∧ Blank tail ∧ place 0 ts = ts := by
  constructor
  · exact chained_of_collect
  · rintro ⟨tail, rfl, chained, blank, placed⟩
    rw [tokenize, stream, streamFrom_written chained blank, collect_map_ok, placed]

theorem le_start_of_mem_place {offset : Nat} {ts : List Token} {t : Token}
    (h : t ∈ place offset ts) : offset ≤ t.start := by
  induction ts generalizing offset with
  | nil => simp [place_nil] at h
  | cons u us ih =>
    rw [place_cons, List.mem_cons] at h
    rcases h with rfl | mem
    · exact Nat.le_add_right ..
    · have := ih mem
      omega

/-- Tokens lie behind each other. -/
theorem pairwise_place (offset : Nat) (ts : List Token) :
    (place offset ts).Pairwise fun t u => t.stop ≤ u.start := by
  induction ts generalizing offset with
  | nil => exact .nil
  | cons t ts ih =>
    rw [place_cons, List.pairwise_cons]
    exact ⟨fun u mem => le_start_of_mem_place mem, ih _⟩

theorem Chained.start_lt_stop {ts : List Token} {after : Text} (h : Chained ts after) {t : Token}
    (mem : t ∈ ts) : t.start < t.stop := by
  obtain ⟨before, behind, rfl⟩ := List.append_of_mem mem
  obtain ⟨-, ⟨c, body, eq, -, -⟩, -⟩ := (chained_append.1 h).2
  have pos := c.utf8Size_pos
  simp only [stop, eq, Text.byteLength_cons]
  omega

theorem pairwise_start {ts : List Token} {after : Text} (chained : Chained ts after)
    (placed : place 0 ts = ts) : ts.Pairwise fun t u => t.start < u.start := by
  have behind := pairwise_place 0 ts
  rw [placed] at behind
  refine behind.imp_of_mem fun mem _ le => ?_
  exact Nat.lt_of_lt_of_le (chained.start_lt_stop mem) le

/-- Where a token starts determines it. -/
theorem eq_of_start_eq {ts : List Token} (ordered : ts.Pairwise fun t u => t.start < u.start)
    {t u : Token} (mem : t ∈ ts) (mem' : u ∈ ts) (start : t.start = u.start) : t = u := by
  induction ordered with
  | nil => cases mem
  | @cons v ts before _ ih =>
    rcases List.mem_cons.1 mem with rfl | later <;> rcases List.mem_cons.1 mem' with rfl | later'
    · rfl
    · have := before u later'
      omega
    · have := before t later
      omega
    · exact ih later later'

theorem eq_of_span_eq {ts : List Token} (ordered : ts.Pairwise fun t u => t.start < u.start)
    {t u : Token} (mem : t ∈ ts) (mem' : u ∈ ts) (same : t.span = u.span) : t = u :=
  eq_of_start_eq ordered mem mem' (congrArg Span.start same)

/-! ### Texts and the tokens they hold -/

/-- The text consists of the tokens, with white space behind the last one. -/
def Covers (ts : List Token) (s : Text) : Prop :=
  ∃ tail, s = written ts ++ tail ∧ Chained ts tail ∧ Blank tail

/-- Where the tokens stand is a matter of what they are. -/
theorem Covers.tokenize {src : Text} {ts : List Token} (h : Covers ts src) :
    tokenize src = .ok (place 0 ts) := by
  obtain ⟨tail, rfl, chained, blank⟩ := h
  rw [Token.tokenize, stream, streamFrom_written chained blank, collect_map_ok]

theorem covers_nil {s : Text} (h : Blank s) : Covers [] s := ⟨s, by simp, trivial, h⟩

/-- Puts white space in front of the first token. -/
def pushGap (gap : Text) : List Token → List Token
  | [] => []
  | t :: ts => { t with gap := gap ++ t.gap } :: ts

theorem Covers.prepend {ts : List Token} {s gap : Text} (h : Covers ts s) (blank : Blank gap) :
    Covers (pushGap gap ts) (gap ++ s) := by
  obtain ⟨tail, rfl, chained, blankTail⟩ := h
  cases ts with
  | nil => exact ⟨gap ++ tail, by simp [pushGap], trivial, blank_append.2 ⟨blank, blankTail⟩⟩
  | cons t ts =>
    obtain ⟨blankGap, reads, more⟩ := chained
    exact ⟨tail, by simp [pushGap], ⟨blank_append.2 ⟨blank, blankGap⟩, reads, more⟩, blankTail⟩

/-- A line break separates the tokens of two texts. -/
theorem Covers.appendLine {ts us : List Token} {s t : Text} (h : Covers ts s) (h' : Covers us t) :
    ∃ gap, Blank gap ∧ '\n' ∈ gap ∧ Covers (ts ++ pushGap gap us) (s ++ '\n' :: t) := by
  obtain ⟨tail, rfl, chained, blank⟩ := h
  have blankGap : Blank (tail ++ ['\n']) := blank_append.2 ⟨blank, blank_newline⟩
  have pushed := h'.prepend blankGap
  refine ⟨tail ++ ['\n'], blankGap, by simp, ?_⟩
  obtain ⟨tail', eq, chained', blank'⟩ := pushed
  refine ⟨tail', ?_, chained_append.2 ⟨?_, chained'⟩, blank'⟩
  · have : tail ++ '\n' :: t = tail ++ ['\n'] ++ t := by simp
    rw [List.append_assoc, this, eq, written_append, List.append_assoc]
  · rw [← eq, List.append_assoc]
    exact chained.insertNewline t

end GoSplit.Token
