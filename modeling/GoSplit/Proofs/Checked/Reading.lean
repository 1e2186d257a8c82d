import GoSplit.Proofs.Checked.Lexer
import GoSplit.Proofs.SourceFile.Found

/-!
Reading tokens by their index. Kind and span are all that is known of a token; its text, and
what stands between it and another one, are slices of the source. For the tokens of a text the
slices are there, and they are the texts and gaps that the tokens carry.
-/

namespace GoSplit.Checked

open Token (Reads written place)

/-- A source and the tokens read in it. -/
structure Reading where
  src : Text
  marks : List Mark

/-- A token without what stands in front of it. -/
def bare (t : Token) : Token := { t with gap := [] }

section

variable (t : Token)

@[simp] theorem bare_kind : (bare t).kind = t.kind := rfl

@[simp] theorem bare_text : (bare t).text = t.text := rfl

@[simp] theorem bare_start : (bare t).start = t.start := rfl

@[simp] theorem bare_stop : (bare t).stop = t.stop := rfl

@[simp] theorem bare_span : (bare t).span = t.span := rfl

@[simp] theorem bare_isComment : (bare t).isComment = t.isComment := rfl

@[simp] theorem bare_isWord (word : String) : (bare t).isWord word = t.isWord word := rfl

@[simp] theorem bare_isName : (bare t).isName = t.isName := rfl

@[simp] theorem bare_isStar : (bare t).isStar = t.isStar := rfl

@[simp] theorem bare_endsStatement : (bare t).endsStatement = t.endsStatement := rfl

end

namespace Reading

variable {ε : Type}

def size (r : Reading) : Nat := r.marks.length

/-- The token at an index. -/
def token (r : Reading) (i : Nat) : Checked ε Token := do
  let mark ← item r.marks i
  let text ← slice r.src mark.span.start mark.span.stop
  return ⟨mark.kind, [], text, mark.span.start⟩

/-- The token at an index, if there is one. -/
def token? (r : Reading) (i : Nat) : Checked ε (Option Token) :=
  if i < r.size then do return some (← r.token i) else pure none

def newlineBetween (r : Reading) (stop start : Nat) : Checked ε Bool := do
  return (← slice r.src stop start).hasNewline

def blankLineBetween (r : Reading) (stop start : Nat) : Checked ε Bool := do
  return (← slice r.src stop start).hasBlankLine

/-- The reading is that of tokens which stand behind the text `before`. -/
structure Of (r : Reading) (before : Text) (toks : List Token) : Prop where
  marks : r.marks = toks.map Mark.of
  whole : ∃ tail, r.src = before ++ (written toks ++ tail)
  placed : place before.byteLength toks = toks
  reads : ∀ t ∈ toks, ∃ rest, Reads t.kind t.text rest

theorem of_tokenize {src : Text} {toks : List Token} (h : Token.tokenize src = .ok toks) :
    Of ⟨src, toks.map Mark.of⟩ [] toks := by
  obtain ⟨tail, whole, chained, -, placed⟩ := Token.tokenize_eq_ok_iff.1 h
  exact ⟨rfl, ⟨tail, whole⟩, placed, fun t mem => chained.reads_of_mem mem⟩

theorem place_append {offset : Nat} {front rest : List Token}
    (placed : place offset (front ++ rest) = front ++ rest) :
    place (offset + (written front).byteLength) rest = rest := by
  induction front generalizing offset with
  | nil => exact placed
  | cons t front ih =>
    obtain ⟨start, others⟩ := Token.place_cons_eq placed
    have next := ih others
    rw [Token.stop, start] at next
    simpa [Nat.add_assoc] using next

theorem place_front {offset : Nat} {front rest : List Token}
    (placed : place offset (front ++ rest) = front ++ rest) :
    place offset front = front := by
  induction front generalizing offset with
  | nil => rfl
  | cons t front ih =>
    rw [List.cons_append, place, List.cons.injEq] at placed
    rw [place, placed.1, ih placed.2]

namespace Of

variable {r : Reading} {before : Text} {toks front mid rest run : List Token} {t p : Token}

theorem size_eq (h : r.Of before toks) : r.size = toks.length := by
  rw [size, h.marks, List.length_map]

theorem start_eq (h : r.Of before toks) (cut : toks = front ++ t :: rest) :
    t.start = (before ++ (written front ++ t.gap)).byteLength := by
  have placed := h.placed
  rw [cut] at placed
  rw [(Token.place_cons_eq (place_append placed)).1]
  simp [Nat.add_assoc]

theorem stop_eq (h : r.Of before toks) (cut : toks = front ++ t :: rest) :
    t.stop = (before ++ written (front ++ [t])).byteLength := by
  rw [Token.stop, h.start_eq cut]
  simp [Nat.add_assoc]

theorem slice?_eq (h : r.Of before toks) (left right : Text) {inside : Text}
    (cut : before ++ written toks = left ++ (inside ++ right)) {start stop : Nat}
    (starts : start = left.byteLength) (stops : stop = (left ++ inside).byteLength) :
    r.src.slice? ⟨start, stop⟩ = some inside := by
  obtain ⟨tail, whole⟩ := h.whole
  refine Text.slice?_eq_some_iff.2 ⟨left, right ++ tail, ?_, ?_⟩
  · rw [whole, ← List.append_assoc, cut]
    simp
  · rw [starts, stops, Text.byteLength_append]

theorem slice_eq (h : r.Of before toks) (left right : Text) {inside : Text}
    (cut : before ++ written toks = left ++ (inside ++ right)) {start stop : Nat}
    (starts : start = left.byteLength) (stops : stop = (left ++ inside).byteLength) :
    (slice r.src start stop : Checked ε Text) = pure inside :=
  slice_of_slice? (h.slice?_eq left right cut starts stops)

theorem token_eq (h : r.Of before toks) (cut : toks = front ++ t :: rest) :
    (r.token front.length : Checked ε Token) = pure (bare t) := by
  have mark : r.marks[front.length]? = some (.of t) := by
    rw [h.marks, cut]
    simp
  have text : (slice r.src t.start t.stop : Checked ε Text) = pure t.text := by
    refine h.slice_eq (before ++ (written front ++ t.gap)) (written rest) ?_
      (h.start_eq cut) ?_
    · simp [cut]
    · rw [h.stop_eq cut]
      simp
  rw [token, item_of_getElem? mark, pure_bind]
  exact congrArg (· >>= _) text

theorem token?_eq (h : r.Of before toks) (cut : toks = front ++ rest) :
    (r.token? front.length : Checked ε (Option Token)) = pure (rest.head?.map bare) := by
  rw [token?, h.size_eq, cut]
  cases rest with
  | nil => simp
  | cons t rest =>
    rw [if_pos (by simp), h.token_eq cut]
    rfl

/-- What stands between two tokens is the tokens between them with their gaps. -/
theorem slice?_between (h : r.Of before toks) (cut : toks = front ++ p :: (mid ++ t :: rest)) :
    r.src.slice? ⟨p.stop, t.start⟩ = some (written mid ++ t.gap) := by
  refine h.slice?_eq (before ++ written (front ++ [p])) (t.text ++ written rest) ?_
    (h.stop_eq cut) ?_
  · simp [cut]
  · have cut' : toks = (front ++ p :: mid) ++ t :: rest := by simp [cut]
    rw [h.start_eq cut']
    simp

theorem slice_between (h : r.Of before toks) (cut : toks = front ++ p :: (mid ++ t :: rest)) :
    (slice r.src p.stop t.start : Checked ε Text) = pure (written mid ++ t.gap) :=
  slice_of_slice? (h.slice?_between cut)

/-- A run of tokens is written as it is spelled. -/
theorem slice_run (h : r.Of before toks) (cut : toks = front ++ (t :: run ++ rest)) :
    (slice r.src t.start ((t :: run).getLastD t).stop : Checked ε Text) =
      pure (Token.spell (t :: run)) := by
  have spelled : written (t :: run) = t.gap ++ Token.spell (t :: run) := by
    simp [Token.spell, written]
  refine h.slice_eq (before ++ (written front ++ t.gap)) (written rest) ?_
    (h.start_eq (by rw [cut, List.cons_append])) ?_
  · rw [cut, Token.written_append, Token.written_append, spelled]
    simp
  · obtain ⟨init, last, eq⟩ : ∃ init last, t :: run = init ++ [last] :=
      ⟨_, _, (List.dropLast_append_getLast (List.cons_ne_nil t run)).symm⟩
    have cut' : toks = (front ++ init) ++ last :: rest := by rw [cut, eq]; simp
    have last : (t :: run).getLastD t = last := by rw [eq]; simp
    rw [last, h.stop_eq cut', List.append_assoc front, ← eq, Token.written_append, spelled]
    simp

/-- Some of the tokens that follow each other, read on their own. -/
theorem within (h : r.Of before toks) (cut : toks = front ++ (run ++ rest)) :
    Of ⟨r.src, run.map Mark.of⟩ (before ++ written front) run := by
  obtain ⟨tail, whole⟩ := h.whole
  have placed := h.placed
  have reads := h.reads
  rw [cut] at placed whole reads
  refine ⟨rfl, ⟨written rest ++ tail, by simp [whole]⟩, ?_, fun t mem => reads t (by simp [mem])⟩
  rw [Text.byteLength_append]
  exact place_front (place_append placed)

/-- A loop that passes over tokens of a kind ends at the first other one. -/
theorem loop_while {q : Token → Bool} {turn : Nat → Checked ε (Turn Nat Nat)}
    (passes : ∀ (front : List Token) t rest, toks = front ++ t :: rest → q t = true →
      turn front.length = pure (.again (front.length + 1)))
    (ends : ∀ front rest : List Token, toks = front ++ rest → (∀ t ∈ rest.head?, q t = false) →
      turn front.length = pure (.finished front.length))
    (cut : toks = front ++ rest) {turns : Nat} (enough : rest.length < turns) :
    loop turn turns front.length = pure (front.length + (rest.takeWhile q).length) := by
  obtain ⟨turns, rfl⟩ : ∃ n, turns = n + 1 := ⟨turns - 1, by omega⟩
  induction rest generalizing front turns with
  | nil => exact loop_finished (ends front [] cut (by simp)) turns
  | cons t rest ih =>
    by_cases more : q t = true
    · obtain ⟨turns, rfl⟩ : ∃ n, turns = n + 1 := ⟨turns - 1, by simp at enough; omega⟩
      have next := @ih (front ++ [t]) (by simp [cut]) turns (by simpa using enough)
      rw [List.length_append, List.length_singleton] at next
      rw [loop_again (passes front t rest cut more), next, List.takeWhile_cons_of_pos more,
        List.length_cons, Nat.add_right_comm, Nat.add_assoc]
    · have other : q t = false := by simpa using more
      rw [loop_finished (ends front (t :: rest) cut (by simpa using other)),
        List.takeWhile_cons_of_neg more]
      rfl

end Of

/-! ### Comments -/

def commentTurn (r : Reading) (i : Nat) : Checked ε (Turn Nat Nat) := do
  if i < r.size then
    if (← r.token i).isComment then return .again (i + 1) else return .finished i
  else return .finished i

/-- Where the comments from an index on end. -/
def skipComments (r : Reading) (i : Nat) : Checked ε Nat := loop r.commentTurn (r.size + 1) i

/-- The next token that is no comment. -/
def nextSignificant (r : Reading) (i : Nat) : Checked ε (Option Nat) := do
  let next ← r.skipComments i
  return if next < r.size then some next else none

section

variable {r : Reading} {before : Text} {toks front rest : List Token}

theorem Of.skipComments_eq (h : r.Of before toks) (cut : toks = front ++ rest) :
    (r.skipComments front.length : Checked ε Nat) =
      pure (front.length + (rest.takeWhile Token.isComment).length) := by
  refine loop_while (fun front t rest cut comment => ?_) (fun front rest cut other => ?_) cut ?_
  · rw [commentTurn, if_pos (by simp [h.size_eq, cut]), h.token_eq cut, pure_bind, bare_isComment,
      if_pos comment]
  · cases rest with
    | nil => rw [commentTurn, if_neg (by simp [h.size_eq, cut])]
    | cons t rest =>
      have code : t.isComment = false := other t rfl
      rw [commentTurn, if_pos (by simp [h.size_eq, cut]), h.token_eq cut, pure_bind,
        bare_isComment, code]
      rfl
  · rw [h.size_eq, cut, List.length_append]
    omega

theorem Of.nextSignificant_eq (h : r.Of before toks) (cut : toks = front ++ rest) :
    (r.nextSignificant front.length : Checked ε (Option Nat)) =
      pure ((rest.dropWhile Token.isComment).head?.map fun _ =>
        front.length + (rest.takeWhile Token.isComment).length) := by
  have split :=
    congrArg List.length (List.takeWhile_append_dropWhile (p := Token.isComment) (l := rest))
  rw [List.length_append] at split
  rw [nextSignificant, h.skipComments_eq cut, pure_bind, h.size_eq, cut, List.length_append]
  cases behind : rest.dropWhile Token.isComment with
  | nil =>
    rw [behind] at split
    rw [if_neg (by simp at split; omega)]
    rfl
  | cons t more =>
    rw [behind] at split
    rw [if_pos (by simp at split; omega)]
    rfl

end

/-! ### Leaving the comments out -/

namespace Of

variable {r : Reading} {before : Text} {toks : List Token} {t : Token}

theorem exists_written_go (pre : Text) (ts : List Token) :
    ∃ tail, pre ++ written ts = written (Token.withoutComments.go pre ts) ++ tail := by
  induction ts generalizing pre with
  | nil => exact ⟨pre, by simp [Token.withoutComments.go]⟩
  | cons t ts ih =>
    rw [Token.withoutComments.go]
    split
    · obtain ⟨tail, whole⟩ := ih (pre ++ t.gap ++ t.text)
      exact ⟨tail, by rw [← whole]; simp⟩
    · obtain ⟨tail, whole⟩ := ih []
      refine ⟨tail, ?_⟩
      rw [List.nil_append] at whole
      simp [whole]

theorem place_go {offset : Nat} {pre : Text} {ts : List Token}
    (placed : place (offset + pre.byteLength) ts = ts) :
    place offset (Token.withoutComments.go pre ts) = Token.withoutComments.go pre ts := by
  induction ts generalizing offset pre with
  | nil => rfl
  | cons t ts ih =>
    obtain ⟨start, others⟩ := Token.place_cons_eq placed
    rw [Token.stop, start] at others
    rw [Token.withoutComments.go]
    split
    · exact ih (by simpa [Nat.add_assoc] using others)
    · have next := @ih (offset + pre.byteLength + t.gap.byteLength + t.text.byteLength) []
        (by simpa using others)
      rw [place, List.cons.injEq]
      exact ⟨by simp [start, Nat.add_assoc], by simpa [Nat.add_assoc] using next⟩

theorem exists_of_mem_go {pre : Text} {ts : List Token}
    (mem : t ∈ Token.withoutComments.go pre ts) :
    ∃ u ∈ ts, u.kind = t.kind ∧ u.text = t.text := by
  induction ts generalizing pre with
  | nil => cases mem
  | cons u ts ih =>
    rw [Token.withoutComments.go] at mem
    split at mem
    · obtain ⟨v, mem, same⟩ := ih mem
      exact ⟨v, List.mem_cons_of_mem u mem, same⟩
    · rcases List.mem_cons.1 mem with rfl | mem
      · exact ⟨u, by simp, rfl, rfl⟩
      · obtain ⟨v, mem, same⟩ := ih mem
        exact ⟨v, List.mem_cons_of_mem u mem, same⟩

/-- The tokens without the comments are those of the same source. -/
theorem withoutComments (h : r.Of before toks) :
    Of ⟨r.src, (Token.withoutComments toks).map Mark.of⟩ before (Token.withoutComments toks) := by
  obtain ⟨tail, whole⟩ := h.whole
  obtain ⟨comments, written_eq⟩ := exists_written_go [] toks
  rw [List.nil_append] at written_eq
  refine ⟨rfl, ⟨comments ++ tail, ?_⟩, place_go (by simpa using h.placed), fun t mem => ?_⟩
  · rw [whole, written_eq, List.append_assoc]
    rfl
  · obtain ⟨u, mem, kind, text⟩ := exists_of_mem_go mem
    rw [← kind, ← text]
    exact h.reads u mem

end Of

end Reading

end GoSplit.Checked
