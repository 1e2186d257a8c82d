import GoSplit.Proofs.Token.Moved
import GoSplit.Proofs.Token.Quiet
import GoSplit.Proofs.Token.Trimmed

/-!
Texts that end with their last token. Such texts can be written below each other with
nothing but the line breaks between them, so the white space in front of every token of
the whole is known.
-/

namespace GoSplit.Token

open List (Forall₂)
open SourceFile (StartsLine)

/-- The text consists of the tokens and ends with the last of them. -/
structure Fills (ts : List Token) (s : Text) : Prop where
  text : written ts = s
  chained : Chained ts []

/-- A text that does not end in white space ends with its last token. -/
theorem Covers.fills {ts : List Token} {s : Text} (h : Covers ts s)
    (solid : ∀ c ∈ s.getLast?, isSpace c = false) : Fills ts s := by
  obtain ⟨tail, rfl, chained, blank⟩ := h
  rcases List.eq_nil_or_concat tail with rfl | ⟨init, last, rfl⟩
  · exact ⟨by simp, chained⟩
  · have space := blank last (by simp)
    have visible := solid last (by simp)
    simp [space] at visible

/-- White space in front of the first token. -/
theorem Fills.prepend {ts : List Token} {s gap : Text} (h : Fills ts s) (some : ts ≠ [])
    (blank : Blank gap) : Fills (pushGap gap ts) (gap ++ s) := by
  cases ts with
  | nil => exact absurd rfl some
  | cons t ts =>
    obtain ⟨blankGap, reads, more⟩ := h.chained
    refine ⟨?_, blank_append.2 ⟨blank, blankGap⟩, reads, more⟩
    rw [← h.text]
    simp [pushGap]

/-- A line break separates two texts. -/
theorem Fills.append {ts us : List Token} {s t : Text} (h : Fills ts s)
    (h' : Fills us ('\n' :: t)) : Fills (ts ++ us) (s ++ '\n' :: t) := by
  refine ⟨by rw [written_append, h.text, h'.text], chained_append.2 ⟨?_, h'.chained⟩⟩
  rw [h'.text, List.append_nil]
  exact h.chained.insertNewline t

/-- A line break at the end of the text. -/
theorem Fills.covers_newline {ts : List Token} {s : Text} (h : Fills ts s) :
    Covers ts (s ++ ['\n']) :=
  ⟨['\n'], by rw [h.text], h.chained.insertNewline [], blank_newline⟩

/-- The text of the tokens is what the white space in front of the first one leaves. -/
theorem Fills.spell_eq {ts : List Token} {gap s : Text} (h : Fills ts (gap ++ s))
    (blank : Blank gap) (solid : ∀ c ∈ s.head?, isSpace c = false) : spell ts = s := by
  have left := dropWhile_blank_append blank solid
  cases ts with
  | nil =>
    have empty := h.text
    rw [written_nil, eq_comm, List.append_eq_nil_iff] at empty
    exact empty.2.symm
  | cons t ts =>
    obtain ⟨blankGap, ⟨c, body, text, visible, -⟩, -⟩ := h.chained
    have right : (t.gap ++ (t.text ++ written ts)).dropWhile isSpace = t.text ++ written ts :=
      dropWhile_blank_append blankGap (by simpa [text] using visible)
    rw [← left, ← h.text, written_cons, List.append_assoc, right]
    rfl

/-- Trimmed tokens fill the text they spell. -/
theorem Covers.fills_spell {ts : List Token} {s : Text} (h : Covers ts s) (same : spell ts = s) :
    Fills ts s := by
  obtain ⟨tail, eq, chained, blank⟩ := h
  have shorter : (spell ts).length ≤ (written ts).length := by
    cases ts with
    | nil => exact Nat.le_refl _
    | cons t ts => simp [spell, written]
  have length := congrArg List.length eq
  rw [← same, List.length_append] at length
  obtain rfl : tail = [] := List.length_eq_zero_iff.1 (by omega)
  exact ⟨by simpa using eq.symm, chained⟩

/-! ### Groups of tokens below each other -/

/-- The groups with an empty line above each of them. -/
def stack (groups : List (List Token)) : List Token := groups.flatMap (pushGap ['\n', '\n'])

@[simp] theorem stack_nil : stack [] = [] := rfl

@[simp] theorem stack_cons (group : List Token) (groups : List (List Token)) :
    stack (group :: groups) = pushGap ['\n', '\n'] group ++ stack groups := rfl

theorem blank_emptyLine : Blank ['\n', '\n'] := by simp [Blank, isSpace]

theorem startsLine_pushGap (gap : Text) (ts : List Token) :
    StartsLine (pushGap ('\n' :: gap) ts) := by
  intro t mem
  cases ts with
  | nil => simp [pushGap] at mem
  | cons u ts =>
    obtain rfl := Option.some.inj mem
    simp [onNewLine, Text.hasNewline]

theorem layout_stack (groups : List (List Token)) : Layout groups (stack groups) := by
  induction groups with
  | nil => exact .nil
  | cons group groups ih => exact .cons (Moved.pushGap _ _) (startsLine_pushGap _ _) ih

theorem Fills.stack {groups : List (List Token)} {texts : List Text}
    (h : Forall₂ Fills groups texts) (some : ∀ group ∈ groups, group ≠ []) {ts : List Token}
    {s : Text} (first : Fills ts s) :
    Fills (ts ++ stack groups) (s ++ texts.flatMap fun t => '\n' :: '\n' :: t) := by
  induction h generalizing ts s with
  | nil => simpa using first
  | @cons group text groups texts fills _ ih =>
    have below := fills.prepend (some group (by simp)) blank_emptyLine
    have both := ih (fun g mem => some g (by simp [mem])) (first.append below)
    simpa using both

end GoSplit.Token
