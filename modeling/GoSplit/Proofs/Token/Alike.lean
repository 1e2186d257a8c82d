import GoSplit.SourceFile.Parser
import Mathlib.Data.List.Forall2

/-!
Tokens between which the grammar cannot tell: they may stand elsewhere, a string
literal may have another content, and a comment may have another text with as many line
breaks. Whatever the parser decides about a list of tokens it decides in the same way
about a list of tokens alike to them.
-/

namespace GoSplit.Token

open List (Forall₂)

def isString (t : Token) : Bool := t.kind == .string || t.kind == .rawString

/-- The grammar cannot tell the tokens apart. -/
structure Alike (t u : Token) : Prop where
  gap : t.gap.newlines = u.gap.newlines
  shape : t.kind = u.kind ∧ t.text = u.text ∨
    t.isString = true ∧ u.isString = true ∨
    t.isComment = true ∧ t.kind = u.kind ∧ t.text.newlines = u.text.newlines

theorem isString_iff {t : Token} : t.isString = true ↔ t.kind = .string ∨ t.kind = .rawString := by
  simp [isString]

theorem isComment_iff {t : Token} :
    t.isComment = true ↔ t.kind = .lineComment ∨ t.kind = .blockComment := by
  unfold isComment
  split <;> simp_all

theorem hasNewline_eq (s : Text) : s.hasNewline = decide (0 < s.newlines) := by
  rw [Bool.eq_iff_iff]
  simp [Text.hasNewline, Text.newlines, List.count_pos_iff]

namespace Alike

@[refl] theorem refl (t : Token) : Alike t t := ⟨rfl, .inl ⟨rfl, rfl⟩⟩

instance : Std.Refl Alike := ⟨refl⟩

variable {t u : Token} (h : Alike t u)
include h

/-- The kinds are the same, or both are those of string literals. -/
theorem kind_cases : t.kind = u.kind ∨
    (t.kind = .string ∨ t.kind = .rawString) ∧ (u.kind = .string ∨ u.kind = .rawString) := by
  rcases h.shape with same | both | comment
  · exact .inl same.1
  · exact .inr ⟨isString_iff.1 both.1, isString_iff.1 both.2⟩
  · exact .inl comment.2.1

theorem kind_eq_iff {k : Kind} (hs : k ≠ .string) (hr : k ≠ .rawString) :
    t.kind = k ↔ u.kind = k := by
  rcases h.kind_cases with same | ⟨left, right⟩
  · rw [same]
  · have ht : t.kind ≠ k := by
      rcases left with e | e <;> rw [e]
      · exact hs.symm
      · exact hr.symm
    have hu : u.kind ≠ k := by
      rcases right with e | e <;> rw [e]
      · exact hs.symm
      · exact hr.symm
    exact ⟨fun e => absurd e ht, fun e => absurd e hu⟩

theorem kind_beq {k : Kind} (hs : k ≠ .string) (hr : k ≠ .rawString) :
    (t.kind == k) = (u.kind == k) := by
  rw [Bool.eq_iff_iff, beq_iff_eq, beq_iff_eq]
  exact h.kind_eq_iff hs hr

/-- Of tokens that are neither string literals nor comments the text is the same. -/
theorem text_eq {k : Kind} (kind : u.kind = k) (hs : k ≠ .string) (hr : k ≠ .rawString)
    (hl : k ≠ .lineComment) (hb : k ≠ .blockComment) : t.text = u.text := by
  have kind' := (h.kind_eq_iff hs hr).2 kind
  rcases h.shape with same | both | comment
  · exact same.2
  · have := isString_iff.1 both.1
    rw [kind'] at this
    exact absurd this (by simp [hs, hr])
  · have := isComment_iff.1 comment.1
    rw [kind'] at this
    exact absurd this (by simp [hl, hb])

theorem ident_text_eq (kind : u.kind = .ident) : t.text = u.text :=
  h.text_eq kind (by simp) (by simp) (by simp) (by simp)

theorem isComment_eq : t.isComment = u.isComment := by
  rw [Bool.eq_iff_iff, isComment_iff, isComment_iff, h.kind_eq_iff (by simp) (by simp),
    h.kind_eq_iff (by simp) (by simp)]

theorem isSeparator_eq : t.isSeparator = u.isSeparator := by
  rw [isSeparator, isSeparator, h.isComment_eq, h.kind_beq (by simp) (by simp)]

theorem onNewLine_eq : t.onNewLine = u.onNewLine := by
  rw [onNewLine, onNewLine, hasNewline_eq, hasNewline_eq, h.gap]

theorem isWord_eq (word : String) : t.isWord word = u.isWord word := by
  rw [isWord, isWord, h.kind_beq (by simp) (by simp)]
  by_cases ident : u.kind = .ident
  · rw [h.ident_text_eq ident]
  · rw [beq_eq_false_iff_ne.2 ident, Bool.false_and, Bool.false_and]

theorem isName_eq : t.isName = u.isName := by
  rw [isName, isName, h.kind_beq (by simp) (by simp)]
  by_cases ident : u.kind = .ident
  · rw [h.ident_text_eq ident]
  · rw [beq_eq_false_iff_ne.2 ident, Bool.false_and, Bool.false_and]

theorem isStar_eq : t.isStar = u.isStar := by
  rw [isStar, isStar, h.kind_beq (by simp) (by simp)]
  by_cases op : u.kind = .op
  · rw [h.text_eq op (by simp) (by simp) (by simp) (by simp)]
  · rw [beq_eq_false_iff_ne.2 op, Bool.false_and, Bool.false_and]

theorem endsStatement_eq : t.endsStatement = u.endsStatement := by
  rcases h.kind_cases with same | ⟨left, right⟩
  · unfold endsStatement
    rw [same]
    by_cases ident : u.kind = .ident
    · rw [h.ident_text_eq ident]
    · cases kind : u.kind <;> simp_all
  · rcases left with e | e <;> rcases right with e' | e' <;> simp [endsStatement, e, e']

/-- Comments have as many line breaks. -/
theorem newlines_text (comment : u.isComment = true) : t.text.newlines = u.text.newlines := by
  rcases h.shape with same | both | kept
  · rw [same.2]
  · have right := isString_iff.1 both.2
    rw [isComment_iff] at comment
    rcases comment with e | e <;> simp [e] at right
  · exact kept.2.2

theorem hasNewline_text (comment : u.isComment = true) :
    t.text.hasNewline = u.text.hasNewline := by
  rw [hasNewline_eq, hasNewline_eq, h.newlines_text comment]

end Alike

/-- What is said of the tokens of a list goes over to tokens related to them. -/
theorem forall_of_forall₂ {r : Token → Token → Prop} {p : Token → Prop} {ts us : List Token}
    (h : Forall₂ r ts us) (step : ∀ t u, r t u → p u → p t) (all : ∀ u ∈ us, p u) :
    ∀ t ∈ ts, p t := by
  induction h with
  | nil => simp
  | @cons t u ts us rel _ ih =>
    intro t' mem
    rcases List.mem_cons.1 mem with rfl | mem
    · exact step t' u rel (all u (by simp))
    · exact ih (fun u mem => all u (by simp [mem])) t' mem

/-- Related elements are elements of their lists. -/
theorem forall₂_and_mem {α β : Type} {r : α → β → Prop} {as : List α} {bs : List β}
    (h : Forall₂ r as bs) : Forall₂ (fun a b => b ∈ bs ∧ r a b) as bs := by
  refine List.Forall₂.flip ((List.forall₂_and_left _ _).2 ⟨fun b mem => mem, ?_⟩)
  exact List.Forall₂.flip h

section Lists

variable {r : Token → Token → Prop} {p : Token → Bool} {ts us : List Token}

theorem forall₂_takeWhile (h : Forall₂ r ts us) (kept : ∀ t u, r t u → p t = p u) :
    Forall₂ r (ts.takeWhile p) (us.takeWhile p) := by
  induction h with
  | nil => exact .nil
  | @cons t u _ _ rel _ ih =>
    rw [List.takeWhile_cons, List.takeWhile_cons, kept t u rel]
    split
    · exact .cons rel ih
    · exact .nil

theorem forall₂_dropWhile (h : Forall₂ r ts us) (kept : ∀ t u, r t u → p t = p u) :
    Forall₂ r (ts.dropWhile p) (us.dropWhile p) := by
  induction h with
  | nil => exact .nil
  | @cons t u _ _ rel more ih =>
    rw [List.dropWhile_cons, List.dropWhile_cons, kept t u rel]
    split
    · exact ih
    · exact .cons rel more

theorem forall₂_filter (h : Forall₂ r ts us) (kept : ∀ t u, r t u → p t = p u) :
    Forall₂ r (ts.filter p) (us.filter p) := by
  induction h with
  | nil => exact .nil
  | @cons t u _ _ rel _ ih =>
    rw [List.filter_cons, List.filter_cons, kept t u rel]
    split
    · exact .cons rel ih
    · exact ih

theorem exists_append_of_forall₂ {left right : List Token} (h : Forall₂ r ts (left ++ right)) :
    ∃ left' right', ts = left' ++ right' ∧ Forall₂ r left' left ∧ Forall₂ r right' right :=
  ⟨ts.take left.length, ts.drop left.length, (List.take_append_drop ..).symm,
    List.forall₂_take_append _ _ _ h, List.forall₂_drop_append _ _ _ h⟩

variable (h : Forall₂ Alike ts us)
include h

/-- Comments between two tokens count as line breaks in front of the second. -/
theorem forall₂_withoutComments_go {before before' : Text}
    (same : before.newlines = before'.newlines) :
    Forall₂ Alike (withoutComments.go before ts) (withoutComments.go before' us) := by
  induction h generalizing before before' with
  | nil => exact .nil
  | @cons t u _ _ like _ ih =>
    rw [withoutComments.go, withoutComments.go, like.isComment_eq]
    split
    · next comment =>
      apply ih
      simp only [Text.newlines, List.count_append] at same ⊢
      have gap := like.gap
      have text := like.newlines_text comment
      simp only [Text.newlines] at gap text
      omega
    · refine .cons ⟨?_, ?_⟩ (ih rfl)
      · have gap := like.gap
        simp only [Text.newlines, List.count_append] at same gap ⊢
        omega
      · exact like.shape

theorem forall₂_withoutComments :
    Forall₂ Alike (withoutComments ts) (withoutComments us) :=
  forall₂_withoutComments_go h rfl

end Lists

end GoSplit.Token
