import GoSplit.Text.Letter

/-!
What names are made of. A name goes on with whatever it may start with, and neither white space nor
the byte order mark is part of one: beyond ASCII the tables leave gaps there.
-/

namespace GoSplit.Text

/-- Gaps that the tables of letters and of numerals leave. -/
def nameGaps : CodePoints :=
  [(0x80, 0xA9), (0x1680, 0x1680), (0x2000, 0x205F), (0x3000, 0x3000), (0xFEFF, 0xFEFF)]

theorem outside_nameGaps :
    ∀ gap ∈ nameGaps, 0x80 ≤ gap.1 ∧ (∀ range ∈ alphabetic, range.2 < gap.1 ∨ gap.2 < range.1) ∧
      ∀ range ∈ numeric, range.2 < gap.1 ∨ gap.2 < range.1 := by
  decide +kernel

theorem CodePoints.has_eq_false {ranges : CodePoints} {first last : Nat} {c : Char}
    (outside : ∀ range ∈ ranges, range.2 < first ∨ last < range.1) (above : first ≤ c.toNat)
    (below : c.toNat ≤ last) : ranges.has c = false := by
  refine List.any_eq_false.2 fun range mem => ?_
  have apart := outside range mem
  simp only [Bool.and_eq_true, decide_eq_true_eq]
  omega

theorem not_isNamePart_of_nameGaps {c : Char} (inGap : nameGaps.has c = true) :
    isNamePart c = false := by
  obtain ⟨gap, mem, inside⟩ := List.any_eq_true.1 inGap
  simp only [Bool.and_eq_true, decide_eq_true_eq] at inside
  obtain ⟨above, below⟩ := inside
  obtain ⟨wide, letters, numerals⟩ := outside_nameGaps gap mem
  have other : c ≠ '_' := by
    rintro rfl
    have code : ('_').toNat = 0x5F := rfl
    omega
  rw [isNamePart, isLetterOrDigit, if_neg (by omega), CodePoints.has_eq_false letters above below,
    CodePoints.has_eq_false numerals above below, beq_false_of_ne other]
  rfl

theorem isNamePart_of_isNameStart {c : Char} (start : isNameStart c = true) :
    isNamePart c = true := by
  simp only [isNameStart, isLetter, isNamePart, isLetterOrDigit, Bool.or_eq_true] at start ⊢
  split at start
  · next ascii =>
    exact start.imp_left fun alpha => by rw [if_pos ascii, Char.isAlphanum, alpha, Bool.true_or]
  · next wide => exact start.imp_left fun alpha => by rw [if_neg wide, alpha, Bool.true_or]

theorem not_isNamePart_of_isBlank {c : Char} (blank : isBlank c = true) : isNamePart c = false := by
  simp only [isBlank, Bool.or_eq_true, Bool.and_eq_true, decide_eq_true_eq, beq_iff_eq] at blank
  rcases Nat.lt_or_ge c.toNat 0x80 with ascii | wide
  · have code : c.toNat ∈ [9, 10, 11, 12, 13, 0x20] := by
      simp only [List.mem_cons, List.not_mem_nil, or_false]
      omega
    have none : ∀ n ∈ [9, 10, 11, 12, 13, 0x20], isNamePart (Char.ofNat n) = false := by decide
    simpa using none c.toNat code
  · refine not_isNamePart_of_nameGaps ?_
    simp only [nameGaps, CodePoints.has, List.any_cons, List.any_nil, Bool.or_eq_true,
      Bool.and_eq_true, decide_eq_true_eq]
    omega

theorem not_isNamePart_byteOrderMark : isNamePart '\uFEFF' = false := not_isNamePart_of_nameGaps rfl

end GoSplit.Text
