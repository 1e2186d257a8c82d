import GoSplit.Proofs.Token.Quoted

/-!
What tokens of some kinds look like: semicolons and dots are single characters, and a literal that
may be a path has a quote on both sides.
-/

namespace GoSplit.Token

variable {c : Char} {s text rest : Text} {n : Nat}

theorem scan_eq_semicolon (h : scan c s = .ok (.semicolon, n)) : c = ';' ∧ n = 0 := by
  unfold scan at h
  split at h
  case h_16 => exact ⟨rfl, by simpa using h.symm⟩
  case h_19 =>
    split at h
    · simp at h
    · split at h <;> simp at h
  case h_7 => split at h <;> simp at h
  all_goals
    first
    | exact absurd (required_eq_ok h).1 (by simp)
    | simp at h

theorem scan_eq_dot (h : scan c s = .ok (.dot, n)) : c = '.' ∧ n = 0 := by
  unfold scan at h
  split at h
  case h_19 =>
    split at h
    · simp at h
    · split at h <;> simp at h
  case h_7 =>
    split at h
    · simp at h
    · exact ⟨rfl, by simpa using h.symm⟩
  case h_8 => exact ⟨rfl, by simpa using h.symm⟩
  all_goals
    first
    | exact absurd (required_eq_ok h).1 (by simp)
    | simp at h

theorem scan_eq_rawString (h : scan c s = .ok (.rawString, n)) :
    c = '\x60' ∧ rawStringLength s = some n := by
  unfold scan at h
  split at h
  case h_4 => exact ⟨rfl, (required_eq_ok h).2⟩
  case h_19 =>
    split at h
    · simp at h
    · split at h <;> simp at h
  case h_7 => split at h <;> simp at h
  all_goals
    first
    | exact absurd (required_eq_ok h).1 (by simp)
    | simp at h

theorem Reads.eq_semicolon (h : Reads .semicolon text rest) : text = [';'] := by
  obtain ⟨c, body, rfl, -, read⟩ := h
  obtain ⟨rfl, size⟩ := scan_eq_semicolon read
  rw [List.length_eq_zero_iff.1 size]

theorem Reads.eq_dot (h : Reads .dot text rest) : text = ['.'] := by
  obtain ⟨c, body, rfl, -, read⟩ := h
  obtain ⟨rfl, size⟩ := scan_eq_dot read
  rw [List.length_eq_zero_iff.1 size]

/-- A raw literal ends with the quote that closes it. -/
theorem getLast?_take_rawStringLength (h : rawStringLength s = some n) :
    (s.take n).getLast? = some '\x60' := by
  fun_induction rawStringLength s generalizing n with
  | case1 => simp at h
  | case2 cs =>
    obtain rfl : n = 1 := by simpa using h.symm
    rfl
  | case3 c cs _ ih =>
    obtain ⟨m, found, rfl⟩ := Option.map_eq_some_iff.1 h
    rw [List.take_succ_cons, List.getLast?_cons, ih found]
    rfl

/-- A literal that may be a path is its content between two quotes of one byte. -/
theorem Reads.exists_quote {kind : Kind} (literal : kind = .string ∨ kind = .rawString)
    (h : Reads kind text rest) : ∃ (quote : Char) (inner : Text),
      quote.utf8Size = 1 ∧ text = quote :: (inner ++ [quote]) := by
  obtain ⟨c, body, rfl, -, read⟩ := h
  rcases literal with rfl | rfl
  · obtain ⟨rfl, length⟩ := scan_eq_string read
    have last := getLast?_take_quotedLength length
    rw [List.take_left] at last
    obtain ⟨inner, rfl⟩ := List.getLast?_eq_some_iff.1 last
    exact ⟨'"', inner, rfl, rfl⟩
  · obtain ⟨rfl, length⟩ := scan_eq_rawString read
    have last := getLast?_take_rawStringLength length
    rw [List.take_left] at last
    obtain ⟨inner, rfl⟩ := List.getLast?_eq_some_iff.1 last
    exact ⟨'\x60', inner, rfl, rfl⟩

end GoSplit.Token
