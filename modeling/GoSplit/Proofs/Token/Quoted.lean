import GoSplit.ImportPath
import GoSplit.Proofs.Token.Reads

/-!
String literals and what stands between their quotes. A path without quote, backslash and
line break can be put between double quotes, and the literal holds that path.
-/

namespace GoSplit.Token

/-- Characters that an interpreted literal cannot show as they are. -/
def Plain (path : Text) : Prop := '"' ∉ path ∧ '\\' ∉ path ∧ '\n' ∉ path

instance (path : Text) : Decidable (Plain path) :=
  inferInstanceAs (Decidable ('"' ∉ path ∧ '\\' ∉ path ∧ '\n' ∉ path))

/-- The text can stand between double quotes. -/
def Fits (t : Text) : Prop := ∀ rest, quotedLength '"' (t ++ '"' :: rest) = some (t.length + 1)

theorem fits_nil : Fits [] := quotedLength_quote '"'

theorem Fits.append {s t : Text} (plain : Plain s) (h : Fits t) : Fits (s ++ t) := by
  induction s with
  | nil => exact h
  | cons c cs ih =>
    obtain ⟨quote, back, newline⟩ := plain
    rw [List.mem_cons, not_or] at quote back newline
    intro rest
    rw [List.cons_append, List.cons_append, quotedLength_cons (Ne.symm quote.1)
      (Ne.symm newline.1) (Ne.symm back.1), ih ⟨quote.2, back.2, newline.2⟩]
    rfl

theorem Plain.fits {t : Text} (h : Plain t) : Fits t := by
  simpa using fits_nil.append h

theorem Fits.reads {t : Text} (h : Fits t) (rest : Text) :
    Reads .string (ImportPath.quote t) rest := by
  refine ⟨'"', t ++ ['"'], rfl, rfl, ?_⟩
  have length : quotedLength '"' (t ++ ['"'] ++ rest) = some (t ++ ['"']).length := by
    rw [List.append_assoc, List.singleton_append, h, List.length_append]
    rfl
  simp only [scan, length, required]

@[simp] theorem dropLast_tail_quote (path : Text) :
    (ImportPath.quote path).tail.dropLast = path := by
  simp [ImportPath.quote]

/-- A literal ends with the quote that closes it. -/
theorem getLast?_take_quotedLength {quote : Char} {s : Text} {n : Nat}
    (h : quotedLength quote s = some n) : (s.take n).getLast? = some quote := by
  have longer : ∀ {t : Text} (c : Char), t.getLast? = some quote →
      (c :: t).getLast? = some quote := by
    intro t c last
    rw [List.getLast?_cons, last]
    rfl
  fun_induction quotedLength quote s generalizing n with
  | case1 => simp at h
  | case2 cs =>
    obtain rfl : n = 1 := by simpa using h.symm
    rfl
  | case3 => simp at h
  | case4 => simp at h
  | case5 d rest _ _ ih =>
    obtain ⟨m, found, rfl⟩ := Option.map_eq_some_iff.1 h
    exact longer _ (longer _ (ih found))
  | case6 c cs _ _ _ ih =>
    obtain ⟨m, found, rfl⟩ := Option.map_eq_some_iff.1 h
    exact longer _ (ih found)

theorem scan_eq_string {c : Char} {s : Text} {n : Nat} (h : scan c s = .ok (.string, n)) :
    c = '"' ∧ quotedLength '"' s = some n := by
  unfold scan at h
  split at h
  case h_3 => exact ⟨rfl, (required_eq_ok h).2⟩
  case h_19 =>
    split at h
    · simp at h
    · split at h <;> simp at h
  case h_7 => split at h <;> simp at h
  all_goals
    first
    | exact absurd (required_eq_ok h).1 (by simp)
    | simp at h

/-- An interpreted literal is what it holds, between double quotes. -/
theorem Reads.quote_eq {text rest : Text} (h : Reads .string text rest) :
    ImportPath.quote text.tail.dropLast = text := by
  obtain ⟨c, body, rfl, -, read⟩ := h
  obtain ⟨rfl, length⟩ := scan_eq_string read
  have last := getLast?_take_quotedLength length
  rw [List.take_left] at last
  obtain ⟨inner, rfl⟩ := List.getLast?_eq_some_iff.1 last
  simp [ImportPath.quote]

end GoSplit.Token
