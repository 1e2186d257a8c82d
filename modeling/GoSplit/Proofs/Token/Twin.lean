import GoSplit.Proofs.Token.Moved
import GoSplit.Proofs.Token.Spellings

/-!
Tokens with other string literals among them. What stands between the tokens stays, and
so does every token that is no string literal; the tokens of the changed text are the
changed tokens, because both quotes look alike to whatever stands in front of them.
-/

namespace GoSplit.Token

open List (Forall₂)

/-- The same token in another place, or another string literal in its place. -/
structure Twin (t u : Token) : Prop where
  gap : t.gap = u.gap
  shape : t.kind = u.kind ∧ t.text = u.text ∨
    t.isString = true ∧ u.isString = true ∧
      (t.text.tail.dropLast = [] ↔ u.text.tail.dropLast = [])

namespace Twin

variable {t u : Token} (h : Twin t u)
include h

theorem alike : Alike t u := by
  refine ⟨by rw [h.gap], ?_⟩
  rcases h.shape with same | ⟨left, right, -⟩
  · exact .inl same
  · exact .inr (.inl ⟨left, right⟩)

/-- What is no string literal stays as it is. -/
theorem same (other : t.isString = false) : Same t u := by
  rcases h.shape with ⟨kind, text⟩ | ⟨string, -⟩
  · exact ⟨kind, h.gap, text⟩
  · simp [other] at string

theorem same_of_isComment (comment : t.isComment = true) : Same t u := by
  refine h.same ?_
  rcases isComment_iff.1 comment with kind | kind <;> simp [isString, kind]

theorem isString_eq : t.isString = u.isString := by
  rcases h.shape with ⟨kind, -⟩ | ⟨left, right, -⟩
  · rw [isString, isString, kind]
  · rw [left, right]

end Twin

theorem same_of_twin {ts us : List Token} (h : Forall₂ Twin ts us)
    (comments : ∀ t ∈ ts, t.isComment = true) : Forall₂ Same ts us := by
  induction h with
  | nil => exact .nil
  | @cons t u ts us twin _ ih =>
    rw [List.forall_mem_cons] at comments
    exact .cons (twin.same_of_isComment comments.1) (ih comments.2)

theorem spell_congr {ts us : List Token} (h : Forall₂ Same ts us) : spell ts = spell us := by
  have behind : ∀ {ts us : List Token}, Forall₂ Same ts us →
      (ts.flatMap fun t => t.gap ++ t.text) = us.flatMap fun u => u.gap ++ u.text := by
    intro ts us h
    induction h with
    | nil => rfl
    | cons same _ ih => rw [List.flatMap_cons, List.flatMap_cons, same.gap, same.text, ih]
  cases h with
  | nil => rfl
  | cons same more => rw [spell, spell, same.text, behind more]

/-! ### Literals -/

theorem Fits.dropSlashes {t : Text} (h : Fits t) : Fits (t.dropWhile (· == '/')) := by
  induction t with
  | nil => exact h
  | cons c cs ih =>
    rw [List.dropWhile_cons]
    split
    · next slash =>
      obtain rfl : c = '/' := by simpa using slash
      refine ih fun rest => ?_
      have whole := h rest
      rw [List.cons_append, quotedLength_cons (by decide) (by decide) (by decide)] at whole
      obtain ⟨n, found, eq⟩ := Option.map_eq_some_iff.1 whole
      rw [found, Option.some.injEq]
      simpa using eq
    · exact h

/-- What an interpreted literal holds fits between double quotes. -/
theorem Reads.fits {text rest : Text} (h : Reads .string text rest) : Fits text.tail.dropLast := by
  have whole := h.quote_eq
  obtain ⟨c, body, rfl, -, read⟩ := h
  obtain ⟨rfl, length⟩ := scan_eq_string read
  rw [List.tail_cons] at whole ⊢
  have eq : body.dropLast ++ ['"'] = body := by simpa [ImportPath.quote] using whole
  intro more
  have stable := (quotedLength_take length).2 more
  rw [List.take_left] at stable
  have shape : body.dropLast ++ '"' :: more = body ++ more := by
    conv => rhs; rw [← eq]
    simp
  rw [shape, stable, ← eq]
  simp

/-- A string literal starts with one of the two quotes. -/
theorem Reads.front_of_isString {t : Token} {rest : Text} (h : Reads t.kind t.text rest)
    (string : t.isString = true) : ∃ c body, t.text = c :: body ∧ front c = '"' := by
  obtain ⟨c, body, eq, -, read⟩ := h
  refine ⟨c, body, eq, ?_⟩
  rcases isString_iff.1 string with kind | kind <;> rw [kind] at read
  · rw [(scan_eq_string read).1]
    rfl
  · rw [(scan_eq_rawString read).1]
    rfl

/-! ### Other literals in a text -/

/-- The token stays, or an interpreted literal stands for it. -/
structure Requoted (t u : Token) : Prop where
  gap : t.gap = u.gap
  shape : t.kind = u.kind ∧ t.text = u.text ∨
    t.isString = true ∧ t.text.tail.dropLast ≠ [] ∧ u.kind = .string ∧
      ∃ path, path ≠ [] ∧ Fits path ∧ u.text = ImportPath.quote path

theorem Requoted.twin {t u v : Token} (h : Requoted t u) (same : Same v u) : Twin v t := by
  refine ⟨same.gap.trans h.gap.symm, ?_⟩
  rcases h.shape with ⟨kind, text⟩ | ⟨string, some, kind, path, some', -, text⟩
  · exact .inl ⟨same.kind.trans kind.symm, same.text.trans text.symm⟩
  · refine .inr ⟨by simp [isString, same.kind, kind], string, ?_⟩
    rw [same.text, text, dropLast_tail_quote]
    simp [some, some']

theorem sameFront_append (common : Text) {a b : Text}
    (h : a = b ∨ ∃ c cs d ds, a = c :: cs ∧ b = d :: ds ∧ front c = front d ∧ c ≠ '.' ∧ c ≠ '\r') :
    SameFront (common ++ a) (common ++ b) := by
  rcases h with rfl | apart
  · exact .inl rfl
  · rcases common with _ | ⟨x, _ | ⟨y, more⟩⟩
    · exact .inr apart
    · obtain ⟨c, cs, d, ds, rfl, rfl, same, -⟩ := apart
      exact .inl (by simp [same])
    · exact .inl (by simp)

/-- The texts part at the first literal that changes. -/
theorem sameFront_of_requoted {ts us : List Token} {tail : Text} (h : Chained ts tail)
    (changed : Forall₂ Requoted ts us) : SameFront (written ts ++ tail) (written us ++ tail) := by
  have part : ∃ common a b, written ts ++ tail = common ++ a ∧ written us ++ tail = common ++ b ∧
      (a = b ∨ ∃ c cs d ds, a = c :: cs ∧ b = d :: ds ∧ front c = front d ∧ c ≠ '.' ∧
        c ≠ '\r') := by
    induction changed with
    | nil => exact ⟨tail, [], [], by simp, by simp, .inl rfl⟩
    | @cons t u ts us here _ ih =>
      obtain ⟨-, reads, more⟩ := h
      rcases here.shape with ⟨-, text⟩ | ⟨string, -, -, path, -, -, text⟩
      · obtain ⟨common, a, b, left, right, apart⟩ := ih more
        refine ⟨t.gap ++ t.text ++ common, a, b, ?_, ?_, apart⟩
        · rw [written_cons, List.append_assoc, left, ← List.append_assoc]
        · rw [written_cons, ← here.gap, ← text, List.append_assoc, right, ← List.append_assoc]
      · obtain ⟨c, body, eq, quote⟩ := reads.front_of_isString string
        have behind : u.text ++ (written us ++ tail) =
            '"' :: (path ++ ['"'] ++ (written us ++ tail)) := by
          rw [text]
          rfl
        refine ⟨t.gap, t.text ++ (written ts ++ tail), u.text ++ (written us ++ tail), by simp,
          by simp [here.gap],
          .inr ⟨c, _, '"', _, by rw [eq, List.cons_append], behind, quote, ?_, ?_⟩⟩
        · rintro rfl
          exact absurd quote (by decide)
        · rintro rfl
          exact absurd quote (by decide)
  obtain ⟨common, a, b, left, right, apart⟩ := part
  rw [left, right]
  exact sameFront_append common apart

/-- Tokens stay tokens when literals among them change. -/
theorem Chained.requoted {ts us : List Token} {tail : Text} (h : Chained ts tail)
    (changed : Forall₂ Requoted ts us) : Chained us tail := by
  induction changed with
  | nil => trivial
  | @cons t u ts us here others ih =>
    obtain ⟨blank, reads, more⟩ := h
    refine ⟨here.gap ▸ blank, ?_, ih more⟩
    rcases here.shape with ⟨kind, text⟩ | ⟨-, -, kind, path, -, fits, text⟩
    · rw [← kind, ← text]
      exact reads.congr (sameFront_of_requoted more others)
    · rw [kind, text]
      exact fits.reads _

end GoSplit.Token
