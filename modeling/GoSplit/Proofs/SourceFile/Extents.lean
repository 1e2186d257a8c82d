import GoSplit.Proofs.SourceFile.Alike

/-!
What an extent depends on. Reading a declaration, the parser looks past a token only as
far as the next one that is no comment, so the extent of a declaration is found again
whatever follows it, as long as its last token ends a statement and a line break or the
end of the input comes next; one that a semicolon ends is found again in front of the
same semicolon.
-/

namespace GoSplit

/-- The next line break is no matter of what follows a token that is no comment. -/
theorem breaksBeforeNext_append_cons {z : Token} (code : z.isComment = false)
    (ts x y : List Token) :
    breaksBeforeNext (ts ++ z :: x) = breaksBeforeNext (ts ++ z :: y) := by
  induction ts with
  | nil => simp [breaksBeforeNext, code]
  | cons t ts ih => simp [breaksBeforeNext, ih]

theorem breaksBeforeNext_comments {cs next : List Token} (comments : ∀ c ∈ cs, c.isComment = true)
    (apart : ∀ t ∈ next.head?, t.onNewLine = true) : breaksBeforeNext (cs ++ next) = true := by
  induction cs with
  | nil =>
    cases next with
    | nil => rfl
    | cons t ts => simp [breaksBeforeNext, apart t rfl]
  | cons c cs ih =>
    have comment := comments c (by simp)
    have rest := ih fun c mem => comments c (by simp [mem])
    simp [breaksBeforeNext, comment, rest]

/-- Comments in front of something that goes on the same line are on that line. -/
theorem not_onNewLine_of_breaks {cs next : List Token} (comments : ∀ c ∈ cs, c.isComment = true)
    (h : breaksBeforeNext (cs ++ next) = false) :
    (∀ c ∈ cs, c.onNewLine = false) ∧ ∀ t ∈ next.head?, t.onNewLine = false := by
  induction cs with
  | nil =>
    cases next with
    | nil => simp
    | cons t ts =>
      simp only [List.nil_append, breaksBeforeNext, Bool.or_eq_false_iff] at h
      simpa using h.1
  | cons c cs ih =>
    have comment := comments c (by simp)
    simp only [List.cons_append, breaksBeforeNext, comment, Bool.true_and,
      Bool.or_eq_false_iff] at h
    have rest := ih (fun c mem => comments c (by simp [mem])) h.2.2
    exact ⟨by simpa [h.1] using rest.1, rest.2⟩

namespace Extent

/-- The extent when `n` more tokens come first. -/
def shift (n : Nat) (e : Extent) : Extent := { e with size := e.size + n }

@[simp] theorem shift_zero (e : Extent) : e.shift 0 = e := rfl

theorem succ_shift (n : Nat) (e : Extent) : (e.shift n).succ = e.shift (n + 1) := by
  simp [succ, shift, Nat.add_assoc]

end Extent

theorem map_shift_succ (n : Nat) (result : Except ParseFault Extent) :
    (result.map (Extent.shift n)).map Extent.succ = result.map (Extent.shift (n + 1)) := by
  cases result with
  | error fault => rfl
  | ok e => simp [Except.map, Extent.succ_shift]

theorem map_succ_eq_ok {result : Except ParseFault Extent} {n : Nat} {terminated : Bool}
    (h : result.map Extent.succ = .ok ⟨n, terminated⟩) :
    ∃ m, n = m + 1 ∧ result = .ok ⟨m, terminated⟩ := by
  cases result with
  | error fault => simp [Except.map] at h
  | ok e =>
    simp only [Except.map, Extent.succ, Except.ok.injEq, Extent.mk.injEq] at h
    exact ⟨e.size, h.1.symm, by rw [← h.2]⟩

/-- Up to a token that is no comment, reading on does not depend on what follows it. -/
theorem extentFrom_pass {z : Token} (code : z.isComment = false) {core x : List Token} {n : Nat}
    {terminated : Bool} {stack : List Token}
    (h : extentFrom stack (core ++ z :: x) = .ok ⟨n, terminated⟩)
    (reached : core.length < n ∨ core.length = n ∧ terminated = true) :
    ∃ inner, ∀ y, extentFrom stack (core ++ z :: y) =
      (extentFrom inner (z :: y)).map (Extent.shift core.length) := by
  induction core generalizing stack n with
  | nil =>
    refine ⟨stack, fun y => ?_⟩
    cases result : extentFrom stack (z :: y) <;> simp [Except.map, result]
  | cons t core ih =>
    rw [List.cons_append, extentFrom] at h
    cases comment : t.isComment with
    | true =>
      rw [comment, if_pos rfl] at h
      obtain ⟨m, rfl, rest⟩ := map_succ_eq_ok h
      obtain ⟨inner, pass⟩ := ih rest (by simpa using reached)
      refine ⟨inner, fun y => ?_⟩
      rw [List.cons_append, extentFrom, comment, if_pos rfl, pass y, map_shift_succ]
      rfl
    | false =>
      rw [comment, if_neg (by simp)] at h
      by_cases stop : (t.kind == .semicolon && stack.isEmpty) = true
      · rw [if_pos stop] at h
        simp only [Except.ok.injEq, Extent.mk.injEq] at h
        simp only [List.length_cons] at reached
        omega
      · rw [if_neg stop] at h
        cases nested : nest stack t with
        | error fault => simp [nested] at h
        | ok inside =>
          simp only [nested] at h
          by_cases last : (inside.isEmpty && t.endsStatement &&
              breaksBeforeNext (core ++ z :: x)) = true
          · rw [if_pos last] at h
            simp only [Except.ok.injEq, Extent.mk.injEq] at h
            simp only [List.length_cons] at reached
            rcases reached with reached | ⟨-, reached⟩
            · omega
            · exact absurd h.2 (by simp [reached])
          · rw [if_neg last] at h
            obtain ⟨m, rfl, rest⟩ := map_succ_eq_ok h
            obtain ⟨inner, pass⟩ := ih rest (by simpa using reached)
            refine ⟨inner, fun y => ?_⟩
            rw [breaksBeforeNext_append_cons code core x y] at last
            rw [List.cons_append, extentFrom, comment, if_neg (by simp), if_neg stop]
            simp only [nested]
            rw [if_neg last, pass y, map_shift_succ]
            rfl

theorem extentFrom_comments {cs : List Token} (comments : ∀ c ∈ cs, c.isComment = true)
    (stack post : List Token) :
    extentFrom stack (cs ++ post) = (extentFrom stack post).map (Extent.shift cs.length) := by
  induction cs with
  | nil => cases result : extentFrom stack post <;> simp [Except.map, result]
  | cons c cs ih =>
    rw [List.cons_append, extentFrom, comments c (by simp), if_pos rfl,
      ih fun c mem => comments c (by simp [mem]), map_shift_succ]
    rfl

/-- Inside a delimiter nothing ends. -/
theorem extentFrom_size_pos {stack ts : List Token} {n : Nat} {terminated : Bool}
    (inside : stack ≠ []) (h : extentFrom stack ts = .ok ⟨n, terminated⟩) : 0 < n := by
  cases ts with
  | nil =>
    unfold extentFrom at h
    cases last : stack.getLast? with
    | none => exact absurd (List.getLast?_eq_none_iff.1 last) inside
    | some outermost => simp [last] at h
  | cons t ts =>
    have closed : stack.isEmpty = false := by simpa using inside
    rw [extentFrom] at h
    split at h
    · obtain ⟨m, rfl, -⟩ := map_succ_eq_ok h
      omega
    · rw [closed, Bool.and_false, if_neg (by simp)] at h
      split at h
      · simp at h
      · split at h
        · simp only [Except.ok.injEq, Extent.mk.injEq] at h
          omega
        · obtain ⟨m, rfl, -⟩ := map_succ_eq_ok h
          omega

/-- The last token of a declaration that is no comment is no semicolon. If it ends a
statement, it ends the declaration in front of every line break; and comments or a
semicolon that come before the end stand on its line. -/
theorem extentFrom_last {z : Token} (code : z.isComment = false) {before cs post : List Token}
    (comments : ∀ c ∈ cs, c.isComment = true) {terminated : Bool}
    (h : extentFrom [] (before ++ z :: (cs ++ post)) =
      .ok ⟨before.length + 1 + cs.length, terminated⟩) :
    z.kind ≠ .semicolon ∧
      (z.endsStatement = true →
        (∀ x, breaksBeforeNext x = true →
          extentFrom [] (before ++ z :: x) = .ok ⟨before.length + 1, false⟩) ∧
        (cs ≠ [] ∨ terminated = true → breaksBeforeNext (cs ++ post) = false)) := by
  obtain ⟨inner, pass⟩ := extentFrom_pass code h (.inl (by omega))
  have last : extentFrom inner (z :: (cs ++ post)) = .ok ⟨1 + cs.length, terminated⟩ := by
    rw [pass] at h
    cases result : extentFrom inner (z :: (cs ++ post)) with
    | error fault => simp [result, Except.map] at h
    | ok e =>
      obtain ⟨size, ended⟩ := e
      simp only [result, Except.map, Extent.shift, Except.ok.injEq, Extent.mk.injEq] at h
      obtain ⟨total, rfl⟩ := h
      have rest : size = 1 + cs.length := by omega
      rw [rest]
  -- The delimiters are closed behind the token, since nothing ends inside them.
  have outside : ∀ inside, (extentFrom inside (cs ++ post)).map Extent.succ =
      .ok ⟨1 + cs.length, terminated⟩ → inside = [] := by
    intro inside rest
    by_contra deep
    obtain ⟨m, size, rest⟩ := map_succ_eq_ok rest
    rw [extentFrom_comments comments] at rest
    cases result : extentFrom inside post with
    | error fault => simp [result, Except.map] at rest
    | ok e =>
      have pos := extentFrom_size_pos deep result
      simp only [result, Except.map, Extent.shift, Except.ok.injEq, Extent.mk.injEq] at rest
      omega
  rw [extentFrom, code, if_neg (by simp)] at last
  by_cases stop : (z.kind == .semicolon && inner.isEmpty) = true
  · rw [if_pos stop] at last
    simp only [Except.ok.injEq, Extent.mk.injEq] at last
    omega
  · rw [if_neg stop] at last
    cases nested : nest inner z with
    | error fault => simp [nested] at last
    | ok inside =>
      simp only [nested] at last
      have closed : inside = [] := by
        split at last
        · next ends => simp_all
        · exact outside inside last
      subst closed
      refine ⟨?_, fun ends => ⟨fun x breaks => ?_, fun more => ?_⟩⟩
      · intro semicolon
        have : nest inner z = .ok inner := by simp [nest, semicolon]
        rw [this] at nested
        simp_all
      · rw [pass, extentFrom, code, if_neg (by simp), if_neg stop]
        simp [nested, ends, breaks, Except.map, Extent.shift, Nat.add_comm]
      · by_contra breaks
        rw [Bool.not_eq_false] at breaks
        simp only [List.isEmpty_nil, ends, breaks, Bool.and_self, if_true, Except.ok.injEq,
          Extent.mk.injEq] at last
        rcases more with more | more
        · have := List.length_pos_iff.2 more
          omega
        · exact absurd last.2 (by simp [more])

theorem drop_of_terminated {stack ts : List Token} {n : Nat}
    (h : extentFrom stack ts = .ok ⟨n, true⟩) :
    ∃ semicolon post, semicolon.kind = .semicolon ∧ ts.drop n = semicolon :: post := by
  induction ts generalizing stack n with
  | nil =>
    unfold extentFrom at h
    split at h <;> simp at h
  | cons t ts ih =>
    rw [extentFrom] at h
    split at h
    · obtain ⟨m, rfl, rest⟩ := map_succ_eq_ok h
      exact ih rest
    · split at h
      · next stop =>
        simp only [Except.ok.injEq, Extent.mk.injEq, and_true] at h
        subst h
        rw [Bool.and_eq_true, beq_iff_eq] at stop
        exact ⟨t, ts, stop.1, rfl⟩
      · split at h
        · simp at h
        · split at h
          · simp at h
          · obtain ⟨m, rfl, rest⟩ := map_succ_eq_ok h
            exact ih rest

theorem extentFrom_size_le {stack ts : List Token} {n : Nat} {terminated : Bool}
    (h : extentFrom stack ts = .ok ⟨n, terminated⟩) : n ≤ ts.length := by
  induction ts generalizing stack n with
  | nil =>
    unfold extentFrom at h
    split at h
    · simp at h
    · simp_all
  | cons t ts ih =>
    rw [extentFrom] at h
    split at h
    · obtain ⟨m, rfl, rest⟩ := map_succ_eq_ok h
      exact Nat.succ_le_succ (ih rest)
    · split at h
      · simp only [Except.ok.injEq, Extent.mk.injEq] at h
        omega
      · split at h
        · simp at h
        · split at h
          · simp only [Except.ok.injEq, Extent.mk.injEq] at h
            simp only [List.length_cons]
            omega
          · obtain ⟨m, rfl, rest⟩ := map_succ_eq_ok h
            exact Nat.succ_le_succ (ih rest)

/-- A declaration that a semicolon ends has it behind its last token, whatever follows. -/
theorem extentFrom_terminated {ts : List Token} {n : Nat}
    (h : extentFrom [] ts = .ok ⟨n, true⟩) :
    ∃ semicolon post, semicolon.kind = .semicolon ∧ ts.drop n = semicolon :: post ∧
      ∀ y, extentFrom [] (ts.take n ++ semicolon :: y) = .ok ⟨n, true⟩ := by
  obtain ⟨semicolon, post, kind, cut⟩ := drop_of_terminated h
  refine ⟨semicolon, post, kind, cut, fun y => ?_⟩
  have whole : ts = ts.take n ++ semicolon :: post := by
    rw [← cut, List.take_append_drop]
  have size : (ts.take n).length = n := by
    rw [List.length_take]
    exact Nat.min_eq_left (extentFrom_size_le h)
  have code : semicolon.isComment = false := by simp [Token.isComment, kind]
  rw [whole] at h
  obtain ⟨inner, pass⟩ := extentFrom_pass code h (.inr ⟨size, rfl⟩)
  -- Inside a delimiter the semicolon would not be the end.
  have outside : inner = [] := by
    by_contra deep
    rw [pass] at h
    cases result : extentFrom inner (semicolon :: post) with
    | error fault => simp [result, Except.map] at h
    | ok e =>
      have pos := extentFrom_size_pos deep result
      simp only [result, Except.map, Extent.shift, Except.ok.injEq, Extent.mk.injEq] at h
      omega
  rw [pass, outside, extentFrom, code, if_neg (by simp)]
  simp [kind, Except.map, Extent.shift, size]

end GoSplit
