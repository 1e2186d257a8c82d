import GoSplit.Proofs.Selector.Nesting

/-!
Signatures in front of the next declaration. The names of a function are read from its own
code, with one exception: a function type at the end of a declaration and a method below it
are read as one signature, whose body is that of the method. The method's own keyword then
finds the same body again.
-/

namespace GoSplit.Signature

/-! ### One equation for each way to start -/

section

variable {t : Token} {ts after : List Token} {names : List Text}

/-- The body that opens on the line where results in parentheses end. -/
def bodyAt (names : List Text) (ts : List Token) : Option (Nat × List Text) :=
  (ts.head?.filter fun t => t.kind == .opening .curly && !t.onNewLine).map
    fun t => (t.start, names)

theorem results_paren (kind : t.kind = .opening .paren) (line : t.onNewLine = false)
    (found : listNames false ts = some (names, after)) :
    results (t :: ts) = bodyAt names after := by
  obtain ⟨kind, gap, text, start⟩ := t
  subst kind
  rw [Token.onNewLine] at line
  simp only [results, line, found, bodyAt]
  cases after with
  | nil => rfl
  | cons body rest =>
    simp only [List.head?_cons, Option.filter, Bool.and_eq_true, beq_iff_eq]
    split <;> simp_all

theorem results_unclosed (kind : t.kind = .opening .paren) (line : t.onNewLine = false)
    (unclosed : listNames false ts = none) : results (t :: ts) = none := by
  obtain ⟨kind, gap, text, start⟩ := t
  subst kind
  rw [Token.onNewLine] at line
  simp [results, line, unclosed]

theorem results_scan (h : ∀ t ∈ ts.head?, t.kind = .opening .paren → t.onNewLine = true) :
    results ts = (bodyAfterResult 0 false ts).map fun body => (body, []) := by
  unfold results
  split
  · next gap text start rest =>
    have line : gap.hasNewline = true := h _ rfl rfl
    rw [if_pos line]
  · rfl

/-- Parameters, results and body behind the type parameters. -/
def listed (typeNames : List Text) (ts : List Token) : Option (Nat × List Text) :=
  match ts with
  | ⟨.opening .paren, _, _, _⟩ :: rest =>
    match listNames false rest with
    | some (names, after) =>
      (results after).map fun (body, more) => (body, typeNames ++ names ++ more)
    | none => none
  | _ => none

theorem listed_paren (typeNames : List Text) (kind : t.kind = .opening .paren)
    (found : listNames false ts = some (names, after)) :
    listed typeNames (t :: ts) =
      (results after).map fun x => (x.1, typeNames ++ names ++ x.2) := by
  obtain ⟨kind, gap, text, start⟩ := t
  subst kind
  simp only [listed, found]

theorem listed_unclosed (typeNames : List Text) (kind : t.kind = .opening .paren)
    (unclosed : listNames false ts = none) : listed typeNames (t :: ts) = none := by
  obtain ⟨kind, gap, text, start⟩ := t
  subst kind
  simp [listed, unclosed]

theorem listed_other (typeNames : List Text) (h : ∀ t ∈ ts.head?, t.kind ≠ .opening .paren) :
    listed typeNames ts = none := by
  unfold listed
  split
  · exact absurd rfl (h _ rfl)
  · rfl

theorem parameters_square (kind : t.kind = .opening .square)
    (found : listNames true ts = some (names, after)) :
    parameters (t :: ts) = listed names after := by
  obtain ⟨kind, gap, text, start⟩ := t
  subst kind
  simp only [parameters, found]
  rcases after with _ | ⟨⟨kind, gap, text, start⟩, rest⟩
  · rfl
  · cases kind <;> try rfl
    next bracket => cases bracket <;> rfl

theorem parameters_unclosed (kind : t.kind = .opening .square)
    (unclosed : listNames true ts = none) : parameters (t :: ts) = none := by
  obtain ⟨kind, gap, text, start⟩ := t
  subst kind
  simp [parameters, unclosed]

theorem parameters_other (h : ∀ t ∈ ts.head?, t.kind ≠ .opening .square) :
    parameters ts = listed [] ts := by
  unfold parameters
  split
  · exact absurd rfl (h _ rfl)
  · rcases ts with _ | ⟨⟨kind, gap, text, start⟩, rest⟩
    · rfl
    · cases kind <;> try rfl
      cases ‹Bracket› <;> rfl

theorem bindings_paren (kind : t.kind = .opening .paren)
    (found : listNames false ts = some (names, after)) :
    bindings (t :: ts) =
      (if namesMethod after then parameters after.tail else results after).map
        fun x => (x.1, names ++ x.2) := by
  obtain ⟨kind, gap, text, start⟩ := t
  subst kind
  simp only [bindings, found]

theorem bindings_unclosed (kind : t.kind = .opening .paren)
    (unclosed : listNames false ts = none) : bindings (t :: ts) = none := by
  obtain ⟨kind, gap, text, start⟩ := t
  subst kind
  simp [bindings, unclosed]

theorem bindings_ident (kind : t.kind = .ident) : bindings (t :: ts) = parameters ts := by
  obtain ⟨kind, gap, text, start⟩ := t
  subst kind
  rfl

theorem bindings_other (h : ∀ t ∈ ts.head?, t.kind ≠ .opening .paren ∧ t.kind ≠ .ident) :
    bindings ts = parameters ts := by
  unfold bindings
  split
  · exact absurd rfl (h _ rfl).1
  · exact absurd rfl (h _ rfl).2
  · rfl

end

/-! ### Reading in front of what stops a declaration -/

section

variable {next : List Token} (stops : Stops next)
include stops

theorem Stops.kind_ne (bracket : Bracket) : ∀ t ∈ next.head?, t.kind ≠ .opening bracket := by
  intro t mem
  rcases stops t mem with kind | ⟨kind, -⟩ | kind | ⟨bracket, kind⟩ <;> simp [kind]

/-- Results and body are found in the code itself. -/
theorem results_append {outer : List Bracket} {ts : List Token} (h : Balances outer ts) :
    results (ts ++ next) = results ts := by
  have scan := @bodyAfterResult_append next stops [] outer ts h false
  rw [List.length_nil] at scan
  cases ts with
  | nil =>
    rw [List.nil_append] at scan ⊢
    rw [results_scan, scan]
    · rfl
    · exact fun t mem paren => absurd paren (stops.kind_ne .paren t mem)
  | cons t ts =>
    by_cases paren : t.kind = .opening .paren ∧ t.onNewLine = false
    · obtain ⟨kind, line⟩ := paren
      rw [balances_opening kind] at h
      obtain ⟨names, after, -, -, alone⟩ := exists_listNames false h
      have found := listNames_append alone next
      rw [List.cons_append, results_paren kind line found, results_paren kind line alone]
      cases after with
      | cons body after => rfl
      | nil =>
        -- What stops the declaration is no body.
        cases next with
        | nil => rfl
        | cons t next => simp [bodyAt, stops.kind_ne .curly t rfl, Option.filter]
    · have line : t.kind = .opening .paren → t.onNewLine = true := by
        intro kind
        simpa [kind] using paren
      rw [results_scan, results_scan, scan]
      · simpa using line
      · simpa using line

/-- Parameters, results and body are found in the code itself. -/
theorem listed_append (typeNames : List Text) {outer : List Bracket} {ts : List Token}
    (h : Balances outer ts) : listed typeNames (ts ++ next) = listed typeNames ts := by
  cases ts with
  | nil =>
    rw [List.nil_append, listed_other typeNames (stops.kind_ne .paren)]
    rfl
  | cons t ts =>
    by_cases kind : t.kind = .opening .paren
    · rw [balances_opening kind] at h
      obtain ⟨names, after, -, rest, alone⟩ := exists_listNames false h
      have found := listNames_append alone next
      rw [List.cons_append, listed_paren typeNames kind found,
        listed_paren typeNames kind alone, results_append stops rest]
    · rw [listed_other, listed_other]
      · simpa using kind
      · simpa using kind

theorem parameters_append {outer : List Bracket} {ts : List Token} (h : Balances outer ts) :
    parameters (ts ++ next) = parameters ts := by
  cases ts with
  | nil =>
    rw [List.nil_append, parameters_other (stops.kind_ne .square),
      listed_other [] (stops.kind_ne .paren)]
    rfl
  | cons t ts =>
    by_cases kind : t.kind = .opening .square
    · rw [balances_opening kind] at h
      obtain ⟨names, after, -, rest, alone⟩ := exists_listNames true h
      have found := listNames_append alone next
      rw [List.cons_append, parameters_square kind found, parameters_square kind alone,
        listed_append stops names rest]
    · rw [parameters_other, parameters_other, listed_append stops [] h]
      · simpa using kind
      · simpa using kind

/-- The names of a signature are found in the code itself, unless the code ends with the
signature of a function type and the next declaration goes on like a method. -/
theorem bindings_append {outer : List Bracket} {ts : List Token} (h : Balances outer ts)
    (some : ts = [] → ∀ t ∈ next.head?, t.kind = .semicolon) :
    bindings (ts ++ next) = bindings ts ∨
      bindings ts = none ∧ namesMethod next = true ∧ ∃ names,
        bindings (ts ++ next) = (parameters next.tail).map fun x => (x.1, names ++ x.2) := by
  cases ts with
  | nil =>
    left
    have semicolon := some rfl
    rw [List.nil_append, bindings_other, parameters_other (stops.kind_ne .square),
      listed_other [] (stops.kind_ne .paren)]
    · rfl
    · intro t mem
      simp [semicolon t mem]
  | cons t ts =>
    by_cases paren : t.kind = .opening .paren
    · rw [balances_opening paren] at h
      obtain ⟨names, after, -, rest, alone⟩ := exists_listNames false h
      have found := listNames_append alone next
      rw [List.cons_append, bindings_paren paren found, bindings_paren paren alone]
      cases method : namesMethod (after ++ next) with
      | false =>
        left
        have alone : namesMethod after = false := by
          match after, method with
          | [], _ => rfl
          | [_], _ => rfl
          | _ :: _ :: _, method => exact method
        simp only [alone, Bool.false_eq_true, if_false, results_append stops rest]
      | true =>
        match after, rest with
        | [], _ => exact .inr ⟨rfl, method, names, by simp⟩
        | [a], _ =>
          cases next with
          | nil => simp [namesMethod] at method
          | cons u next =>
            simp [namesMethod, stops.kind_ne .paren u rfl, stops.kind_ne .square u rfl] at method
        | a :: b :: after, rest =>
          left
          have named : a.kind = .ident := by
            simp only [namesMethod, List.cons_append, Bool.and_eq_true, beq_iff_eq] at method
            exact method.1
          have same : namesMethod (a :: b :: after) = true := method
          rw [balances_plain (by simp [Token.isPlain, named])] at rest
          have behind := parameters_append stops rest
          simp only [List.cons_append, List.tail_cons, same, if_true] at behind ⊢
          rw [behind]
    · left
      by_cases ident : t.kind = .ident
      · rw [balances_plain (by simp [Token.isPlain, ident])] at h
        rw [List.cons_append, bindings_ident ident, bindings_ident ident, parameters_append stops h]
      · rw [bindings_other, bindings_other, parameters_append stops h]
        · simpa using ⟨paren, ident⟩
        · simpa using ⟨paren, ident⟩

end

/-! ### Where bodies are found -/

theorem bodyAfterResult_mem {depth : Nat} {word : Bool} {ts : List Token} {body : Nat}
    (h : bodyAfterResult depth word ts = some body) : ∃ t ∈ ts, t.start = body := by
  induction ts generalizing depth word with
  | nil => simp [bodyAfterResult] at h
  | cons t ts ih =>
    have deeper : ∀ {depth : Nat} {word : Bool}, bodyAfterResult depth word ts = some body →
        ∃ u ∈ t :: ts, u.start = body := by
      intro depth word found
      obtain ⟨u, mem, start⟩ := ih found
      exact ⟨u, List.mem_cons_of_mem t mem, start⟩
    unfold bodyAfterResult at h
    split at h
    · simp at h
    · split at h
      · split at h
        · exact ⟨t, List.mem_cons_self .., Option.some.inj h⟩
        · exact deeper h
      · exact deeper h
      · split at h
        · simp at h
        · exact deeper h
      · split at h
        · simp at h
        · exact deeper h
      · split at h
        · simp at h
        · exact deeper h
      · split at h
        · simp at h
        · exact deeper h
      · exact deeper h

section

variable {outer : List Bracket} {ts : List Token} {body : Nat} {names : List Text}

theorem results_mem (h : Balances outer ts) (found : results ts = some (body, names)) :
    ∃ t ∈ ts, t.start = body := by
  by_cases paren : ∀ t ∈ ts.head?, t.kind = .opening .paren → t.onNewLine = true
  · rw [results_scan paren] at found
    obtain ⟨body', scanned, eq⟩ := Option.map_eq_some_iff.1 found
    obtain ⟨rfl, -⟩ := Prod.mk.inj eq
    exact bodyAfterResult_mem scanned
  · cases ts with
    | nil => simp at paren
    | cons t ts =>
      obtain ⟨kind, line⟩ : t.kind = .opening .paren ∧ t.onNewLine = false := by simpa using paren
      obtain ⟨names', after, suffix, -, read⟩ :=
        exists_listNames false ((balances_opening kind).1 h)
      rw [results_paren kind line read] at found
      obtain ⟨u, opens, eq⟩ := Option.map_eq_some_iff.1 found
      obtain ⟨rfl, -⟩ := Prod.mk.inj eq
      have mem : u ∈ after := List.mem_of_mem_head? (Option.filter_eq_some_iff.1 opens).1
      exact ⟨u, List.mem_cons_of_mem t (suffix.subset mem), rfl⟩

theorem listed_mem {typeNames : List Text} (h : Balances outer ts)
    (found : listed typeNames ts = some (body, names)) : ∃ t ∈ ts, t.start = body := by
  by_cases paren : ∀ t ∈ ts.head?, t.kind ≠ .opening .paren
  · simp [listed_other typeNames paren] at found
  · cases ts with
    | nil => simp at paren
    | cons t ts =>
      have kind : t.kind = .opening .paren := by simpa using paren
      obtain ⟨names', after, suffix, rest, read⟩ :=
        exists_listNames false ((balances_opening kind).1 h)
      rw [listed_paren typeNames kind read] at found
      obtain ⟨⟨body', more⟩, inside, eq⟩ := Option.map_eq_some_iff.1 found
      obtain ⟨rfl, -⟩ := Prod.mk.inj eq
      obtain ⟨u, mem, start⟩ := results_mem rest inside
      exact ⟨u, List.mem_cons_of_mem t (suffix.subset mem), start⟩

theorem parameters_mem (h : Balances outer ts) (found : parameters ts = some (body, names)) :
    ∃ t ∈ ts, t.start = body := by
  by_cases square : ∀ t ∈ ts.head?, t.kind ≠ .opening .square
  · rw [parameters_other square] at found
    exact listed_mem h found
  · cases ts with
    | nil => simp at square
    | cons t ts =>
      have kind : t.kind = .opening .square := by simpa using square
      obtain ⟨names', after, suffix, rest, read⟩ :=
        exists_listNames true ((balances_opening kind).1 h)
      rw [parameters_square kind read] at found
      obtain ⟨u, mem, start⟩ := listed_mem rest found
      exact ⟨u, List.mem_cons_of_mem t (suffix.subset mem), start⟩

/-- The body of a signature is part of the code that is read. -/
theorem bindings_mem (h : Balances outer ts) (found : bindings ts = some (body, names)) :
    ∃ t ∈ ts, t.start = body := by
  cases ts with
  | nil => exact parameters_mem h found
  | cons t ts =>
    by_cases paren : t.kind = .opening .paren
    · obtain ⟨names', after, suffix, rest, read⟩ :=
        exists_listNames false ((balances_opening paren).1 h)
      rw [bindings_paren paren read] at found
      obtain ⟨⟨body', more⟩, inside, eq⟩ := Option.map_eq_some_iff.1 found
      obtain ⟨rfl, -⟩ := Prod.mk.inj eq
      obtain ⟨u, mem, start⟩ : ∃ u ∈ after, u.start = body' := by
        split at inside
        · next method =>
          match after, method with
          | a :: b :: after, method =>
            have named : a.kind = .ident := by
              simp only [namesMethod, Bool.and_eq_true, beq_iff_eq] at method
              exact method.1
            rw [balances_plain (by simp [Token.isPlain, named])] at rest
            obtain ⟨u, mem, start⟩ := parameters_mem rest inside
            exact ⟨u, List.mem_cons_of_mem a mem, start⟩
        · exact results_mem rest inside
      exact ⟨u, List.mem_cons_of_mem t (suffix.subset mem), start⟩
    · by_cases ident : t.kind = .ident
      · rw [balances_plain (by simp [Token.isPlain, ident])] at h
        rw [bindings_ident ident] at found
        obtain ⟨u, mem, start⟩ := parameters_mem h found
        exact ⟨u, List.mem_cons_of_mem t mem, start⟩
      · rw [bindings_other (by simpa using ⟨paren, ident⟩)] at found
        exact parameters_mem h found

end

end GoSplit.Signature
