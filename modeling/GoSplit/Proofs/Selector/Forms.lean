import GoSplit.Proofs.Selector.Signatures

/-!
The forms of declarations for which signatures stay apart. A function has its parameters
behind its name, and a list of other declarations ends with its parenthesis; then a function
type at the end of the declaration above finds no other body than the function itself does.
-/

namespace GoSplit

/-- What follows a group in the given brackets at the head of the tokens. -/
def afterGroup (bracket : Bracket) : List Token → Option (List Token)
  | t :: ts => if t.kind = .opening bracket then (splitAtClose 0 ts).map Prod.snd else none
  | [] => none

/-- The tokens after the keyword of a function: perhaps a receiver, the name, perhaps type
parameters, the parameters, perhaps results and a body. Behind results in parentheses comes
the body or nothing. -/
def isFunction (ts : List Token) : Bool :=
  match (afterGroup .paren ts).getD ts with
  | name :: rest =>
    name.kind == .ident &&
      match afterGroup .paren ((afterGroup .square rest).getD rest) with
      | some behind =>
        ((afterGroup .paren behind).getD []).head?.all fun t => t.kind == .opening .curly
      | none => false
  | [] => false

/-- The tokens after the keyword of another declaration: a list in parentheses and nothing
behind it, or anything that does not start with a square bracket. -/
def isSpecs (ts : List Token) : Bool :=
  match afterGroup .paren ts with
  | some behind => behind.isEmpty
  | none => ts.head?.all fun t => t.kind != .opening .square

namespace Signature

section

variable {outer : List Bracket} {ts after : List Token} {bracket : Bracket}

/-- A group in balanced code. -/
theorem exists_of_afterGroup (h : Balances outer ts) (group : afterGroup bracket ts = some after) :
    ∃ t us inside, ts = t :: us ∧ t.kind = .opening bracket ∧ Balances outer after ∧
      splitAtClose 0 us = some (inside, after) ∧
      ∀ always, ∃ names, listNames always us = some (names, after) := by
  cases ts with
  | nil => simp [afterGroup] at group
  | cons t us =>
    rw [afterGroup] at group
    split at group
    · next kind =>
      obtain ⟨⟨inside, after'⟩, found, rfl⟩ := Option.map_eq_some_iff.1 group
      rw [balances_opening kind] at h
      obtain ⟨inside', close, after, -, split, -, rest⟩ :=
        @exists_splitAtClose [] outer bracket us h
      rw [List.length_nil, found] at split
      obtain ⟨rfl, rfl⟩ := Prod.mk.inj (Option.some.inj split)
      refine ⟨t, us, inside, rfl, kind, rest, found, fun always => ?_⟩
      have ends := splitEntries_snd 0 us
      rw [found] at ends
      obtain ⟨⟨entries, after⟩, entered, rfl⟩ := Option.map_eq_some_iff.1 ends
      refine ⟨entryNames always entries, ?_⟩
      rw [listNames, entered]
      rfl
    · simp at group

theorem exists_afterGroup {t : Token} {us : List Token} (h : Balances outer (t :: us))
    (kind : t.kind = .opening bracket) : ∃ after, afterGroup bracket (t :: us) = some after := by
  rw [balances_opening kind] at h
  obtain ⟨inside, close, after, -, split, -⟩ := @exists_splitAtClose [] outer bracket us h
  rw [List.length_nil] at split
  exact ⟨after, by simp [afterGroup, kind, split]⟩

end

section

variable {body : Nat}

/-- Inside delimiters nothing ends the scan for the body. -/
theorem bodyAfterResult_close {n : Nat} {word : Bool} {ts inside after : List Token}
    (split : splitAtClose n ts = some (inside, after)) :
    bodyAfterResult (n + 1) word ts = bodyAfterResult 0 false after := by
  induction ts generalizing n word inside with
  | nil => simp [splitAtClose] at split
  | cons t ts ih =>
    have deeper : ∀ {m : Nat} {word : Bool},
        (splitAtClose m ts).map (fun x => (t :: x.1, x.2)) = some (inside, after) →
        bodyAfterResult (m + 1) word ts = bodyAfterResult 0 false after := by
      intro m word found
      obtain ⟨⟨inside', after'⟩, split', eq⟩ := Option.map_eq_some_iff.1 found
      obtain ⟨-, rfl⟩ := Prod.mk.inj eq
      exact ih split'
    cases kind : t.kind with
    | opening b =>
      simp only [splitAtClose, kind] at split
      cases b <;> simp [bodyAfterResult, kind, deeper split]
    | closing b =>
      cases n with
      | zero =>
        have word : (t.isWord "struct" || t.isWord "interface") = false := by
          simp [Token.isWord, kind]
        simp only [splitAtClose, kind, Option.some.injEq, Prod.mk.injEq] at split
        simp [bodyAfterResult, kind, word, split.2]
      | succ m =>
        simp only [splitAtClose, kind] at split
        simp [bodyAfterResult, kind, deeper split]
    | _ =>
      simp only [splitAtClose, kind] at split
      simp [bodyAfterResult, kind, deeper split]

/-- The scan for the body passes over groups in parentheses and brackets. -/
theorem bodyAfterResult_group {bracket : Bracket} {word : Bool} {t : Token}
    {ts inside after : List Token} (kind : t.kind = .opening bracket) (round : bracket ≠ .curly)
    (split : splitAtClose 0 ts = some (inside, after))
    (found : bodyAfterResult 0 word (t :: ts) = some body) :
    bodyAfterResult 0 false after = some body := by
  rw [bodyAfterResult] at found
  split at found
  · simp at found
  · cases bracket with
    | curly => exact absurd rfl round
    | paren =>
      simp only [kind] at found
      rwa [bodyAfterResult_close split] at found
    | square =>
      simp only [kind] at found
      rwa [bodyAfterResult_close split] at found

/-- The scan for the body and the reader of the results find the same body. -/
theorem exists_results {ts : List Token} (h : Balances [] ts)
    (form : ((afterGroup .paren ts).getD []).head?.all fun t => t.kind == .opening .curly)
    (found : bodyAfterResult 0 false ts = some body) :
    ∃ names, results ts = some (body, names) := by
  by_cases paren : ∀ t ∈ ts.head?, t.kind = .opening .paren → t.onNewLine = true
  · exact ⟨[], by rw [results_scan paren, found]; rfl⟩
  · cases ts with
    | nil => simp at paren
    | cons t ts =>
      obtain ⟨kind, line⟩ : t.kind = .opening .paren ∧ t.onNewLine = false := by simpa using paren
      obtain ⟨after, group⟩ := exists_afterGroup h kind
      obtain ⟨t', us, inside, eq, -, -, split, read⟩ := exists_of_afterGroup h group
      obtain ⟨rfl, rfl⟩ := List.cons.inj eq
      obtain ⟨names, read⟩ := read false
      rw [results_paren kind line read]
      have scanned := bodyAfterResult_group kind (by simp) split found
      rw [group] at form
      cases after with
      | nil => simp [bodyAfterResult] at scanned
      | cons brace after =>
        have opens : brace.kind = .opening .curly := by simpa using form
        rw [bodyAfterResult] at scanned
        split at scanned
        · simp at scanned
        · next same =>
          simp only [opens] at scanned
          have start : brace.start = body := by simpa using scanned
          have sameLine : brace.onNewLine = false := by simpa using same
          exact ⟨names, by simp [bodyAt, opens, sameLine, start, Option.filter]⟩

/-- Behind the name of a function the scan for the body passes over the parameters. -/
theorem exists_parameters {word : Bool} {ts behind : List Token} (h : Balances [] ts)
    (group : afterGroup .paren ((afterGroup .square ts).getD ts) = some behind)
    (form : ((afterGroup .paren behind).getD []).head?.all fun t => t.kind == .opening .curly)
    (found : bodyAfterResult 0 word ts = some body) :
    (∃ t ∈ ts.head?, t.kind = .opening .paren ∨ t.kind = .opening .square) ∧
      ∃ names, parameters ts = some (body, names) := by
  -- With the type parameters behind, or none.
  have untyped : ∀ {word : Bool} {us : List Token} (typeNames : List Text), Balances [] us →
      afterGroup .paren us = some behind → bodyAfterResult 0 word us = some body →
      (∃ t ∈ us.head?, t.kind = .opening .paren) ∧
        ∃ names, listed typeNames us = some (body, names) := by
    intro word us typeNames balanced group found
    obtain ⟨t, us, inside, rfl, kind, rest, split, read⟩ := exists_of_afterGroup balanced group
    obtain ⟨names, read⟩ := read false
    obtain ⟨more, results⟩ := exists_results rest form
      (bodyAfterResult_group kind (by simp) split found)
    refine ⟨⟨t, rfl, kind⟩, typeNames ++ names ++ more, ?_⟩
    rw [listed_paren typeNames kind read, results]
    rfl
  cases square : afterGroup .square ts with
  | none =>
    rw [square, Option.getD_none] at group
    obtain ⟨⟨t, mem, kind⟩, names, listed⟩ := untyped [] h group found
    refine ⟨⟨t, mem, .inl kind⟩, names, ?_⟩
    rw [parameters_other, listed]
    intro u mem'
    obtain rfl := Option.some.inj (mem.symm.trans mem')
    simp [kind]
  | some after =>
    rw [square, Option.getD_some] at group
    obtain ⟨t, us, inside, rfl, kind, rest, split, read⟩ := exists_of_afterGroup h square
    obtain ⟨typeNames, read⟩ := read true
    obtain ⟨-, names, listed⟩ :=
      untyped typeNames rest group (bodyAfterResult_group kind (by simp) split found)
    exact ⟨⟨t, rfl, .inr kind⟩, names, by rw [parameters_square kind read, listed]⟩

/-- Read behind a function type, the receiver of a method is its parameters and the rest up
to the body its result. The method itself has the same body. -/
theorem bindings_of_parameters {ts : List Token} {names : List Text} (h : Balances [] ts)
    (form : isFunction ts = true) (found : parameters ts = some (body, names)) :
    ∃ names', bindings ts = some (body, names') := by
  unfold isFunction at form
  cases group : afterGroup .paren ts with
  | none =>
    rw [group, Option.getD_none] at form
    cases ts with
    | nil => simp at form
    | cons t ts =>
      -- Neither type parameters nor parameters come first.
      have ident : t.kind = .ident := by
        simp only [Bool.and_eq_true, beq_iff_eq] at form
        exact form.1
      rw [parameters_other (by simp [ident]), listed_other [] (by simp [ident])] at found
      simp at found
  | some after =>
    rw [group, Option.getD_some] at form
    obtain ⟨t, us, inside, rfl, kind, rest, split, read⟩ := exists_of_afterGroup h group
    obtain ⟨receiver, read⟩ := read false
    rw [parameters_other (by simp [kind]), listed_paren [] kind read] at found
    rw [bindings_paren kind read]
    cases after with
    | nil => simp at form
    | cons name after =>
      simp only [Bool.and_eq_true, beq_iff_eq] at form
      obtain ⟨ident, form⟩ := form
      rw [balances_plain (by simp [Token.isPlain, ident])] at rest
      rw [results_scan (by simp [ident]), Option.map_map] at found
      obtain ⟨body', scanned, eq⟩ := Option.map_eq_some_iff.1 found
      obtain ⟨rfl, -⟩ := Prod.mk.inj eq
      split at form
      · next behind params =>
        have passed : bodyAfterResult 0 (name.isWord "struct" || name.isWord "interface") after =
            some body' := by
          rw [bodyAfterResult] at scanned
          split at scanned
          · simp at scanned
          · simpa only [ident] using scanned
        obtain ⟨⟨u, mem, opens⟩, names', listed⟩ := exists_parameters rest params form passed
        have method : namesMethod (name :: after) = true := by
          cases after with
          | nil => simp at mem
          | cons v after =>
            obtain rfl := Option.some.inj mem
            simpa [namesMethod, ident] using opens
        rw [if_pos method, List.tail_cons, listed]
        exact ⟨_, rfl⟩
      · simp at form

/-- A list of declarations is no signature. -/
theorem parameters_of_isSpecs {ts next : List Token} (h : Balances [] ts) (form : isSpecs ts = true)
    (stops : Stops next) : parameters (ts ++ next) = none := by
  rw [parameters_append stops h]
  unfold isSpecs at form
  split at form
  · next behind group =>
    obtain ⟨t, us, inside, rfl, kind, -, -, read⟩ := exists_of_afterGroup h group
    obtain ⟨names, read⟩ := read false
    rw [parameters_other (by simp [kind]), listed_paren [] kind read, List.isEmpty_iff.1 form]
    rfl
  · next group =>
    have square : ∀ t ∈ ts.head?, t.kind ≠ .opening .square := by
      intro t mem
      rw [Option.mem_def.1 mem] at form
      simpa using form
    rw [parameters_other square, listed_other]
    intro t mem kind
    cases ts with
    | nil => simp at mem
    | cons u us =>
      obtain rfl := Option.some.inj mem
      obtain ⟨after, isSome⟩ := exists_afterGroup h kind
      simp [isSome] at group

end

end Signature

end GoSplit
