import GoSplit.Selector

/-!
Reading ahead in code whose delimiters nest. A list of entries that is opened inside such
code is closed inside it as well, so the readers that look for the names in a list, and for
the body of a function, do not depend on what follows the code.
-/

namespace GoSplit

/-- Read with the delimiters of the stack open, the innermost first, the tokens close all of
them and nest. -/
def Balances : List Bracket → List Token → Prop
  | stack, [] => stack = []
  | stack, t :: ts =>
    match t.kind, stack with
    | .opening bracket, _ => Balances (bracket :: stack) ts
    | .closing bracket, opener :: outer => opener = bracket ∧ Balances outer ts
    | .closing _, [] => False
    | _, _ => Balances stack ts

/-- The token neither opens nor closes anything. -/
def Token.isPlain (t : Token) : Bool :=
  match t.kind with
  | .opening _ | .closing _ => false
  | _ => true

namespace Token

variable {t : Token} {word : String}

theorem kind_of_isName (h : t.isName = true) : t.kind = .ident := by
  simp only [isName, Bool.and_eq_true, beq_iff_eq] at h
  exact h.1

theorem kind_of_isWord (h : t.isWord word = true) : t.kind = .ident := by
  simp only [isWord, Bool.and_eq_true, beq_iff_eq] at h
  exact h.1

theorem isPlain_of_isName (h : t.isName = true) : t.isPlain = true := by
  simp [isPlain, kind_of_isName h]

theorem isPlain_of_isWord (h : t.isWord word = true) : t.isPlain = true := by
  simp [isPlain, kind_of_isWord h]

/-- A name is no keyword. -/
theorem isWord_of_isName (h : t.isName = true) (keyword : isKeyword word.toList = true) :
    t.isWord word = false := by
  simp only [isName, Bool.and_eq_true, beq_iff_eq, Bool.not_eq_true'] at h
  rw [Bool.eq_false_iff]
  intro same
  simp only [isWord, Bool.and_eq_true, beq_iff_eq] at same
  rw [same.2, keyword] at h
  simp at h

end Token

section

variable {stack : List Bracket} {t : Token} {ts : List Token} {bracket : Bracket}

theorem balances_cons (stack : List Bracket) (t : Token) (ts : List Token) :
    Balances stack (t :: ts) =
      match t.kind, stack with
      | .opening bracket, _ => Balances (bracket :: stack) ts
      | .closing bracket, opener :: outer => opener = bracket ∧ Balances outer ts
      | .closing _, [] => False
      | _, _ => Balances stack ts := rfl

theorem balances_opening (kind : t.kind = .opening bracket) :
    Balances stack (t :: ts) ↔ Balances (bracket :: stack) ts := by
  simp [balances_cons, kind]

theorem balances_closing (kind : t.kind = .closing bracket) :
    Balances stack (t :: ts) ↔ ∃ outer, stack = bracket :: outer ∧ Balances outer ts := by
  cases stack with
  | nil => simp [balances_cons, kind]
  | cons opener outer => simp [balances_cons, kind, and_assoc]

theorem balances_plain (plain : t.isPlain = true) :
    Balances stack (t :: ts) ↔ Balances stack ts := by
  cases kind : t.kind <;> simp_all [Token.isPlain, balances_cons]

end

instance decidableBalances : (stack : List Bracket) → (ts : List Token) →
    Decidable (Balances stack ts)
  | stack, [] => inferInstanceAs (Decidable (stack = []))
  | stack, t :: ts =>
    match kind : t.kind, stack with
    | .opening b, stack =>
      @decidable_of_iff _ _ (balances_opening kind).symm (decidableBalances (b :: stack) ts)
    | .closing _, [] => .isFalse (by simp [balances_cons, kind])
    | .closing b, opener :: outer =>
      have := decidableBalances outer ts
      decidable_of_iff (opener = b ∧ Balances outer ts) (by simp [balances_cons, kind])
    | .ident, stack | .number, stack | .string, stack | .rawString, stack | .rune, stack
    | .lineComment, stack | .blockComment, stack | .comma, stack | .semicolon, stack | .dot, stack
    | .incDec, stack | .op, stack =>
      @decidable_of_iff _ _ (balances_plain (by simp [Token.isPlain, kind])).symm
        (decidableBalances stack ts)

/-- Code that closes what it opens leaves the stack to what follows. -/
theorem balances_append_iff {inner stack : List Bracket} {ts rest : List Token}
    (h : Balances inner ts) :
    Balances (inner ++ stack) (ts ++ rest) ↔ Balances stack rest := by
  induction ts generalizing inner with
  | nil =>
    obtain rfl : inner = [] := h
    rfl
  | cons t ts ih =>
    rw [List.cons_append]
    cases kind : t.kind with
    | opening b =>
      rw [balances_opening kind] at h ⊢
      exact ih h
    | closing b =>
      obtain ⟨outer, rfl, rest'⟩ := (balances_closing kind).1 h
      rw [balances_closing kind, ← ih rest']
      simp
    | _ =>
      have plain : t.isPlain = true := by simp [Token.isPlain, kind]
      rw [balances_plain plain] at h ⊢
      exact ih h

/-- What stands between two delimiters that match is left out. -/
theorem balances_group {bracket : Bracket} {opener closer : Token} {inside rest : List Token}
    {stack : List Bracket} (opens : opener.kind = .opening bracket) (h : Balances [] inside)
    (closes : closer.kind = .closing bracket) :
    Balances stack (opener :: (inside ++ closer :: rest)) ↔ Balances stack rest := by
  rw [balances_opening opens, ← List.nil_append (bracket :: stack), balances_append_iff h,
    balances_closing closes]
  simp

/-- How many delimiters are open behind a token. -/
def Token.opened (inner : Nat) (t : Token) : Nat :=
  match t.kind with
  | .opening _ => inner + 1
  | .closing _ => inner - 1
  | _ => inner

/-- The tokens of a kind stand inside delimiters, of which `inner` are open at the start. -/
def sheltered (p : Token → Bool) (inner : Nat) : List Token → Bool
  | [] => true
  | t :: ts => (!p t || inner != 0) && sheltered p (t.opened inner) ts

theorem sheltered_append {p : Token → Bool} {stack : List Bracket} {ts rest : List Token}
    (h : Balances stack ts) (n : Nat) :
    sheltered p (stack.length + n) (ts ++ rest) =
      (sheltered p (stack.length + n) ts && sheltered p n rest) := by
  induction ts generalizing stack with
  | nil =>
    obtain rfl : stack = [] := h
    simp [sheltered]
  | cons t ts ih =>
    rw [List.cons_append, sheltered, sheltered, Bool.and_assoc]
    congr 1
    cases kind : t.kind with
    | opening b =>
      have opened : t.opened (stack.length + n) = (b :: stack).length + n := by
        simp only [Token.opened, kind, List.length_cons]
        omega
      rw [opened]
      exact ih ((balances_opening kind).1 h)
    | closing b =>
      obtain ⟨outer, rfl, rest'⟩ := (balances_closing kind).1 h
      have opened : t.opened ((b :: outer).length + n) = outer.length + n := by
        simp only [Token.opened, kind, List.length_cons]
        omega
      rw [opened]
      exact ih rest'
    | _ =>
      have plain : t.isPlain = true := by simp [Token.isPlain, kind]
      have opened : t.opened (stack.length + n) = stack.length + n := by simp [Token.opened, kind]
      rw [opened]
      exact ih ((balances_plain plain).1 h)

theorem sheltered_plain {p : Token → Bool} {n : Nat} {t : Token} {ts : List Token}
    (plain : t.isPlain = true) :
    sheltered p n (t :: ts) = ((!p t || n != 0) && sheltered p n ts) := by
  rw [sheltered]
  congr 2
  cases kind : t.kind <;> simp_all [Token.isPlain, Token.opened]

theorem sheltered_group {p : Token → Bool} {bracket : Bracket} {n : Nat} {opener closer : Token}
    {inside rest : List Token} (opens : opener.kind = .opening bracket) (h : Balances [] inside)
    (closes : closer.kind = .closing bracket) :
    sheltered p n (opener :: (inside ++ closer :: rest)) =
      ((!p opener || n != 0) && sheltered p (n + 1) inside && sheltered p n rest) := by
  have split := @sheltered_append p [] inside (closer :: rest) h (n + 1)
  rw [List.length_nil, Nat.zero_add] at split
  rw [sheltered, Token.opened, opens, split, sheltered, Token.opened, closes, Bool.and_assoc]
  simp

/-- All that stands inside a delimiter is sheltered. -/
theorem sheltered_inside {p : Token → Bool} {stack : List Bracket} {ts : List Token}
    (h : Balances stack ts) :
    sheltered p (stack.length + 1) ts = true := by
  induction ts generalizing stack with
  | nil => rfl
  | cons t ts ih =>
    rw [sheltered, Bool.and_eq_true]
    refine ⟨by simp, ?_⟩
    cases kind : t.kind with
    | opening b =>
      rw [Token.opened, kind]
      exact ih ((balances_opening kind).1 h)
    | closing b =>
      obtain ⟨outer, rfl, rest⟩ := (balances_closing kind).1 h
      rw [Token.opened, kind]
      exact ih rest
    | _ =>
      have plain : t.isPlain = true := by simp [Token.isPlain, kind]
      rw [Token.opened, kind]
      exact ih ((balances_plain plain).1 h)

/-- Code inside a delimiter closes what it opens before the delimiter itself is closed. -/
theorem exists_inside {inner outer : List Bracket} {bracket : Bracket} {ts : List Token}
    (h : Balances (inner ++ bracket :: outer) ts) :
    ∃ inside close after, ts = inside ++ close :: after ∧ Balances inner inside ∧
      close.kind = .closing bracket ∧ Balances outer after := by
  induction ts generalizing inner with
  | nil => simp [Balances] at h
  | cons t ts ih =>
    cases kind : t.kind with
    | opening b =>
      rw [balances_opening kind, ← List.cons_append] at h
      obtain ⟨inside, close, after, rfl, balanced, closes, rest⟩ := ih h
      exact ⟨t :: inside, close, after, rfl, (balances_opening kind).2 balanced, closes, rest⟩
    | closing b =>
      obtain ⟨stack, eq, rest⟩ := (balances_closing kind).1 h
      cases inner with
      | nil =>
        obtain ⟨rfl, rfl⟩ := List.cons.inj eq
        exact ⟨[], t, ts, rfl, rfl, kind, rest⟩
      | cons opener inner =>
        obtain ⟨rfl, rfl⟩ := List.cons.inj eq
        obtain ⟨inside, close, after, rfl, balanced, closes, rest⟩ := ih rest
        exact ⟨t :: inside, close, after, rfl, (balances_closing kind).2 ⟨inner, rfl, balanced⟩,
          closes, rest⟩
    | _ =>
      have plain : t.isPlain = true := by simp [Token.isPlain, kind]
      rw [balances_plain plain] at h
      obtain ⟨inside, close, after, rfl, balanced, closes, rest⟩ := ih h
      exact ⟨t :: inside, close, after, rfl, (balances_plain plain).2 balanced, closes, rest⟩

/-- In front of code where nothing is open, what is read up to `inner` delimiters deep ends
with the delimiter around it. -/
theorem exists_splitAtClose {inner outer : List Bracket} {bracket : Bracket} {ts : List Token}
    (h : Balances (inner ++ bracket :: outer) ts) :
    ∃ inside close after, ts = inside ++ close :: after ∧
      splitAtClose inner.length ts = some (inside, after) ∧ close.kind = .closing bracket ∧
      Balances outer after := by
  induction ts generalizing inner with
  | nil => simp [Balances] at h
  | cons t ts ih =>
    cases kind : t.kind with
    | opening b =>
      rw [balances_opening kind, ← List.cons_append] at h
      obtain ⟨inside, close, after, rfl, split, closes, rest⟩ := ih h
      refine ⟨t :: inside, close, after, rfl, ?_, closes, rest⟩
      rw [List.length_cons] at split
      simp [splitAtClose, kind, split]
    | closing b =>
      obtain ⟨stack, eq, rest⟩ := (balances_closing kind).1 h
      cases inner with
      | nil =>
        obtain ⟨rfl, rfl⟩ := List.cons.inj eq
        exact ⟨[], t, ts, rfl, by simp [splitAtClose, kind], kind, rest⟩
      | cons open' inner =>
        obtain ⟨rfl, rfl⟩ := List.cons.inj eq
        obtain ⟨inside, close, after, rfl, split, closes, rest⟩ := ih rest
        refine ⟨t :: inside, close, after, rfl, ?_, closes, rest⟩
        simp [splitAtClose, kind, split]
    | _ =>
      rw [balances_plain (by simp [Token.isPlain, kind])] at h
      obtain ⟨inside, close, after, rfl, split, closes, rest⟩ := ih h
      refine ⟨t :: inside, close, after, rfl, ?_, closes, rest⟩
      simp [splitAtClose, kind, split]

namespace Signature

/-- The entries of a list end where the list does. -/
theorem splitEntries_snd (n : Nat) (ts : List Token) :
    (splitEntries n ts).map Prod.snd = (splitAtClose n ts).map Prod.snd := by
  induction ts generalizing n with
  | nil => rfl
  | cons t ts ih =>
    have kept : ∀ {m : Nat} {g : List (List Token) × List Token → List (List Token) × List Token},
        (∀ x, (g x).2 = x.2) →
        (splitEntries m ts).map (Prod.snd ∘ g) = (splitAtClose m ts).map Prod.snd := by
      intro m g same
      rw [← ih]
      congr 1
      funext x
      exact same x
    have dropped : (Prod.snd ∘ fun (x : List Token × List Token) => (t :: x.1, x.2)) =
        Prod.snd := rfl
    cases kind : t.kind with
    | closing b =>
      cases n with
      | zero => simp [splitEntries, splitAtClose, kind]
      | succ m =>
        simp only [splitEntries, splitAtClose, kind, Option.map_map]
        exact kept fun _ => rfl
    | comma =>
      simp only [splitEntries, splitAtClose, kind]
      split
      · next zero =>
        subst zero
        rw [Option.map_map, Option.map_map, dropped, ← ih]
        rfl
      · rw [Option.map_map, Option.map_map]
        exact kept fun _ => rfl
    | _ =>
      simp only [splitEntries, splitAtClose, kind, Option.map_map]
      exact kept fun _ => rfl

theorem splitEntries_append {n : Nat} {ts after : List Token} {entries : List (List Token)}
    (h : splitEntries n ts = some (entries, after)) (next : List Token) :
    splitEntries n (ts ++ next) = some (entries, after ++ next) := by
  induction ts generalizing n entries after with
  | nil => simp [splitEntries] at h
  | cons t ts ih =>
    have kept : ∀ {m : Nat} {g : List (List Token) × List Token → List (List Token) × List Token},
        (∀ x, g (x.1, x.2 ++ next) = ((g x).1, (g x).2 ++ next)) →
        (splitEntries m ts).map g = some (entries, after) →
        (splitEntries m (ts ++ next)).map g = some (entries, after ++ next) := by
      intro m g moves found
      obtain ⟨⟨inner, behind⟩, inside, eq⟩ := Option.map_eq_some_iff.1 found
      rw [ih inside, Option.map_some, moves (inner, behind), eq]
    cases kind : t.kind with
    | closing b =>
      cases n with
      | zero =>
        simp only [splitEntries, kind, Option.some.injEq, Prod.mk.injEq] at h
        simp [splitEntries, kind, h.1, h.2]
      | succ m =>
        simp only [splitEntries, kind, List.cons_append] at h ⊢
        exact kept (fun _ => rfl) h
    | comma =>
      simp only [splitEntries, kind, List.cons_append] at h ⊢
      split at h
      · next zero =>
        rw [if_pos zero]
        exact kept (fun _ => rfl) h
      · next some =>
        rw [if_neg some]
        exact kept (fun _ => rfl) h
    | _ =>
      simp only [splitEntries, kind, List.cons_append] at h ⊢
      exact kept (fun _ => rfl) h

theorem listNames_append {always : Bool} {ts after : List Token} {names : List Text}
    (h : listNames always ts = some (names, after)) (next : List Token) :
    listNames always (ts ++ next) = some (names, after ++ next) := by
  obtain ⟨⟨entries, after'⟩, found, eq⟩ := Option.map_eq_some_iff.1 h
  obtain ⟨rfl, rfl⟩ := Prod.mk.inj eq
  rw [listNames, splitEntries_append found next]
  rfl

/-- A list that is opened in balanced code is read to its end. -/
theorem exists_listNames (always : Bool) {bracket : Bracket} {outer : List Bracket}
    {ts : List Token} (h : Balances (bracket :: outer) ts) :
    ∃ names after, after <:+ ts ∧ Balances outer after ∧
      listNames always ts = some (names, after) := by
  obtain ⟨inside, close, after, eq, split, -, rest⟩ := @exists_splitAtClose [] outer bracket ts h
  have ends := splitEntries_snd 0 ts
  rw [List.length_nil] at split
  rw [split] at ends
  obtain ⟨⟨entries, after'⟩, found, rfl⟩ := Option.map_eq_some_iff.1 ends
  refine ⟨entryNames always entries, after', ⟨inside ++ [close], by simp [eq]⟩, rest, ?_⟩
  rw [listNames, found]
  rfl

/-- Nothing follows, or a semicolon, a word on a new line, a comma or a closing delimiter. -/
def Stops (next : List Token) : Prop :=
  ∀ t ∈ next.head?, t.kind = .semicolon ∨ t.kind = .ident ∧ t.onNewLine = true ∨
    t.kind = .comma ∨ ∃ bracket, t.kind = .closing bracket

section

variable {next : List Token} (stops : Stops next)
include stops

theorem bodyAfterResult_stops (word : Bool) : bodyAfterResult 0 word next = none := by
  cases next with
  | nil => rfl
  | cons t next =>
    rcases stops t rfl with kind | ⟨kind, line⟩ | kind | ⟨bracket, kind⟩
    · simp [bodyAfterResult, kind]
    · simp [bodyAfterResult, line]
    · simp [bodyAfterResult, kind]
    · simp [bodyAfterResult, kind]

/-- Behind code where nothing is open no body is looked for. -/
theorem bodyAfterResult_append {inner outer : List Bracket} {ts : List Token}
    (h : Balances (inner ++ outer) ts) (word : Bool) :
    bodyAfterResult inner.length word (ts ++ next) = bodyAfterResult inner.length word ts := by
  induction ts generalizing inner outer word with
  | nil =>
    obtain ⟨rfl, rfl⟩ := List.append_eq_nil_iff.1 h
    exact bodyAfterResult_stops stops word
  | cons t ts ih =>
    have deeper : ∀ {b : Bracket}, Balances (b :: (inner ++ outer)) ts → ∀ word,
        bodyAfterResult (inner.length + 1) word (ts ++ next) =
          bodyAfterResult (inner.length + 1) word ts :=
      fun {b} rest word => @ih (b :: inner) outer rest word
    cases kind : t.kind with
    | opening b =>
      rw [balances_opening kind] at h
      cases b <;> simp only [List.cons_append, bodyAfterResult, kind, deeper h]
    | closing b =>
      obtain ⟨stack, eq, rest⟩ := (balances_closing kind).1 h
      cases inner with
      | nil => simp [bodyAfterResult, kind]
      | cons opener inner =>
        obtain ⟨rfl, rfl⟩ := List.cons.inj eq
        simp only [List.cons_append, bodyAfterResult, kind, List.length_cons, ih rest]
    | _ =>
      rw [balances_plain (by simp [Token.isPlain, kind])] at h
      simp only [List.cons_append, bodyAfterResult, kind, ih h]

end

end Signature

end GoSplit
