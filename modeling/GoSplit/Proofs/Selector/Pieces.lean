import GoSplit.Proofs.Selector.Bodies
import GoSplit.Proofs.Selector.Scoping

/-!
The walk over the pieces of a statement: lists of names, expressions, types, definitions and
headers. While a statement is read nothing around it changes; the names it declares wait, and
selectors are looked up where the statement stands.
-/

namespace GoSplit.Selector.Scoping

open Signature (Spells Calm isTypeToken isWord_of_isTypeToken)

/-! ### Pieces -/

/-- Code that declares nothing and is no part of a longer selector or list. -/
structure Piece (ts : List Token) : Prop where
  inert : ∀ t ∈ ts, isInert t = true
  nested : Balances [] ts
  semicolons : sheltered (·.kind == .semicolon) 0 ts = true
  first : Apart ts
  last : Apart ts.reverse

/-- Neither blocks nor clauses of a header end in the code. -/
def Flat (ts : List Token) : Prop := ∀ t ∈ ts, t.kind ≠ .opening .curly ∧ t.kind ≠ .semicolon

theorem Apart.append {ts us : List Token} (h : Apart ts) (h' : Apart us) : Apart (ts ++ us) := by
  cases ts with
  | nil => exact h'
  | cons t ts => exact h

theorem apart_cons {t : Token} {ts : List Token} (dot : t.kind ≠ .dot) (comma : t.kind ≠ .comma) :
    Apart (t :: ts) := by
  intro u mem
  obtain rfl := Option.some.inj mem
  exact ⟨dot, comma⟩

theorem apart_name {t : Token} {ts : List Token} (kind : t.kind = .ident) : Apart (t :: ts) :=
  apart_cons (by simp [kind]) (by simp [kind])

theorem behindDot_of_apart {before : List Token} (h : Apart before) : behindDot before = false := by
  cases before with
  | nil => rfl
  | cons t before => simpa [behindDot] using (h t rfl).1

theorem Piece.ends {ts rest : List Token} (h : Piece ts) (back : Apart rest) : Ends ts rest := by
  refine ⟨fun t mem => (h.last t ?_).1, fun t mem => (back t mem).1⟩
  rwa [List.head?_reverse]

theorem isInert_of_isWord {t : Token} {word : String} (h : t.isWord word = true)
    (inert : isInert ⟨.ident, [], word.toList, 0⟩ = true) : isInert t = true := by
  simp only [Token.isWord, Bool.and_eq_true, beq_iff_eq] at h
  obtain ⟨kind, gap, text, start⟩ := t
  obtain ⟨rfl, rfl⟩ := h
  exact inert

/-- Code inside a delimiter is sheltered by it. -/
theorem sheltered_inside (p : Token → Bool) {stack : List Bracket} {ts : List Token}
    (h : Balances stack ts) (n : Nat) : sheltered p (stack.length + (n + 1)) ts = true := by
  induction ts generalizing stack with
  | nil => rfl
  | cons t ts ih =>
    have here : (stack.length + (n + 1) != 0) = true := by simp
    rw [sheltered, here, Bool.or_true, Bool.true_and]
    cases kind : t.kind with
    | opening b =>
      have opened : t.opened (stack.length + (n + 1)) = (b :: stack).length + (n + 1) := by
        simp only [Token.opened, kind, List.length_cons]
        omega
      rw [opened]
      exact ih ((balances_opening kind).1 h)
    | closing b =>
      obtain ⟨outer, rfl, rest⟩ := (balances_closing kind).1 h
      have opened : t.opened ((b :: outer).length + (n + 1)) = outer.length + (n + 1) := by
        simp only [Token.opened, kind, List.length_cons]
        omega
      rw [opened]
      exact ih rest
    | _ =>
      have plain : t.isPlain = true := by simp [Token.isPlain, kind]
      have opened : t.opened (stack.length + (n + 1)) = stack.length + (n + 1) := by
        simp [Token.opened, kind]
      rw [opened]
      exact ih ((balances_plain plain).1 h)

theorem sheltered_of_forall {p : Token → Bool} {ts : List Token} (h : ∀ t ∈ ts, p t = false)
    (n : Nat) : sheltered p n ts = true := by
  induction ts generalizing n with
  | nil => rfl
  | cons t ts ih =>
    rw [List.forall_mem_cons] at h
    rw [sheltered, h.1, ih h.2]
    rfl

theorem Flat.semicolons {ts : List Token} (h : Flat ts) :
    sheltered (·.kind == .semicolon) 0 ts = true :=
  sheltered_of_forall (fun t mem => by simpa using (h t mem).2) 0

/-! ### Names, expressions and types are pieces -/

section

variable {ts : List Token} {names : List Text}

theorem exists_name (h : Names ts names) : ∃ t rest, ts = t :: rest ∧ t.isName = true := by
  induction h with
  | one isName => exact ⟨_, [], rfl, isName⟩
  | more _ _ _ ih =>
    obtain ⟨t, rest, rfl, isName⟩ := ih
    exact ⟨t, _, rfl, isName⟩

theorem flat_of_names (h : Names ts names) : Flat ts := by
  intro t mem
  rcases h.tokens t mem with name | comma
  · simp [Token.kind_of_isName name]
  · simp [comma]

theorem piece_of_names (h : Names ts names) : Piece ts where
  inert := by
    intro t mem
    rcases h.tokens t mem with name | comma
    · exact Walk.isInert_of_isName name
    · simp [isInert, comma]
  nested := h.balances
  semicolons := (flat_of_names h).semicolons
  first := by
    obtain ⟨t, rest, rfl, isName⟩ := exists_name h
    exact apart_name (Token.kind_of_isName isName)
  last := by
    cases h with
    | one isName => exact apart_name (Token.kind_of_isName isName)
    | more _ _ isName =>
      rw [List.reverse_append]
      exact apart_name (Token.kind_of_isName isName)

/-- A list of names has no selectors. -/
theorem bases_of_names (h : Names ts names) (behindDot : Bool) : bases behindDot ts = [] := by
  have tokens := h.tokens
  clear h
  induction ts generalizing behindDot with
  | nil => rfl
  | cons t ts ih =>
    rw [List.forall_mem_cons] at tokens
    have none : selects ts = false := by
      match ts, tokens.2 with
      | [], _ | [_], _ => rfl
      | u :: v :: us, rest =>
        have other : u.kind ≠ .dot := by
          rcases rest u (List.mem_cons_self ..) with name | comma
          · simp [Token.kind_of_isName name]
          · simp [comma]
        simp [selects, other]
    simp [bases, none, ih _ tokens.2]

end

theorem Expr.flat (e : Expr) : Flat e.tokens := by
  intro t mem
  have operand := e.operands t mem
  constructor <;> intro kind <;> simp [isOperand, kind] at operand

theorem isInert_of_isOperand {t : Token} (h : isOperand t = true) : isInert t = true := by
  cases kind : t.kind with
  | ident =>
    apply Walk.isInert_of_isName
    simpa [isOperand, kind, Token.isName] using h
  | op => simpa [isOperand, isInert, kind] using h
  | _ => simp [isInert, kind]

theorem Expr.piece (e : Expr) : Piece e.tokens where
  inert := fun t mem => isInert_of_isOperand (e.operands t mem)
  nested := e.nested
  semicolons := e.flat.semicolons
  first := e.first
  last := e.last

theorem sheltered_of_calm {ts : List Token} (h : Calm ts) :
    sheltered (·.kind == .semicolon) 0 ts = true := by
  induction h with
  | nil => rfl
  | token calm _ ih =>
    simp only [Signature.isCalm, Bool.and_eq_true, bne_iff_ne] at calm
    rw [sheltered_plain calm.1.1.1.1, ih]
    simp [calm.1.1.2]
  | group round opens inner closes _ ih =>
    have inside := sheltered_inside (·.kind == .semicolon) inner 0
    rw [List.length_nil] at inside
    rw [sheltered_group opens inner closes, ih, inside]
    simp [opens]
  | braces word opens inner closes _ ih =>
    have inside := sheltered_inside (·.kind == .semicolon) inner 0
    rw [List.length_nil] at inside
    have kind := word.elim Token.kind_of_isWord Token.kind_of_isWord
    rw [sheltered_plain (by simp [Token.isPlain, kind]), sheltered_group opens inner closes,
      ih, inside]
    simp [opens, kind]

section

variable {ts : List Token}

theorem apart_typeName (h : Signature.TypeName ts) : Apart ts := by
  cases h with
  | own name => exact apart_name (Token.kind_of_isName name)
  | qualified isName _ _ => exact apart_name (Token.kind_of_isName isName)

theorem apart_sign {t : Token} (h : Signature.isTypeSign t = true) : Apart (t :: ts) := by
  refine apart_cons ?_ ?_ <;> intro kind <;>
    simp [Signature.isTypeSign, Token.isStar, Token.isWord, kind] at h

theorem apart_type (h : Spells .type ts) : Apart ts := by
  cases h with
  | named name => exact apart_typeName name
  | generic name opens _ _ =>
    exact (apart_typeName name).append (apart_cons (by simp [opens]) (by simp [opens]))
  | paren opens _ _ | array opens _ _ _ _ => exact apart_cons (by simp [opens]) (by simp [opens])
  | signed sign _ => exact apart_sign sign
  | map word _ _ _ _ | func word _ _ _ _ => exact apart_name (Token.kind_of_isWord word)
  | braced word _ _ _ => exact apart_name (word.elim Token.kind_of_isWord Token.kind_of_isWord)

/-- A type ends with a name or a closing delimiter. -/
theorem apart_reverse {part : Signature.Part} (h : Spells part ts)
    (whole : part = .type ∨ part = .result) :
    Apart ts.reverse := by
  have closed : ∀ {bracket : Bracket} {closer : Token} {us : List Token},
      closer.kind = .closing bracket → Apart (closer :: us) :=
    fun closes => apart_cons (by simp [closes]) (by simp [closes])
  induction h with
  | named name =>
    cases name with
    | own name => exact apart_name (Token.kind_of_isName name)
    | qualified _ _ name => exact apart_name (Token.kind_of_isName name)
  | generic _ _ _ closes _ | paren _ _ closes _ | braced _ _ _ closes _ | several _ _ closes _ =>
    simp only [List.reverse_append, List.reverse_cons, List.reverse_nil, List.nil_append,
      List.append_assoc, List.cons_append]
    exact closed closes
  | signed sign _ ih =>
    rw [List.reverse_cons]
    exact (ih (.inl rfl)).append (apart_sign sign)
  | array _ _ _ closes _ ih =>
    simp only [List.reverse_append, List.reverse_cons, List.append_assoc, List.cons_append,
      List.nil_append]
    exact (ih (.inl rfl)).append (closed closes)
  | map _ _ _ closes _ _ ih =>
    simp only [List.reverse_append, List.reverse_cons, List.append_assoc, List.cons_append,
      List.nil_append]
    exact (ih (.inl rfl)).append (closed closes)
  | func _ _ _ closes _ _ ih =>
    simp only [List.reverse_append, List.reverse_cons, List.append_assoc, List.cons_append,
      List.nil_append]
    exact (ih (.inr rfl)).append (closed closes)
  | nothing => simp [Apart]
  | one _ ih => exact ih (.inl rfl)
  | _ => simp at whole

end

theorem isInert_of_isTypeToken {t : Token} (h : isTypeToken t = true)
    (other : t.isWord "func" = false) :
    isInert t = true := by
  cases kind : t.kind with
  | ident =>
    simp only [isInert, kind, other, isHeader_of_isTypeToken h,
      isWord_of_isTypeToken h (show isTypeToken ⟨.ident, [], "var".toList, 0⟩ = false by decide),
      isWord_of_isTypeToken h (show isTypeToken ⟨.ident, [], "const".toList, 0⟩ = false by decide)]
    rfl
  | op => simpa [isTypeToken, isInert, kind] using h
  | _ => simp [isInert, kind]

theorem TypeExpr.piece (t : TypeExpr) : Piece t.tokens where
  inert := fun u mem => isInert_of_isTypeToken (t.spelled.tokens u mem) (t.plain u mem)
  nested := t.spelled.balances
  semicolons := sheltered_of_calm (t.spelled.form (by simp)).calm
  first := apart_type t.spelled
  last := apart_reverse t.spelled (.inl rfl)

/-! ### The walk over a piece -/

/-- The walk binds the names of the environment. -/
def Knows (w : Walk) (env : List Text) : Prop := ∀ name, w.binds name = env.contains name

section

variable {w : Walk} {env : List Text} {ts before rest : List Token}

theorem pass_piece (h : Piece ts) (knows : Knows w env)
    (pending : ∀ p ∈ w.pending, p.depth = w.depth)
    (lines : (∀ t ∈ ts, t.onNewLine = false) ∨ w.pending = []) (header : w.header = none ∨ Flat ts)
    (bodies : ∀ t ∈ ts, t.kind = .opening .curly → w.bodies.lookup t.start = none)
    (front : Apart before) (back : Apart rest) :
    w.pass before rest ts = w.report (unbound env (bases false ts)) := by
  rw [Walk.pass_inert ⟨h.inert, pending, lines, header, bodies⟩ h.nested h.semicolons (h.ends back),
    behindDot_of_apart front, unbound]
  congr 2
  funext name
  rw [knows]

theorem pass_expr (e : Expr) (knows : Knows w env) (pending : ∀ p ∈ w.pending, p.depth = w.depth)
    (lines : (∀ t ∈ e.tokens, t.onNewLine = false) ∨ w.pending = []) (front : Apart before)
    (back : Apart rest) : w.pass before rest e.tokens = w.report (e.free env) :=
  pass_piece e.piece knows pending lines (.inr e.flat)
    (fun t mem curly => absurd curly (e.flat t mem).1)
    front back

theorem knows_report (knows : Knows w env) (names : List Text) : Knows (w.report names) env := knows

end

end GoSplit.Selector.Scoping
