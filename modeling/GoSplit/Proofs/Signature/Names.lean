import GoSplit.Proofs.Signature.Types

/-!
The names of a signature. A list names all of its entries or none; entries may share a type. The
code of a signature closes what it opens and has no other tokens than those of types.
-/

namespace GoSplit.Signature

/-! ### Lists and signatures as they are written -/

/-- What a type parameter may stand for. -/
inductive Constraint : List Token → Prop where
  | type {ts : List Token} (type : Spells .type ts) : Constraint ts
  | approximate {tilde : Token} {ts : List Token} (kind : tilde.kind = .op)
      (text : tilde.text = ['~'])
      (type : Spells .type ts) : Constraint (tilde :: ts)
  | union {bar : Token} {ts us : List Token} (term : Constraint ts) (kind : bar.kind = .op)
      (text : bar.text = ['|']) (others : Constraint us) : Constraint (ts ++ bar :: us)

/-- A list of names with types. A name without a type has that of the next one, and a comma may
close the list. -/
inductive Fields (IsType : List Token → Prop) : List Token → List Text → Prop where
  | last {name : Token} {ts : List Token} (isName : name.isName = true) (type : IsType ts) :
      Fields IsType (name :: ts) [name.text]
  | closed {name comma : Token} {ts : List Token} (isName : name.isName = true) (type : IsType ts)
      (kind : comma.kind = .comma) : Fields IsType (name :: (ts ++ [comma])) [name.text]
  | field {name comma : Token} {ts us : List Token} {names : List Text}
      (isName : name.isName = true)
      (type : IsType ts) (kind : comma.kind = .comma) (others : Fields IsType us names) :
      Fields IsType (name :: (ts ++ comma :: us)) (name.text :: names)
  | shared {name comma : Token} {us : List Token} {names : List Text} (isName : name.isName = true)
      (kind : comma.kind = .comma) (others : Fields IsType us names) :
      Fields IsType (name :: comma :: us) (name.text :: names)

/-- A list of types, which a comma may close. -/
inductive Elements : List Token → Prop where
  | last {ts : List Token} (element : Spells .element ts) : Elements ts
  | closed {comma : Token} {ts : List Token} (element : Spells .element ts)
      (kind : comma.kind = .comma) : Elements (ts ++ [comma])
  | more {comma : Token} {ts us : List Token} (element : Spells .element ts)
      (kind : comma.kind = .comma) (others : Elements us) : Elements (ts ++ comma :: us)

/-- What stands between the parentheses of a receiver, of parameters or of results. -/
inductive Parameters : List Token → List Text → Prop where
  | none : Parameters [] []
  | bare {ts : List Token} (elements : Elements ts) : Parameters ts []
  | named {ts : List Token} {names : List Text} (fields : Fields (Spells .element) ts names) :
      Parameters ts names

/-- A list of parameters in its parentheses. -/
inductive Parenthesized : List Token → List Text → Prop where
  | list {opener closer : Token} {ts : List Token} {names : List Text}
      (opens : opener.kind = .opening .paren) (parameters : Parameters ts names)
      (closes : closer.kind = .closing .paren) : Parenthesized (opener :: (ts ++ [closer])) names

inductive TypeParameters : List Token → List Text → Prop where
  | none : TypeParameters [] []
  | list {opener closer : Token} {ts : List Token} {names : List Text}
      (opens : opener.kind = .opening .square) (fields : Fields Constraint ts names)
      (closes : closer.kind = .closing .square) : TypeParameters (opener :: (ts ++ [closer])) names

/-- What stands between the parameters and the body. Outside of delimiters it is on their line. -/
inductive Results : List Token → List Text → Prop where
  | none : Results [] []
  | type {ts : List Token} (type : Spells .type ts) (line : sheltered Token.onNewLine 0 ts = true) :
      Results ts []
  | list {opener closer : Token} {ts : List Token} {names : List Text}
      (opens : opener.kind = .opening .paren) (line : opener.onNewLine = false)
      (parameters : Parameters ts names) (closes : closer.kind = .closing .paren) :
      Results (opener :: (ts ++ [closer])) names

/-- The tokens between the keyword and the body of a function, with the names bound in the body. The
result of a literal must not start like the name of a method. -/
inductive Declares : List Token → List Text → Prop where
  | function {name : Token} {typed params res : List Token} {typeNames names more : List Text}
      (isName : name.isName = true) (types : TypeParameters typed typeNames)
      (parameters : Parenthesized params names) (results : Results res more) :
      Declares (name :: (typed ++ (params ++ res))) (typeNames ++ (names ++ more))
  | method {name : Token} {receiver typed params res : List Token}
      {own typeNames names more : List Text} (receives : Parenthesized receiver own)
      (isName : name.isName = true) (types : TypeParameters typed typeNames)
      (parameters : Parenthesized params names) (results : Results res more) :
      Declares (receiver ++ name :: (typed ++ (params ++ res)))
        (own ++ (typeNames ++ (names ++ more)))
  | literal {params res : List Token} {names more : List Text}
      (parameters : Parenthesized params names)
      (results : Results res more) (plain : namesMethod res = false) :
      Declares (params ++ res) (names ++ more)

/-! ### The tokens of a signature -/

/-- Delimiters that nest, and no other tokens than those of types. -/
structure Tidy (ts : List Token) : Prop where
  balances : Balances [] ts
  tokens : ∀ t ∈ ts, isTypeToken t = true

namespace Tidy

variable {t opener closer : Token} {ts us : List Token} {bracket : Bracket}

theorem nil : Tidy [] := ⟨rfl, by simp⟩

theorem append (h : Tidy ts) (h' : Tidy us) : Tidy (ts ++ us) :=
  ⟨(@balances_append_iff [] [] _ _ h.balances).2 h'.balances,
    List.forall_mem_append.2 ⟨h.tokens, h'.tokens⟩⟩

theorem cons (plain : t.isPlain = true) (token : isTypeToken t = true) (h : Tidy ts) :
    Tidy (t :: ts) :=
  ⟨(balances_plain plain).2 h.balances, List.forall_mem_cons.2 ⟨token, h.tokens⟩⟩

theorem name (isName : t.isName = true) (h : Tidy ts) : Tidy (t :: ts) :=
  h.cons (Token.isPlain_of_isName isName) (isTypeToken_of_isName isName)

theorem comma (kind : t.kind = .comma) (h : Tidy ts) : Tidy (t :: ts) :=
  h.cons (by simp [Token.isPlain, kind]) (isTypeToken_of_kind kind (by simp))

theorem op (kind : t.kind = .op) (other : t.text ≠ [':']) (h : Tidy ts) : Tidy (t :: ts) :=
  h.cons (by simp [Token.isPlain, kind]) (by simp [isTypeToken, kind, other])

theorem group (opens : opener.kind = .opening bracket) (h : Tidy ts)
    (closes : closer.kind = .closing bracket) :
    Tidy (opener :: (ts ++ [closer])) := by
  refine ⟨(balances_group opens h.balances closes).2 rfl, ?_⟩
  simp only [List.mem_append, List.mem_cons, List.not_mem_nil, or_false]
  rintro t (rfl | mem | rfl)
  · exact isTypeToken_of_kind opens (by simp)
  · exact h.tokens t mem
  · exact isTypeToken_of_kind closes (by simp)

end Tidy

theorem Spells.tidy {part : Part} {ts : List Token} (h : Spells part ts) : Tidy ts :=
  ⟨h.balances, h.tokens⟩

theorem Constraint.tidy {ts : List Token} (h : Constraint ts) : Tidy ts := by
  induction h with
  | type type => exact type.tidy
  | approximate kind text type => exact type.tidy.op kind (by simp [text])
  | union _ kind text _ ih ih' => exact ih.append (ih'.op kind (by simp [text]))

theorem Fields.tidy {IsType : List Token → Prop} (tidy : ∀ ts, IsType ts → Tidy ts)
    {ts : List Token} {names : List Text} (h : Fields IsType ts names) : Tidy ts := by
  induction h with
  | last isName type => exact (tidy _ type).name isName
  | closed isName type kind => exact ((tidy _ type).append (Tidy.nil.comma kind)).name isName
  | field isName type kind _ ih => exact ((tidy _ type).append (ih.comma kind)).name isName
  | shared isName kind _ ih => exact (ih.comma kind).name isName

theorem Elements.tidy {ts : List Token} (h : Elements ts) : Tidy ts := by
  induction h with
  | last element => exact element.tidy
  | closed element kind => exact element.tidy.append (Tidy.nil.comma kind)
  | more element kind _ ih => exact element.tidy.append (ih.comma kind)

theorem Parameters.tidy {ts : List Token} {names : List Text} (h : Parameters ts names) :
    Tidy ts := by
  cases h with
  | none => exact .nil
  | bare elements => exact elements.tidy
  | named fields => exact fields.tidy fun _ element => element.tidy

theorem Parenthesized.tidy {ts : List Token} {names : List Text} (h : Parenthesized ts names) :
    Tidy ts := by
  obtain ⟨opens, parameters, closes⟩ := h
  exact parameters.tidy.group opens closes

theorem TypeParameters.tidy {ts : List Token} {names : List Text} (h : TypeParameters ts names) :
    Tidy ts := by
  cases h with
  | none => exact .nil
  | list opens fields closes => exact (fields.tidy fun _ => Constraint.tidy).group opens closes

theorem Results.tidy {ts : List Token} {names : List Text} (h : Results ts names) : Tidy ts := by
  cases h with
  | none => exact .nil
  | type type _ => exact type.tidy
  | list opens _ parameters closes => exact parameters.tidy.group opens closes

theorem Declares.tidy {ts : List Token} {names : List Text} (h : Declares ts names) : Tidy ts := by
  cases h with
  | function isName types parameters results =>
    exact (types.tidy.append (parameters.tidy.append results.tidy)).name isName
  | method receives isName types parameters results =>
    exact receives.tidy.append
      ((types.tidy.append (parameters.tidy.append results.tidy)).name isName)
  | literal parameters results _ => exact parameters.tidy.append results.tidy

end GoSplit.Signature
