import GoSplit.Proofs.Selector.Forms

/-!
Types as they are written. The grammar is that of the language, read generously inside the
braces of structures and interfaces, where fields, methods and unions come in any order. What
the readers of signatures rely on: the delimiters of a type nest; outside of them there is no
comma, semicolon or equals sign, and a brace only behind `struct` or `interface`; and a type
cannot be mistaken for a name with a type behind it.
-/

namespace GoSplit.Signature

open Token (kind_of_isName kind_of_isWord isPlain_of_isName isPlain_of_isWord isWord_of_isName)

/-! ### The grammar -/

/-- The only keywords in types are those of types. -/
def isTypeToken (t : Token) : Bool :=
  match t.kind with
  | .ident =>
    !isKeyword t.text || t.isWord "chan" || t.isWord "func" || t.isWord "interface" ||
      t.isWord "map" || t.isWord "struct"
  | .op => t.text != [':']
  | .lineComment | .blockComment => false
  | _ => true

/-- A token of an expression, without function literals and colons. -/
def isLength (t : Token) : Bool := isTypeToken t && !t.isWord "func"

/-- What stands in front of the type that a pointer or channel type is made from. -/
def isTypeSign (t : Token) : Bool :=
  t.isStar || t.isWord "chan" || (t.kind == .op && (t.text == ['<'] || t.text == ['-']))

/-- A token between the braces of a structure or interface that belongs to no type: a name, a tag,
a separator or an operator. -/
def isMark (t : Token) : Bool :=
  match t.kind with
  | .ident => !isKeyword t.text
  | .string | .rawString | .comma | .semicolon => true
  | .op => t.text != [':']
  | _ => false

/-- A name by itself or in a package. -/
inductive TypeName : List Token → Prop where
  | own {t : Token} (name : t.isName = true) : TypeName [t]
  | qualified {package dot t : Token} (isName : package.isName = true) (kind : dot.kind = .dot)
      (name : t.isName = true) : TypeName [package, dot, t]

inductive Part where
  | type
  /-- A type, perhaps with dots in front of it. -/
  | element
  /-- A type that may have a name. -/
  | entry
  /-- Entries and commas. -/
  | list
  /-- What follows the parameters of a function type. -/
  | result
  /-- What stands between the braces of a structure or interface. -/
  | members

inductive Spells : Part → List Token → Prop where
  | named {ts : List Token} (name : TypeName ts) : Spells .type ts
  | generic {ts us : List Token} {opener closer : Token} (name : TypeName ts)
      (opens : opener.kind = .opening .square) (arguments : Spells .list us)
      (closes : closer.kind = .closing .square) : Spells .type (ts ++ opener :: (us ++ [closer]))
  | paren {ts : List Token} {opener closer : Token} (opens : opener.kind = .opening .paren)
      (inner : Spells .type ts) (closes : closer.kind = .closing .paren) :
      Spells .type (opener :: (ts ++ [closer]))
  | signed {t : Token} {ts : List Token} (sign : isTypeSign t = true) (inner : Spells .type ts) :
      Spells .type (t :: ts)
  /-- Nothing stands between the brackets of a slice type. -/
  | array {ts us : List Token} {opener closer : Token} (opens : opener.kind = .opening .square)
      (tokens : ∀ t ∈ us, isLength t = true) (length : Balances [] us)
      (closes : closer.kind = .closing .square) (inner : Spells .type ts) :
      Spells .type (opener :: (us ++ closer :: ts))
  | map {ts us : List Token} {keyword opener closer : Token} (word : keyword.isWord "map" = true)
      (opens : opener.kind = .opening .square) (key : Spells .type us)
      (closes : closer.kind = .closing .square) (value : Spells .type ts) :
      Spells .type (keyword :: opener :: (us ++ closer :: ts))
  | func {ts us : List Token} {keyword opener closer : Token} (word : keyword.isWord "func" = true)
      (opens : opener.kind = .opening .paren) (parameters : Spells .list us)
      (closes : closer.kind = .closing .paren) (result : Spells .result ts) :
      Spells .type (keyword :: opener :: (us ++ closer :: ts))
  | braced {us : List Token} {keyword opener closer : Token}
      (word : keyword.isWord "struct" = true ∨ keyword.isWord "interface" = true)
      (opens : opener.kind = .opening .curly) (members : Spells .members us)
      (closes : closer.kind = .closing .curly) : Spells .type
        (keyword :: opener :: (us ++ [closer]))
  | single {ts : List Token} (type : Spells .type ts) : Spells .element ts
  | variadic {t : Token} {ts : List Token} (kind : t.kind = .op) (dots : t.text = "...".toList)
      (type : Spells .type ts) : Spells .element (t :: ts)
  | bare {ts : List Token} (element : Spells .element ts) : Spells .entry ts
  | labelled {t : Token} {ts : List Token} (name : t.isName = true) (element : Spells .element ts) :
      Spells .entry (t :: ts)
  | empty : Spells .list []
  | last {ts : List Token} (entry : Spells .entry ts) : Spells .list ts
  | more {ts us : List Token} {comma : Token} (entry : Spells .entry ts)
      (kind : comma.kind = .comma)
      (others : Spells .list us) : Spells .list (ts ++ comma :: us)
  | nothing : Spells .result []
  | one {ts : List Token} (type : Spells .type ts) : Spells .result ts
  | several {ts : List Token} {opener closer : Token} (opens : opener.kind = .opening .paren)
      (list : Spells .list ts) (closes : closer.kind = .closing .paren) :
      Spells .result (opener :: (ts ++ [closer]))
  | done : Spells .members []
  | mark {t : Token} {ts : List Token} (mark : isMark t = true) (others : Spells .members ts) :
      Spells .members (t :: ts)
  | typed {ts us : List Token} (type : Spells .type ts) (others : Spells .members us) :
      Spells .members (ts ++ us)
  | method {ts us : List Token} {opener closer : Token} (opens : opener.kind = .opening .paren)
      (list : Spells .list ts) (closes : closer.kind = .closing .paren)
        (others : Spells .members us) :
      Spells .members (opener :: (ts ++ closer :: us))

/-! ### The tokens of a type -/

theorem isTypeToken_of_isName {t : Token} (h : t.isName = true) : isTypeToken t = true := by
  simp only [Token.isName, Bool.and_eq_true, beq_iff_eq] at h
  simp [isTypeToken, h]

theorem isTypeToken_of_isWord {t : Token} {word : String} (h : t.isWord word = true)
    (mem : word ∈ ["chan", "func", "interface", "map", "struct"]) : isTypeToken t = true := by
  simp only [isTypeToken, kind_of_isWord h, Bool.or_eq_true]
  simp only [List.mem_cons, List.not_mem_nil, or_false] at mem
  rcases mem with rfl | rfl | rfl | rfl | rfl <;> simp [h]

theorem isTypeToken_of_isLength {t : Token} (h : isLength t = true) : isTypeToken t = true :=
  (Bool.and_eq_true .. ▸ h).1

theorem isTypeToken_of_isMark {t : Token} (h : isMark t = true) : isTypeToken t = true := by
  unfold isMark at h
  cases kind : t.kind <;> simp_all [isTypeToken]

theorem isTypeToken_of_isTypeSign {t : Token} (h : isTypeSign t = true) : isTypeToken t = true := by
  simp only [isTypeSign, Bool.or_eq_true] at h
  rcases h with (star | word) | arrow
  · simp only [Token.isStar, Bool.and_eq_true, beq_iff_eq] at star
    simp [isTypeToken, star]
  · exact isTypeToken_of_isWord word (by simp)
  · simp only [Bool.and_eq_true, Bool.or_eq_true, beq_iff_eq] at arrow
    rcases arrow.2 with text | text <;> simp [isTypeToken, arrow.1, text]

theorem isTypeToken_of_kind {t : Token} {kind : Token.Kind} (h : t.kind = kind)
    (other : kind ≠ .ident ∧ kind ≠ .op ∧ kind ≠ .lineComment ∧ kind ≠ .blockComment) :
    isTypeToken t = true := by
  subst h
  unfold isTypeToken
  split <;> simp_all

theorem TypeName.tokens {ts : List Token} (h : TypeName ts) : ∀ t ∈ ts, isTypeToken t = true := by
  cases h with
  | own name => simpa using isTypeToken_of_isName name
  | qualified isName kind name =>
    simpa using ⟨isTypeToken_of_isName isName, isTypeToken_of_kind kind (by simp),
      isTypeToken_of_isName name⟩

theorem Spells.tokens {part : Part} {ts : List Token} (h : Spells part ts) :
    ∀ t ∈ ts, isTypeToken t = true := by
  induction h with
  | named name => exact name.tokens
  | generic name opens _ closes ih =>
    simp only [List.mem_append, List.mem_cons, List.not_mem_nil, or_false]
    rintro t (mem | rfl | mem | rfl)
    · exact name.tokens t mem
    · exact isTypeToken_of_kind opens (by simp)
    · exact ih t mem
    · exact isTypeToken_of_kind closes (by simp)
  | paren opens _ closes ih | several opens _ closes ih =>
    simp only [List.mem_append, List.mem_cons, List.not_mem_nil, or_false]
    rintro t (rfl | mem | rfl)
    · exact isTypeToken_of_kind opens (by simp)
    · exact ih t mem
    · exact isTypeToken_of_kind closes (by simp)
  | signed sign _ ih => exact List.forall_mem_cons.2 ⟨isTypeToken_of_isTypeSign sign, ih⟩
  | array opens tokens _ closes _ ih =>
    simp only [List.mem_append, List.mem_cons]
    rintro t (rfl | mem | rfl | mem)
    · exact isTypeToken_of_kind opens (by simp)
    · exact isTypeToken_of_isLength (tokens t mem)
    · exact isTypeToken_of_kind closes (by simp)
    · exact ih t mem
  | map word opens _ closes _ ih ih' | func word opens _ closes _ ih ih' =>
    simp only [List.mem_append, List.mem_cons]
    rintro t (rfl | rfl | mem | rfl | mem)
    · exact isTypeToken_of_isWord word (by simp)
    · exact isTypeToken_of_kind opens (by simp)
    · exact ih t mem
    · exact isTypeToken_of_kind closes (by simp)
    · exact ih' t mem
  | braced word opens _ closes ih =>
    simp only [List.mem_append, List.mem_cons, List.not_mem_nil, or_false]
    rintro t (rfl | rfl | mem | rfl)
    · rcases word with word | word
      · exact isTypeToken_of_isWord word (by simp)
      · exact isTypeToken_of_isWord word (by simp)
    · exact isTypeToken_of_kind opens (by simp)
    · exact ih t mem
    · exact isTypeToken_of_kind closes (by simp)
  | single _ ih | bare _ ih | last _ ih | one _ ih => exact ih
  | variadic kind dots _ ih =>
    exact List.forall_mem_cons.2 ⟨by simp [isTypeToken, kind, dots], ih⟩
  | labelled name _ ih => exact List.forall_mem_cons.2 ⟨isTypeToken_of_isName name, ih⟩
  | empty | nothing | done => simp
  | more _ kind _ ih ih' =>
    simp only [List.mem_append, List.mem_cons]
    rintro t (mem | rfl | mem)
    · exact ih t mem
    · exact isTypeToken_of_kind kind (by simp)
    · exact ih' t mem
  | mark mark _ ih => exact List.forall_mem_cons.2 ⟨isTypeToken_of_isMark mark, ih⟩
  | typed _ _ ih ih' => exact List.forall_mem_append.2 ⟨ih, ih'⟩
  | method opens _ closes _ ih ih' =>
    simp only [List.mem_append, List.mem_cons]
    rintro t (rfl | mem | rfl | mem)
    · exact isTypeToken_of_kind opens (by simp)
    · exact ih t mem
    · exact isTypeToken_of_kind closes (by simp)
    · exact ih' t mem

/-! ### Delimiters -/

theorem isPlain_of_isMark {t : Token} (h : isMark t = true) : t.isPlain = true := by
  unfold isMark at h
  cases kind : t.kind <;> simp_all [Token.isPlain]

theorem isPlain_of_isTypeSign {t : Token} (h : isTypeSign t = true) : t.isPlain = true := by
  simp only [isTypeSign, Bool.or_eq_true] at h
  rcases h with (star | word) | arrow
  · simp only [Token.isStar, Bool.and_eq_true, beq_iff_eq] at star
    simp [Token.isPlain, star.1]
  · exact isPlain_of_isWord word
  · simp only [Bool.and_eq_true, beq_iff_eq] at arrow
    simp [Token.isPlain, arrow.1]

theorem TypeName.balances {ts : List Token} (h : TypeName ts) : Balances [] ts := by
  cases h with
  | own name => exact (balances_plain (isPlain_of_isName name)).2 rfl
  | qualified isName kind name =>
    rw [balances_plain (isPlain_of_isName isName), balances_plain (by simp [Token.isPlain, kind]),
      balances_plain (isPlain_of_isName name)]
    rfl

theorem Spells.balances {part : Part} {ts : List Token} (h : Spells part ts) : Balances [] ts := by
  induction h with
  | named name => exact name.balances
  | generic name opens _ closes ih =>
    exact (@balances_append_iff [] [] _ _ name.balances).2 ((balances_group opens ih closes).2 rfl)
  | paren opens _ closes ih | several opens _ closes ih =>
    exact (balances_group opens ih closes).2 rfl
  | signed sign _ ih => exact (balances_plain (isPlain_of_isTypeSign sign)).2 ih
  | array opens _ length closes _ ih => exact (balances_group opens length closes).2 ih
  | map word opens _ closes _ ih ih' | func word opens _ closes _ ih ih' =>
    exact (balances_plain (isPlain_of_isWord word)).2 ((balances_group opens ih closes).2 ih')
  | braced word opens _ closes ih =>
    have plain := word.elim isPlain_of_isWord isPlain_of_isWord
    exact (balances_plain plain).2 ((balances_group opens ih closes).2 rfl)
  | single _ ih | bare _ ih | last _ ih | one _ ih => exact ih
  | variadic kind _ _ ih => exact (balances_plain (by simp [Token.isPlain, kind])).2 ih
  | labelled name _ ih => exact (balances_plain (isPlain_of_isName name)).2 ih
  | empty | nothing | done => rfl
  | more _ kind _ ih ih' =>
    exact (@balances_append_iff [] [] _ _ ih).2
      ((balances_plain (by simp [Token.isPlain, kind])).2 ih')
  | mark mark _ ih => exact (balances_plain (isPlain_of_isMark mark)).2 ih
  | typed _ _ ih ih' => exact (@balances_append_iff [] [] _ _ ih).2 ih'
  | method opens _ closes _ ih ih' => exact (balances_group opens ih closes).2 ih'

/-! ### Outside of the delimiters -/

/-- A token that the scans of an entry and of a result pass over. -/
def isCalm (t : Token) : Bool :=
  t.isPlain && t.kind != .comma && t.kind != .semicolon && !(t.kind == .op && t.text == ['=']) &&
    !(t.isWord "struct" || t.isWord "interface")

/-- Outside of its delimiters the code has no comma, semicolon or equals sign, and a brace only
behind `struct` or `interface`. -/
inductive Calm : List Token → Prop where
  | nil : Calm []
  | token {t : Token} {ts : List Token} (calm : isCalm t = true) (others : Calm ts) : Calm (t :: ts)
  | group {bracket : Bracket} {opener closer : Token} {us ts : List Token}
      (round : bracket ≠ .curly)
      (opens : opener.kind = .opening bracket) (inner : Balances [] us)
      (closes : closer.kind = .closing bracket) (others : Calm ts) :
      Calm (opener :: (us ++ closer :: ts))
  | braces {keyword opener closer : Token} {us ts : List Token}
      (word : keyword.isWord "struct" = true ∨ keyword.isWord "interface" = true)
      (opens : opener.kind = .opening .curly) (inner : Balances [] us)
      (closes : closer.kind = .closing .curly) (others : Calm ts) :
      Calm (keyword :: opener :: (us ++ closer :: ts))

theorem Calm.append {ts us : List Token} (h : Calm ts) (h' : Calm us) : Calm (ts ++ us) := by
  induction h with
  | nil => exact h'
  | token calm _ ih => exact .token calm ih
  | group round opens inner closes _ ih =>
    rw [List.cons_append, List.append_assoc]
    exact .group round opens inner closes ih
  | braces word opens inner closes _ ih =>
    rw [List.cons_append, List.cons_append, List.append_assoc]
    exact .braces word opens inner closes ih

theorem isCalm_of_ident {t : Token} (kind : t.kind = .ident)
    (other : (t.isWord "struct" || t.isWord "interface") = false) : isCalm t = true := by
  simp only [isCalm, other]
  simp [Token.isPlain, kind]

theorem isCalm_of_isName {t : Token} (h : t.isName = true) : isCalm t = true := by
  refine isCalm_of_ident (kind_of_isName h) ?_
  rw [isWord_of_isName h (by decide), isWord_of_isName h (by decide)]
  rfl

theorem ne_of_isWord {t : Token} {word other : String} (h : t.isWord word = true)
    (ne : word.toList ≠ other.toList) : t.isWord other = false := by
  simp only [Token.isWord, Bool.and_eq_true, beq_iff_eq] at h
  simp [Token.isWord, h.2, ne]

theorem isCalm_of_isWord {t : Token} {word : String} (h : t.isWord word = true)
    (struct : word.toList ≠ "struct".toList) (interface : word.toList ≠ "interface".toList) :
    isCalm t = true := by
  refine isCalm_of_ident (kind_of_isWord h) ?_
  rw [ne_of_isWord h struct, ne_of_isWord h interface]
  rfl

theorem isCalm_of_op {t : Token} (kind : t.kind = .op) (other : t.text ≠ ['=']) :
    isCalm t = true := by
  simp [isCalm, Token.isPlain, Token.isWord, kind, other]

theorem isCalm_of_isTypeSign {t : Token} (h : isTypeSign t = true) : isCalm t = true := by
  simp only [isTypeSign, Bool.or_eq_true] at h
  rcases h with (star | word) | arrow
  · simp only [Token.isStar, Bool.and_eq_true, beq_iff_eq] at star
    exact isCalm_of_op star.1 (by simp [star.2])
  · exact isCalm_of_isWord word (by decide) (by decide)
  · simp only [Bool.and_eq_true, Bool.or_eq_true, beq_iff_eq] at arrow
    rcases arrow.2 with text | text <;> exact isCalm_of_op arrow.1 (by simp [text])

theorem TypeName.calm {ts : List Token} (h : TypeName ts) : Calm ts := by
  cases h with
  | own name => exact .token (isCalm_of_isName name) .nil
  | qualified isName kind name =>
    exact .token (isCalm_of_isName isName)
      (.token (by simp [isCalm, Token.isPlain, Token.isWord, kind])
        (.token (isCalm_of_isName name) .nil))

/-- A group is split where its own delimiter closes it. -/
theorem splitAtClose_group {stack : List Bracket} {us ts : List Token} {closer : Token}
    {bracket : Bracket} (inner : Balances stack us) (closes : closer.kind = .closing bracket) :
    splitAtClose stack.length (us ++ closer :: ts) = some (us, ts) := by
  induction us generalizing stack with
  | nil =>
    obtain rfl : stack = [] := inner
    simp [splitAtClose, closes]
  | cons t us ih =>
    cases kind : t.kind with
    | opening b =>
      have deeper := ih ((balances_opening kind).1 inner)
      rw [List.length_cons] at deeper
      simp [splitAtClose, kind, deeper]
    | closing b =>
      obtain ⟨outer, rfl, rest⟩ := (balances_closing kind).1 inner
      simp [splitAtClose, kind, ih rest]
    | _ =>
      have plain : t.isPlain = true := by simp [Token.isPlain, kind]
      simp [splitAtClose, kind, ih ((balances_plain plain).1 inner)]

end GoSplit.Signature
