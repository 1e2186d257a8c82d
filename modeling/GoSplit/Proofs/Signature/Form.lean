import GoSplit.Proofs.Signature.Types

/-!
Types as the readers of signatures see them. Between delimiters any code may stand that closes what
it opens: the expression of a length, type arguments, the key of a map, parameters, fields, tags and
methods are all passed over. So more is a type here than in the language, and nothing that is a type
there is missing. A type outside of its delimiters is calm, cannot be mistaken for a name with a
type behind it, and ends with the parenthesis that it starts with, if it does.
-/

namespace GoSplit.Signature

open Token (kind_of_isName kind_of_isWord)

/-! ### Types outside of their delimiters -/

/-- A type, an element, which is a type that may have dots in front of it, or what follows the
parameters of a function type. -/
inductive Form : Part → List Token → Prop where
  | named {ts : List Token} (name : TypeName ts) : Form .type ts
  | generic {ts us : List Token} {opener closer : Token} (name : TypeName ts)
      (opens : opener.kind = .opening .square) (arguments : Balances [] us)
      (closes : closer.kind = .closing .square) : Form .type (ts ++ opener :: (us ++ [closer]))
  | paren {ts : List Token} {opener closer : Token} (opens : opener.kind = .opening .paren)
      (inner : Form .type ts) (closes : closer.kind = .closing .paren) :
      Form .type (opener :: (ts ++ [closer]))
  /-- A pointer or a channel. -/
  | signed {t : Token} {ts : List Token} (sign : isTypeSign t = true) (inner : Form .type ts) :
      Form .type (t :: ts)
  /-- Nothing stands between the brackets of a slice type. -/
  | array {ts us : List Token} {opener closer : Token} (opens : opener.kind = .opening .square)
      (length : Balances [] us) (closes : closer.kind = .closing .square) (inner : Form .type ts) :
      Form .type (opener :: (us ++ closer :: ts))
  | map {ts us : List Token} {keyword opener closer : Token} (word : keyword.isWord "map" = true)
      (opens : opener.kind = .opening .square) (key : Balances [] us)
      (closes : closer.kind = .closing .square) (value : Form .type ts) :
      Form .type (keyword :: opener :: (us ++ closer :: ts))
  | func {ts us : List Token} {keyword opener closer : Token} (word : keyword.isWord "func" = true)
      (opens : opener.kind = .opening .paren) (parameters : Balances [] us)
      (closes : closer.kind = .closing .paren) (result : Form .result ts) :
      Form .type (keyword :: opener :: (us ++ closer :: ts))
  /-- The literal of a structure or an interface. -/
  | braced {us : List Token} {keyword opener closer : Token}
      (word : keyword.isWord "struct" = true ∨ keyword.isWord "interface" = true)
      (opens : opener.kind = .opening .curly) (members : Balances [] us)
      (closes : closer.kind = .closing .curly) : Form .type (keyword :: opener :: (us ++ [closer]))
  | single {ts : List Token} (type : Form .type ts) : Form .element ts
  | variadic {t : Token} {ts : List Token} (kind : t.kind = .op) (dots : t.text = "...".toList)
      (type : Form .type ts) : Form .element (t :: ts)
  | nothing : Form .result []
  | one {ts : List Token} (type : Form .type ts) : Form .result ts
  | several {us : List Token} {opener closer : Token} (opens : opener.kind = .opening .paren)
      (list : Balances [] us) (closes : closer.kind = .closing .paren) :
      Form .result (opener :: (us ++ [closer]))

/-- Types that are spelled out in full have this form. -/
theorem Spells.form {part : Part} {ts : List Token} (h : Spells part ts)
    (whole : part = .type ∨ part = .element ∨ part = .result) : Form part ts := by
  induction h with
  | named name => exact .named name
  | generic name opens arguments closes _ => exact .generic name opens arguments.balances closes
  | paren opens _ closes ih => exact .paren opens (ih (by simp)) closes
  | signed sign _ ih => exact .signed sign (ih (by simp))
  | array opens _ length closes _ ih => exact .array opens length closes (ih (by simp))
  | map word opens key closes _ _ ih => exact .map word opens key.balances closes (ih (by simp))
  | func word opens parameters closes _ _ ih =>
    exact .func word opens parameters.balances closes (ih (by simp))
  | braced word opens members closes _ => exact .braced word opens members.balances closes
  | single _ ih => exact .single (ih (by simp))
  | variadic kind dots _ ih => exact .variadic kind dots (ih (by simp))
  | nothing => exact .nothing
  | one _ ih => exact .one (ih (by simp))
  | several opens list closes _ => exact .several opens list.balances closes
  | bare _ _ | labelled _ _ _ | empty | last _ _ | more _ _ _ _ _ | done | mark _ _ _
  | typed _ _ _ _
  | method _ _ _ _ _ _ => simp at whole

theorem Calm.balances {ts : List Token} (h : Calm ts) : Balances [] ts := by
  induction h with
  | nil => rfl
  | token calm _ ih =>
    simp only [isCalm, Bool.and_eq_true] at calm
    exact (balances_plain calm.1.1.1.1).2 ih
  | group _ opens inner closes _ ih => exact (balances_group opens inner closes).2 ih
  | braces word opens inner closes _ ih =>
    have plain := word.elim Token.isPlain_of_isWord Token.isPlain_of_isWord
    exact (balances_plain plain).2 ((balances_group opens inner closes).2 ih)

theorem Form.calm {part : Part} {ts : List Token} (h : Form part ts) : Calm ts := by
  induction h with
  | named name => exact name.calm
  | generic name opens arguments closes =>
    exact name.calm.append (.group (by simp) opens arguments closes .nil)
  | paren opens _ closes ih => exact .group (by simp) opens ih.balances closes .nil
  | signed sign _ ih => exact .token (isCalm_of_isTypeSign sign) ih
  | array opens length closes _ ih => exact .group (by simp) opens length closes ih
  | map word opens inside closes _ ih | func word opens inside closes _ ih =>
    exact .token (isCalm_of_isWord word (by decide) (by decide))
      (.group (by simp) opens inside closes ih)
  | braced word opens members closes => exact .braces word opens members closes .nil
  | single _ ih | one _ ih => exact ih
  | variadic kind dots _ ih => exact .token (isCalm_of_op kind (by rw [dots]; decide)) ih
  | nothing => exact .nil
  | several opens list closes => exact .group (by simp) opens list closes .nil

/-! ### Types and names -/

theorem isName_of_ne {t : Token} (kind : t.kind ≠ .ident) : t.isName = false := by
  simp [Token.isName, kind]

theorem isName_of_isWord {t : Token} {word : String} (h : t.isWord word = true)
    (keyword : isKeyword word.toList = true) : t.isName = false := by
  simp only [Token.isWord, Bool.and_eq_true, beq_iff_eq] at h
  simp [Token.isName, h.2, keyword]

theorem isName_of_isTypeSign {t : Token} (h : isTypeSign t = true) : t.isName = false := by
  simp only [isTypeSign, Bool.or_eq_true] at h
  rcases h with (star | word) | arrow
  · simp only [Token.isStar, Bool.and_eq_true, beq_iff_eq] at star
    exact isName_of_ne (by simp [star.1])
  · exact isName_of_isWord word (by decide)
  · simp only [Bool.and_eq_true, beq_iff_eq] at arrow
    exact isName_of_ne (by simp [arrow.1])

theorem startsWithName_of_isName {t : Token} {ts : List Token} (h : t.isName = false) :
    startsWithName (t :: ts) = false := by
  cases ts <;> simp [startsWithName, h]

namespace Form

/-- A type is not taken for a name with a type. -/
theorem startsWithName_type {ts : List Token} (h : Form .type ts) : startsWithName ts = false := by
  cases h with
  | named name =>
    cases name with
    | own name => rfl
    | qualified isName kind name => simp [startsWithName, kind]
  | generic name opens arguments closes =>
    have split := @splitAtClose_group [] _ [] _ _ arguments closes
    rw [List.length_nil] at split
    cases name with
    | own name => simp [startsWithName, opens, split]
    | qualified isName kind name => simp [startsWithName, kind]
  | paren opens _ _ | array opens _ _ _ =>
    exact startsWithName_of_isName (isName_of_ne (by simp [opens]))
  | signed sign _ => exact startsWithName_of_isName (isName_of_isTypeSign sign)
  | map word _ _ _ _ | func word _ _ _ _ =>
    exact startsWithName_of_isName (isName_of_isWord word (by decide))
  | braced word _ _ _ =>
    rcases word with word | word
    · exact startsWithName_of_isName (isName_of_isWord word (by decide))
    · exact startsWithName_of_isName (isName_of_isWord word (by decide))

theorem startsWithName_element {ts : List Token} (h : Form .element ts) :
    startsWithName ts = false := by
  cases h with
  | single type => exact type.startsWithName_type
  | variadic kind dots type => exact startsWithName_of_isName (isName_of_ne (by simp [kind]))

theorem ne_nil {ts : List Token} (h : Form .type ts) : ts ≠ [] := by
  cases h with
  | named name => cases name <;> simp
  | _ => simp

theorem startsWithName_cons {name t : Token} {ts : List Token} (isName : name.isName = true)
    (dot : t.kind ≠ .dot) (square : t.kind ≠ .opening .square) :
    startsWithName (name :: t :: ts) = true := by
  simp only [startsWithName, isName, Bool.true_and]

/-- A name with a type behind it is told from a type. -/
theorem startsWithName_labelled {name : Token} {ts : List Token} (isName : name.isName = true)
    (h : Form .element ts) : startsWithName (name :: ts) = true := by
  have ident : ∀ {t : Token} {us : List Token}, t.kind = .ident →
      startsWithName (name :: t :: us) = true :=
    fun kind => startsWithName_cons isName (by simp [kind]) (by simp [kind])
  cases h with
  | variadic kind dots type => exact startsWithName_cons isName (by simp [kind]) (by simp [kind])
  | single type =>
    cases type with
    | named name | generic name _ _ _ =>
      cases name with
      | own name => exact ident (kind_of_isName name)
      | qualified package _ _ => exact ident (kind_of_isName package)
    | paren opens _ _ => exact startsWithName_cons isName (by simp [opens]) (by simp [opens])
    | signed sign _ =>
      apply startsWithName_cons isName
      · intro dot
        simp [isTypeSign, Token.isStar, Token.isWord, dot] at sign
      · intro square
        simp [isTypeSign, Token.isStar, Token.isWord, square] at sign
    | array opens length closes inner =>
      have split := fun ts => @splitAtClose_group [] _ ts _ _ length closes
      rw [List.length_nil] at split
      simp [startsWithName, isName, opens, split, inner.ne_nil]
    | map keyword _ _ _ _ | func keyword _ _ _ _ => exact ident (kind_of_isWord keyword)
    | braced keyword _ _ _ => exact ident (keyword.elim kind_of_isWord kind_of_isWord)

/-- A type that starts with a parenthesis ends with it. -/
theorem exists_paren {ts : List Token} (h : Form .type ts) {t : Token} (mem : t ∈ ts.head?)
    (kind : t.kind = .opening .paren) :
    ∃ opener inner closer, ts = opener :: (inner ++ [closer]) ∧ closer.kind = .closing .paren ∧
      Form .type inner := by
  have other : ∀ {u : Token} {us : List Token}, u.kind ≠ .opening .paren → t ∉ (u :: us).head? := by
    intro u us ne mem
    obtain rfl := Option.some.inj mem
    exact ne kind
  cases h with
  | paren opens inner closes => exact ⟨_, _, _, rfl, closes, inner⟩
  | named name | generic name _ _ _ =>
    cases name with
    | own name => exact absurd mem (other (by simp [kind_of_isName name]))
    | qualified isName _ _ => exact absurd mem (other (by simp [kind_of_isName isName]))
  | signed sign _ =>
    refine absurd mem (other fun paren => ?_)
    simp [isTypeSign, Token.isStar, Token.isWord, paren] at sign
  | array opens _ _ _ => exact absurd mem (other (by simp [opens]))
  | map word _ _ _ _ | func word _ _ _ _ => exact absurd mem (other (by simp [kind_of_isWord word]))
  | braced word _ _ _ =>
    exact absurd mem (other (by simp [word.elim kind_of_isWord kind_of_isWord]))

end Form

end GoSplit.Signature
