import GoSplit.Proofs.Selector.Passing
import GoSplit.Proofs.Selector.Declared

/-!
What a token leaves as it is. The effects of a token on the walk are listed once; from the list
follow the depth behind a piece of code, that selectors are never taken back, that a block keeps
its names until its brace, and that a name which nothing declares stays unbound.
-/

namespace GoSplit.Selector

namespace Walk

section

variable {w : Walk} {d : Depth} {before after : List Token} {t : Token}

/-- What holds of the walk after each effect that a token can have holds after the token. -/
theorem act_elim {motive : Walk → Prop} (still : t.isPlain = true → motive w)
    (opens : t.kind = .opening .curly → motive (w.openBlock d t))
    (closes : t.kind = .closing .curly → motive w.closeBlock)
    (enters : ∀ bracket, t.kind = .opening bracket → bracket ≠ .curly →
      motive { w with parens := w.parens + 1 })
    (leaves : ∀ bracket, t.kind = .closing bracket → bracket ≠ .curly →
      motive { w with parens := w.parens - 1 })
    (ends : t.kind = .semicolon → motive (w.semicolon d))
    (learns : ∀ body, t.isWord "func" = true → Signature.bindings after = some body →
      motive { w with bodies := body :: w.bodies })
    (heads : isHeader t = true → motive { w with header := some d, headerNames := [] })
    (declares : (t.isWord "var" || t.isWord "const") = true →
      motive { w with pending := w.pending ++ [⟨statementNames after, d, false⟩] })
    (reports : t.kind = .ident → isBase before after = true → w.binds t.text = false →
      motive { w with used := w.used ++ [t.text] })
    (defines : t.kind = .op → isDefine t after = true →
      motive { w with pending := w.pending ++ [⟨nameList before, d, w.header == some d⟩] }) :
    motive (w.act d before t after) := by
  unfold act
  cases kind : t.kind with
  | opening bracket =>
    cases bracket with
    | curly => exact opens kind
    | paren => exact enters .paren kind (by simp)
    | square => exact enters .square kind (by simp)
  | closing bracket =>
    cases bracket with
    | curly => exact closes kind
    | paren => exact leaves .paren kind (by simp)
    | square => exact leaves .square kind (by simp)
  | semicolon => exact ends kind
  | ident =>
    simp only [word]
    split
    · next func =>
      cases found : Signature.bindings after with
      | none => exact still (by simp [Token.isPlain, kind])
      | some body => exact learns body func found
    · split
      · next header => exact heads header
      · split
        · next declared => exact declares (Bool.and_eq_true .. ▸ declared).1
        · split
          · next base =>
            simp only [Bool.and_eq_true, Bool.not_eq_true'] at base
            exact reports kind base.1 base.2
          · exact still (by simp [Token.isPlain, kind])
  | op =>
    simp only
    split
    · next define => exact defines kind define
    · exact still (by simp [Token.isPlain, kind])
  | _ => exact still (by simp [Token.isPlain, kind])

end

section

variable (w : Walk) (before after rest : List Token) (t : Token)

/-! ### Depth -/

theorem semicolon_depth (d : Depth) : (w.semicolon d).depth = w.depth := by
  by_cases header : w.header = some d
  · rw [semicolon_header header]
    obtain ⟨-, -, size, parens, -⟩ := endStatement_frame
      { (w.takeHeader d).2 with headerNames := w.headerNames ++ (w.takeHeader d).1 } d
    rw [depth, size, parens]
    rfl
  · rw [semicolon_other header]
    obtain ⟨-, -, size, parens, -⟩ := w.endStatement_frame d
    rw [depth, size, parens]
    rfl

theorem openBlock_depth (d : Depth) :
    (w.openBlock d t).depth = { w.depth with blocks := w.depth.blocks + 1 } := by
  by_cases header : w.header = some d
  · rw [openBlock_header header]
    rfl
  · rw [openBlock_other header]
    rfl

theorem kind_of_isHeader {t : Token} (h : isHeader t = true) : t.kind = .ident := by
  simp only [isHeader, Token.isWord, Bool.or_eq_true, Bool.and_eq_true, beq_iff_eq] at h
  rcases h with ((h | h) | h) | h <;> exact h.1

theorem isPlain_of_isHeader {t : Token} (h : isHeader t = true) : t.isPlain = true := by
  simp [Token.isPlain, kind_of_isHeader h]

/-- The depth behind a token is known from the depth in front of it. -/
theorem act_depth (d : Depth) : (w.act d before t after).depth = w.depth.after t := by
  have plain : t.isPlain = true → w.depth = w.depth.after t :=
    fun plain => (Inside.depth_plain plain w.depth).symm
  apply act_elim (motive := fun v => v.depth = w.depth.after t)
  case still => exact plain
  case opens =>
    intro kind
    rw [openBlock_depth]
    simp [Depth.after, kind]
  case closes =>
    intro kind
    simp [closeBlock, depth, Depth.after, kind]
  case enters =>
    intro bracket kind round
    cases bracket <;> simp_all [depth, Depth.after]
  case leaves =>
    intro bracket kind round
    cases bracket <;> simp_all [depth, Depth.after]
  case ends =>
    intro kind
    rw [semicolon_depth]
    exact plain (by simp [Token.isPlain, kind])
  case learns => exact fun body word _ => plain (Token.isPlain_of_isWord word)
  case heads => exact fun header => plain (isPlain_of_isHeader header)
  case declares =>
    intro word
    rw [Bool.or_eq_true] at word
    exact plain (word.elim Token.isPlain_of_isWord Token.isPlain_of_isWord)
  case reports => exact fun kind _ _ => plain (by simp [Token.isPlain, kind])
  case defines => exact fun kind _ => plain (by simp [Token.isPlain, kind])

theorem step_depth : (w.step before t after).depth = w.depth.after t := by
  rw [step_eq, act_depth, broken_depth]

end

end Walk

/-- The depth inside the delimiters of a stack that is opened at depth `d`. -/
def Depth.within (d : Depth) (stack : List Bracket) : Depth :=
  ⟨d.blocks + stack.count .curly, d.parens + (stack.length - stack.count .curly)⟩

theorem Depth.within_nil (d : Depth) : d.within [] = d := rfl

/-- Inside delimiters the depth is another one. -/
theorem Depth.within_ne {stack : List Bracket} (some : stack.length ≠ 0) (d : Depth) :
    d.within stack ≠ d := by
  have bound := stack.count_le_length (a := Bracket.curly)
  intro same
  have blocks := congrArg Depth.blocks same
  have parens := congrArg Depth.parens same
  simp only [Depth.within] at blocks parens
  omega

/-- How many of the innermost blocks are open behind a token. -/
def innerAfter (t : Token) (n : Nat) : Nat :=
  match t.kind with
  | .opening .curly => n + 1
  | .closing .curly => n - 1
  | _ => n

theorem innerAfter_plain {t : Token} (plain : t.isPlain = true) (n : Nat) : innerAfter t n = n := by
  cases kind : t.kind <;> simp_all [Token.isPlain, innerAfter]

theorem innerAfter_round {t : Token} {bracket : Bracket}
    (kind : t.kind = .opening bracket ∨ t.kind = .closing bracket) (round : bracket ≠ .curly)
    (n : Nat) : innerAfter t n = n := by
  cases bracket <;> rcases kind with kind | kind <;> simp_all [innerAfter]

/-- A token takes the stack of open delimiters to another one, and all that is counted of it goes
along. -/
theorem exists_stack {stack : List Bracket} {t : Token} {ts : List Token}
    (balanced : Balances stack (t :: ts)) :
    ∃ stack', Balances stack' ts ∧ (∀ d : Depth, (d.within stack).after t = d.within stack') ∧
      t.opened stack.length = stack'.length ∧ innerAfter t (stack.count .curly) =
        stack'.count .curly := by
  cases kind : t.kind with
  | opening bracket =>
    have bound := stack.count_le_length (a := Bracket.curly)
    refine ⟨bracket :: stack, (balances_opening kind).1 balanced, fun d => ?_,
      by simp [Token.opened, kind], ?_⟩
    · cases bracket <;> simp [Depth.within, Depth.after, kind, Nat.add_assoc] <;> omega
    · cases bracket <;> simp [innerAfter, kind]
  | closing bracket =>
    obtain ⟨outer, rfl, balanced'⟩ := (balances_closing kind).1 balanced
    have bound := outer.count_le_length (a := Bracket.curly)
    refine ⟨outer, balanced', fun d => ?_, by simp [Token.opened, kind], ?_⟩
    · cases bracket <;> simp [Depth.within, Depth.after, kind, ← Nat.add_assoc] <;> omega
    · cases bracket <;> simp [innerAfter, kind]
  | _ =>
    have plain : t.isPlain = true := by simp [Token.isPlain, kind]
    exact ⟨stack, (balances_plain plain).1 balanced, fun d => Inside.depth_plain plain _,
      by simp [Token.opened, kind], innerAfter_plain plain _⟩

theorem balances_of_plain {ts : List Token} (plain : ∀ t ∈ ts, t.isPlain = true) :
    Balances [] ts := by
  induction ts with
  | nil => rfl
  | cons t ts ih =>
    rw [List.forall_mem_cons] at plain
    exact (balances_plain plain.1).2 (ih plain.2)

namespace Walk

/-- Behind code that closes what it opens the depth is that outside. -/
theorem pass_depth {stack : List Bracket} {ts : List Token} (balanced : Balances stack ts)
    {d : Depth} {w : Walk} (here : w.depth = d.within stack) (before rest : List Token) :
    (w.pass before rest ts).depth = d := by
  induction ts generalizing stack w before with
  | nil =>
    obtain rfl : stack = [] := balanced
    exact here
  | cons t ts ih =>
    obtain ⟨stack', balanced', within, -⟩ := exists_stack balanced
    rw [pass_cons]
    refine ih balanced' ?_ _
    rw [step_depth, here, within]

/-! ### Headers -/

theorem word_header {t : Token} (header : isHeader t = true) (w : Walk) (d : Depth)
    (before after : List Token) :
    w.word d before t after = { w with header := some d, headerNames := [] } := by
  have other : t.isWord "func" = false := by
    rw [Bool.eq_false_iff]
    intro func
    simp only [isHeader, Token.isWord, Bool.or_eq_true, Bool.and_eq_true, beq_iff_eq] at header func
    rw [func.2] at header
    exact absurd (header.imp (Or.imp (Or.imp And.right And.right) And.right) And.right) (by decide)
  rw [isHeader] at header
  simp only [word, other, Bool.false_eq_true, if_false, header, if_true]

theorem step_keyword {t : Token} (header : isHeader t = true) (w : Walk)
    (before after : List Token) :
    (w.step before t after).header = some w.depth := by
  rw [step_eq, act, kind_of_isHeader header]
  simp only [word_header header]

/-- Only its keyword starts a header, and only a brace ends it. -/
theorem step_header {t : Token} (other : isHeader t = false) (w : Walk)
    (before after : List Token) :
    (w.step before t after).header = w.header ∨
      t.kind = .opening .curly ∧ (w.step before t after).header = none := by
  have frame : (w.broken before t).header = w.header := (w.broken_frame before t).2.2.2.2.1
  rw [step_eq, ← frame]
  generalize w.broken before t = v
  apply act_elim
    (motive := fun x => x.header = v.header ∨ t.kind = .opening .curly ∧ x.header = none)
  case opens =>
    intro kind
    by_cases header : v.header = some w.depth
    · rw [openBlock_header header]
      exact .inr ⟨kind, rfl⟩
    · rw [openBlock_other header]
      exact .inl rfl
  case ends =>
    intro _
    by_cases header : v.header = some w.depth
    · rw [semicolon_header header]
      exact .inl (endStatement_frame _ _).2.2.2.2.1
    · rw [semicolon_other header]
      exact .inl (endStatement_frame _ _).2.2.2.2.1
  case heads => exact fun header => absurd header (by simp [other])
  all_goals intros; exact .inl rfl

theorem pass_header {ts : List Token} (other : ∀ t ∈ ts, isHeader t = false) (w : Walk)
    (before rest : List Token) :
    (w.pass before rest ts).header = w.header ∨
      (∃ t ∈ ts, t.kind = .opening .curly) ∧ (w.pass before rest ts).header = none := by
  induction ts generalizing w before with
  | nil => exact .inl rfl
  | cons t ts ih =>
    rw [List.forall_mem_cons] at other
    rw [pass_cons]
    rcases ih other.2 (w.step before t (ts ++ rest)) (t :: before) with
      same | ⟨⟨u, mem, curly⟩, gone⟩
    · rw [same]
      rcases step_header other.1 w before (ts ++ rest) with same | ⟨curly, gone⟩
      · exact .inl same
      · exact .inr ⟨⟨t, List.mem_cons_self .., curly⟩, gone⟩
    · exact .inr ⟨⟨u, List.mem_cons_of_mem t mem, curly⟩, gone⟩

/-! ### Selectors -/

section

variable {w : Walk} {before after rest : List Token} {t : Token}

theorem openBlock_used (d : Depth) : (w.openBlock d t).used = w.used := by
  by_cases header : w.header = some d
  · rw [openBlock_header header]
    rfl
  · rw [openBlock_other header]

theorem semicolon_used (d : Depth) : (w.semicolon d).used = w.used := by
  by_cases header : w.header = some d
  · rw [semicolon_header header]
    exact (endStatement_frame _ _).2.1
  · rw [semicolon_other header]
    exact (endStatement_frame _ _).2.1

/-- A token adds at most its own text to the selectors, and nothing that is bound. -/
theorem step_used : (w.step before t after).used = w.used ∨
    (w.broken before t).binds t.text = false ∧ (w.step before t after).used =
      w.used ++ [t.text] := by
  have frame : (w.broken before t).used = w.used := (w.broken_frame before t).2.1
  rw [step_eq]
  generalize w.broken before t = v at frame
  rw [← frame]
  apply act_elim (motive := fun x =>
    x.used = v.used ∨ v.binds t.text = false ∧ x.used = v.used ++ [t.text])
  case still => exact fun _ => .inl rfl
  case opens => exact fun _ => .inl (openBlock_used _)
  case closes => exact fun _ => .inl rfl
  case enters => exact fun _ _ _ => .inl rfl
  case leaves => exact fun _ _ _ => .inl rfl
  case ends => exact fun _ => .inl (semicolon_used _)
  case learns => exact fun _ _ _ => .inl rfl
  case heads => exact fun _ => .inl rfl
  case declares => exact fun _ => .inl rfl
  case reports => exact fun _ _ free => .inr ⟨free, rfl⟩
  case defines => exact fun _ _ => .inl rfl

theorem step_used_of_binds (bound : (w.broken before t).binds t.text = true) :
    (w.step before t after).used = w.used := by
  rcases @step_used w before after t with same | ⟨free, -⟩
  · exact same
  · simp [bound] at free

theorem used_subset_run (ts : List Token) : w.used ⊆ (w.run before ts).used := by
  induction ts generalizing w before with
  | nil => exact List.Subset.refl _
  | cons t ts ih =>
    have here : w.used ⊆ (w.step before t ts).used := by
      rcases @step_used w before ts t with same | ⟨-, more⟩
      · rw [same]
        exact List.Subset.refl _
      · rw [more]
        exact List.subset_append_left ..
    exact List.Subset.trans here ih

theorem isInert_of_isName (name : t.isName = true) : isInert t = true := by
  have other : ∀ {word : String}, isKeyword word.toList = true → t.isWord word = false :=
    fun keyword => Token.isWord_of_isName name keyword
  simp only [isInert, Token.kind_of_isName name, isHeader]
  rw [other (by decide), other (by decide), other (by decide), other (by decide), other (by decide),
    other (by decide), other (by decide)]
  rfl

theorem isHeader_of_isName (name : t.isName = true) : isHeader t = false := by
  have inert := isInert_of_isName name
  simp only [isInert, Token.kind_of_isName name, Bool.not_eq_true', Bool.or_eq_false_iff] at inert
  exact inert.1.1.2

/-- The base of a selector that nothing binds is reported. -/
theorem mem_step_used (name : t.isName = true) (base : isBase before after = true)
    (free : (w.broken before t).binds t.text = false) : t.text ∈ (w.step before t after).used := by
  rw [step_eq, act, Token.kind_of_isName name]
  simp only [word_inert (isInert_of_isName name) (Token.kind_of_isName name), base, free]
  simp [report]

end

/-! ### Names of a block -/

section

variable {w : Walk} {before after rest : List Token} {t : Token} {inner outer : List (List Text)}
  {scope : List Text}

/-- The end of a statement takes no name from a block. -/
theorem endStatement_keeps (scopes : w.scopes = inner ++ scope :: outer) (d : Depth) :
    ∃ inner' more, (w.endStatement d).scopes = inner' ++ (scope ++ more) :: outer ∧
      inner'.length = inner.length := by
  cases inner with
  | nil =>
    refine ⟨[], (w.pending.partition fun p => !p.inHeader && p.depth == d).1.flatMap
      (·.names), ?_, rfl⟩
    rw [List.nil_append] at scopes
    simp [endStatement, scopes]
  | cons top inner =>
    refine ⟨(top ++ (w.pending.partition fun p => !p.inHeader && p.depth == d).1.flatMap
      (·.names)) :: inner,
      [], ?_, rfl⟩
    rw [List.cons_append] at scopes
    simp [endStatement, scopes]

theorem broken_keeps (scopes : w.scopes = inner ++ scope :: outer) :
    ∃ inner' more, (w.broken before t).scopes = inner' ++ (scope ++ more) :: outer ∧
      inner'.length = inner.length := by
  unfold broken
  split
  · exact endStatement_keeps scopes w.depth
  · exact ⟨inner, [], by rw [scopes, List.append_nil], rfl⟩

theorem act_keeps (scopes : w.scopes = inner ++ scope :: outer)
    (inside : t.kind = .closing .curly → inner ≠ []) (d : Depth) :
    ∃ inner' more, (w.act d before t after).scopes = inner' ++ (scope ++ more) :: outer ∧
      inner'.length = innerAfter t inner.length := by
  have same : ∀ {v : Walk}, v.scopes = w.scopes → innerAfter t inner.length = inner.length →
      ∃ inner' more, v.scopes = inner' ++ (scope ++ more) :: outer ∧
        inner'.length = innerAfter t inner.length :=
    fun {v} eq size => ⟨inner, [], by rw [eq, scopes, List.append_nil], size.symm⟩
  have plain : t.isPlain = true → innerAfter t inner.length = inner.length :=
    fun plain => innerAfter_plain plain _
  apply act_elim (motive := fun v => ∃ inner' more, v.scopes = inner' ++ (scope ++ more) :: outer ∧
    inner'.length = innerAfter t inner.length)
  case still => exact fun still => same rfl (plain still)
  case opens =>
    intro kind
    have size : innerAfter t inner.length = inner.length + 1 := by simp [innerAfter, kind]
    by_cases header : w.header = some d
    · exact ⟨_ :: inner, [],
        by rw [openBlock_header header, List.append_nil, List.cons_append, ← scopes], size.symm⟩
    · exact ⟨_ :: inner, [],
        by rw [openBlock_other header, List.append_nil, List.cons_append, ← scopes], size.symm⟩
  case closes =>
    intro kind
    have size : innerAfter t inner.length = inner.length - 1 := by simp [innerAfter, kind]
    obtain ⟨top, inner', rfl⟩ := List.exists_cons_of_ne_nil (inside kind)
    exact ⟨inner', [], by simp [closeBlock, scopes], by rw [size]; rfl⟩
  case enters => exact fun _ kind round => same rfl (innerAfter_round (.inl kind) round _)
  case leaves => exact fun _ kind round => same rfl (innerAfter_round (.inr kind) round _)
  case ends =>
    intro kind
    have size : innerAfter t inner.length = inner.length := by simp [innerAfter, kind]
    rw [size]
    by_cases header : w.header = some d
    · rw [semicolon_header header]
      apply endStatement_keeps
      exact scopes
    · rw [semicolon_other header]
      exact endStatement_keeps scopes d
  case learns => exact fun _ word _ => same rfl (plain (Token.isPlain_of_isWord word))
  case heads => exact fun header => same rfl (plain (isPlain_of_isHeader header))
  case declares =>
    intro word
    rw [Bool.or_eq_true] at word
    exact same rfl (plain (word.elim Token.isPlain_of_isWord Token.isPlain_of_isWord))
  case reports => exact fun kind _ _ => same rfl (plain (by simp [Token.isPlain, kind]))
  case defines => exact fun kind _ => same rfl (plain (by simp [Token.isPlain, kind]))

/-- A block keeps its names as long as it is not closed. -/
theorem pass_keeps {stack : List Bracket} {ts us : List Token}
    (balanced : Balances stack (ts ++ us)) (scopes : w.scopes = inner ++ scope :: outer)
    (size : inner.length = stack.count .curly) :
    ∃ inner' more, (w.pass before rest ts).scopes = inner' ++ (scope ++ more) :: outer := by
  induction ts generalizing w before stack inner scope with
  | nil => exact ⟨inner, [], by rw [List.append_nil]; exact scopes⟩
  | cons t ts ih =>
    have inside : t.kind = .closing .curly → inner ≠ [] := by
      rintro kind rfl
      obtain ⟨outer', rfl, -⟩ := (balances_closing kind).1 balanced
      simp at size
    obtain ⟨inner₁, more₁, scopes₁, size₁⟩ := @broken_keeps w before t inner outer scope scopes
    have inside₁ : t.kind = .closing .curly → inner₁ ≠ [] := by
      intro kind none
      rw [none] at size₁
      exact inside kind (List.length_eq_zero_iff.1 size₁.symm)
    obtain ⟨inner₂, more₂, scopes₂, size₂⟩ :=
      @act_keeps (w.broken before t) before (ts ++ rest) t inner₁ outer (scope ++ more₁) scopes₁
        inside₁ w.depth
    rw [← step_eq] at scopes₂
    rw [size₁, size] at size₂
    obtain ⟨stack', balanced', -, -, count⟩ := exists_stack balanced
    rw [count] at size₂
    obtain ⟨inner', more, kept⟩ :=
      @ih (w.step before t (ts ++ rest)) (t :: before) inner₂ _ stack' balanced'
      scopes₂ size₂
    exact ⟨inner', more₁ ++ (more₂ ++ more), by rw [pass_cons, kept]; simp⟩

theorem binds_of_mem (scopes : w.scopes = inner ++ scope :: outer) {name : Text}
    (mem : name ∈ scope) :
    w.binds name = true := by
  simp [binds, scopes, mem]

/-- A name of a block is not reported as long as the block is open. -/
theorem step_used_inside {stack : List Bracket} {ts us : List Token}
    (balanced : Balances stack (ts ++ us)) (scopes : w.scopes = inner ++ scope :: outer)
    (size : inner.length = stack.count .curly) (mem : t.text ∈ scope) (before' : List Token) :
    ((w.pass before rest ts).step before' t after).used = (w.pass before rest ts).used := by
  obtain ⟨inner', more, kept⟩ :=
    @pass_keeps w before rest inner outer scope stack ts us balanced scopes size
  obtain ⟨inner'', more', broken, -⟩ := @broken_keeps (w.pass before rest ts) before' t _ _ _ kept
  exact step_used_of_binds (binds_of_mem broken (by simp [mem]))

end

/-! ### Names that nothing declares -/

/-- The names that a `var` or `const` statement or a definition declares at a token. -/
def stated (before : List Token) (t : Token) (after : List Token) : List Text :=
  if t.isWord "var" || t.isWord "const" then statementNames after
  else if t.kind == .op && isDefine t after then nameList before
  else []

/-- The names that the walk reads off at a token: those of a statement or of a signature. -/
def declaredAt (before : List Token) (t : Token) (after : List Token) : List Text :=
  stated before t after ++
    if t.isWord "func" then ((Signature.bindings after).map Prod.snd).getD [] else []

/-- The names declared in a piece of code. -/
def declared (before rest : List Token) : List Token → List Text
  | [] => []
  | t :: ts => declaredAt before t (ts ++ rest) ++ declared (t :: before) rest ts

/-- Outside of the innermost blocks the walk neither binds the name nor knows of a statement that
declares it. -/
structure Avoids (w : Walk) (inner : Nat) (name : Text) : Prop where
  scopes : ∀ scope ∈ w.scopes.drop inner, name ∉ scope
  header : name ∉ w.headerNames
  pending : ∀ p ∈ w.pending, name ∉ p.names

/-- None of the braces ahead is known to open a body that binds the name. -/
def Spares (bodies : List (Nat × List Text)) (ahead : List Token) (name : Text) : Prop :=
  ∀ brace ∈ ahead, brace.kind = .opening .curly → name ∉ (bodies.lookup brace.start).getD []

section

variable {w : Walk} {before after rest : List Token} {t : Token} {name : Text} {inner : Nat}

theorem Avoids.binds (h : w.Avoids 0 name) : w.binds name = false := by
  simp only [Walk.binds, Bool.or_eq_false_iff, List.any_eq_false]
  exact ⟨by simpa using h.header, fun scope mem => by simpa using h.scopes scope mem⟩

theorem Avoids.endStatement (h : w.Avoids inner name) (d : Depth) :
    (w.endStatement d).Avoids inner name := by
  obtain ⟨-, -, -, -, -, names, kept⟩ := w.endStatement_frame d
  refine ⟨?_, by rw [names]; exact h.header, fun p mem => h.pending p (kept p mem)⟩
  unfold Walk.endStatement
  split
  · exact h.scopes
  · next scope outer scopes =>
    have old := h.scopes
    rw [scopes] at old
    cases inner with
    | succ inner => exact old
    | zero =>
      refine List.forall_mem_cons.2 ⟨fun mem => ?_, (List.forall_mem_cons.1 old).2⟩
      rcases List.mem_append.1 mem with mem | mem
      · exact (List.forall_mem_cons.1 old).1 mem
      · obtain ⟨p, mem, named⟩ := List.mem_flatMap.1 mem
        rw [List.partition_eq_filter_filter] at mem
        exact h.pending p (List.mem_filter.1 mem).1 named

theorem Avoids.broken (h : w.Avoids inner name) : (w.broken before t).Avoids inner name := by
  unfold Walk.broken
  split
  · exact h.endStatement w.depth
  · exact h

theorem Avoids.takeHeader (h : w.Avoids inner name) (d : Depth) :
    name ∉ (w.takeHeader d).1 ∧ ∀ p ∈ (w.takeHeader d).2.pending, name ∉ p.names := by
  simp only [Walk.takeHeader, List.partition_eq_filter_filter]
  refine ⟨fun mem => ?_, fun p mem => h.pending p (List.mem_filter.1 mem).1⟩
  obtain ⟨p, mem, named⟩ := List.mem_flatMap.1 mem
  exact h.pending p (List.mem_filter.1 mem).1 named

/-- Whatever a block binds, the blocks around it still avoid the name. -/
theorem Avoids.openBlock (h : w.Avoids inner name) (d : Depth) :
    (w.openBlock d t).Avoids (inner + 1) name := by
  by_cases header : w.header = some d
  · rw [openBlock_header header]
    exact ⟨h.scopes, by simp, (h.takeHeader d).2⟩
  · rw [openBlock_other header]
    exact ⟨h.scopes, h.header, h.pending⟩

/-- So does the block itself when the brace opens no body that binds the name. -/
theorem Avoids.openBlock_of_spares (h : w.Avoids 0 name)
    (body : name ∉ (w.bodies.lookup t.start).getD []) (d : Depth) :
    (w.openBlock d t).Avoids 0 name := by
  refine ⟨?_, (h.openBlock d).header, (h.openBlock d).pending⟩
  by_cases header : w.header = some d
  · rw [openBlock_header header]
    refine List.forall_mem_cons.2 ⟨?_, h.scopes⟩
    simp [body, (h.takeHeader d).1, h.header]
  · rw [openBlock_other header]
    exact List.forall_mem_cons.2 ⟨body, h.scopes⟩

theorem Avoids.closeBlock (h : w.Avoids inner name) : w.closeBlock.Avoids (inner - 1) name := by
  refine ⟨fun scope mem => h.scopes scope ?_, h.header,
    fun p mem => h.pending p (List.mem_filter.1 mem).1⟩
  rw [Walk.closeBlock, ← List.drop_one, List.drop_drop] at mem
  cases inner with
  | zero => exact List.mem_of_mem_drop mem
  | succ inner => rwa [Nat.add_sub_cancel, Nat.add_comm] at mem

theorem Avoids.semicolon (h : w.Avoids inner name) (d : Depth) :
    (w.semicolon d).Avoids inner name := by
  by_cases header : w.header = some d
  · obtain ⟨declared, pending⟩ := h.takeHeader d
    rw [semicolon_header header]
    apply Avoids.endStatement
    exact ⟨h.scopes, by simp [declared, h.header], pending⟩
  · rw [semicolon_other header]
    exact h.endStatement d

theorem Avoids.of_eq {v : Walk} (h : w.Avoids inner name) (plain : innerAfter t inner = inner)
    (scopes : v.scopes = w.scopes) (header : v.headerNames = w.headerNames ∨ v.headerNames = [])
    (pending : ∀ p ∈ v.pending, p ∈ w.pending ∨ name ∉ p.names) :
    v.Avoids (innerAfter t inner) name := by
  rw [plain]
  refine ⟨by rw [scopes]; exact h.scopes, ?_, fun p mem => (pending p mem).elim (h.pending p) id⟩
  rcases header with same | none
  · rw [same]
    exact h.header
  · simp [none]

/-- A name that no statement declares at a token stays unknown outside of the innermost blocks. -/
theorem Avoids.step (h : w.Avoids inner name) (none : name ∉ stated before t after) :
    (w.step before t after).Avoids (innerAfter t inner) name := by
  have broken : (w.broken before t).Avoids inner name := h.broken
  rw [step_eq]
  generalize w.broken before t = v at broken
  have old : ∀ p ∈ v.pending, p ∈ v.pending ∨ name ∉ p.names := fun p mem => .inl mem
  have more : ∀ {names : List Text} {d : Depth} {inHeader : Bool}, name ∉ names →
      ∀ p ∈ v.pending ++ [⟨names, d, inHeader⟩], p ∈ v.pending ∨ name ∉ p.names := by
    intro names d inHeader other p mem
    rcases List.mem_append.1 mem with mem | mem
    · exact .inl mem
    · obtain rfl := List.mem_singleton.1 mem
      exact .inr other
  apply act_elim (motive := fun x => x.Avoids (innerAfter t inner) name)
  case still => exact fun plain => broken.of_eq (innerAfter_plain plain _) rfl (.inl rfl) old
  case opens =>
    intro kind
    rw [innerAfter, kind]
    exact broken.openBlock _
  case closes =>
    intro kind
    rw [innerAfter, kind]
    exact broken.closeBlock
  case enters =>
    exact fun _ kind round => broken.of_eq (innerAfter_round (.inl kind) round _) rfl (.inl rfl) old
  case leaves =>
    exact fun _ kind round => broken.of_eq (innerAfter_round (.inr kind) round _) rfl (.inl rfl) old
  case ends =>
    intro kind
    rw [innerAfter_plain (by simp [Token.isPlain, kind])]
    exact broken.semicolon _
  case learns =>
    exact fun _ word _ => broken.of_eq (innerAfter_plain (Token.isPlain_of_isWord word) _) rfl
      (.inl rfl) old
  case heads =>
    exact fun header => broken.of_eq (innerAfter_plain (isPlain_of_isHeader header) _) rfl
      (.inr rfl) old
  case declares =>
    intro word
    have plain := (Bool.or_eq_true .. ▸ word).elim Token.isPlain_of_isWord Token.isPlain_of_isWord
    rw [stated, if_pos word] at none
    exact broken.of_eq (innerAfter_plain plain _) rfl (.inl rfl) (more none)
  case reports =>
    exact fun kind _ _ => broken.of_eq (innerAfter_plain (by simp [Token.isPlain, kind]) _) rfl
      (.inl rfl) old
  case defines =>
    intro kind define
    rw [stated, if_neg (by simp [Token.isWord, kind]), if_pos (by simp [kind, define])] at none
    exact broken.of_eq (innerAfter_plain (by simp [Token.isPlain, kind]) _) rfl (.inl rfl)
      (more none)

/-- Code that closes its blocks leaves no trace of what they bind. -/
theorem Avoids.pass {stack : List Bracket} {ts : List Token}
    (h : w.Avoids (stack.count .curly) name) (balanced : Balances stack ts)
    (none : ∀ front t back, ts = front ++ t :: back →
      name ∉ stated (front.reverse ++ before) t (back ++ rest)) :
    (w.pass before rest ts).Avoids 0 name := by
  induction ts generalizing w stack before with
  | nil =>
    obtain rfl : stack = [] := balanced
    exact h
  | cons t ts ih =>
    have step := h.step (none [] t ts rfl)
    have later : ∀ front u back, ts = front ++ u :: back →
        name ∉ stated (front.reverse ++ (t :: before)) u (back ++ rest) := by
      rintro front u back rfl
      have := none (t :: front) u back rfl
      rwa [List.reverse_cons, List.append_assoc] at this
    obtain ⟨stack', balanced', -, -, count⟩ := exists_stack balanced
    rw [count] at step
    exact ih step balanced' later

/-- A function that binds the name concerns only the brace that is read as the start of its body. -/
theorem Spares.learn {bodies : List (Nat × List Text)} {ahead : List Token}
    (h : Spares bodies ahead name)
    (other : t.isWord "func" = true → ∀ body ∈ Signature.bindings after, name ∈ body.2 →
      ∀ brace ∈ ahead, brace.kind = .opening .curly → brace.start ≠ body.1) :
    Spares (Walk.learn bodies t after) ahead name := by
  intro brace mem curly
  unfold Walk.learn
  split
  · next func =>
    cases found : Signature.bindings after with
    | none => exact h brace mem curly
    | some body =>
      obtain ⟨start, names⟩ := body
      by_cases same : brace.start = start
      · have none : name ∉ names := fun named => other func _ found named brace mem curly same
        simpa [List.lookup_cons, same] using none
      · have known := h brace mem curly
        simpa [List.lookup_cons, beq_eq_false_iff_ne.2 same] using known
  · exact h brace mem curly

/-- A name that nothing in the code declares stays unknown. -/
theorem Avoids.pass_of_declared {ts : List Token} (h : w.Avoids 0 name)
    (spares : Spares w.bodies ts name) (none : name ∉ declared before rest ts) :
    (w.pass before rest ts).Avoids 0 name := by
  induction ts generalizing w before with
  | nil => exact h
  | cons t ts ih =>
    rw [declared, List.mem_append, not_or] at none
    have spares' : Spares (w.step before t (ts ++ rest)).bodies ts name := by
      rw [step_bodies]
      refine Spares.learn (fun brace mem => spares brace (List.mem_cons_of_mem t mem)) ?_
      intro func body found named
      refine absurd (List.mem_append_right _ ?_) none.1
      rw [if_pos func, Option.mem_def.1 found]
      exact named
    refine ih ?_ spares' none.2
    have step := h.step (fun mem => none.1 (List.mem_append_left _ mem))
    by_cases curly : t.kind = .opening .curly
    · rw [step_eq, act, curly]
      refine Avoids.openBlock_of_spares h.broken ?_ _
      rw [(w.broken_frame before t).1]
      exact spares t (List.mem_cons_self ..) curly
    · have size : innerAfter t 0 = 0 := by
        cases kind : t.kind with
        | opening bracket => cases bracket <;> simp_all [innerAfter]
        | closing bracket => cases bracket <;> simp [innerAfter, kind]
        | _ => simp [innerAfter, kind]
      rwa [size] at step

end

end Walk

end GoSplit.Selector
