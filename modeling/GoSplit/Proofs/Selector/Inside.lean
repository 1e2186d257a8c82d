import GoSplit.Proofs.Selector.Beside

/-!
The walk inside one declaration. While the declaration is read the depth of the walk is that
of the open delimiters, names wait only for the ends of blocks that are open, and a header is
still to open its block; so nothing is left over when the declaration ends. What the walk
reads ahead and back stays inside the declaration.
-/

namespace GoSplit.Selector

/-! ### Reading ahead and back -/

/-- A list of names ends with the first token that is neither a name nor a comma. -/
theorem nameList_append : ∀ {ts : List Token},
    (∃ t ∈ ts, t.kind ≠ .ident ∧ t.kind ≠ .comma) → ∀ next, nameList (ts ++ next) = nameList ts
  | [], h, _ => by simp at h
  | [t], h, next => by
    obtain ⟨u, mem, ident, -⟩ := h
    obtain rfl := List.mem_singleton.1 mem
    cases next <;> simp [nameList, ident]
  | t :: u :: rest, h, next => by
    simp only [List.cons_append, nameList]
    by_cases ident : t.kind = .ident
    · by_cases comma : u.kind = .comma
      · obtain ⟨v, mem, other⟩ := h
        have inside : v ∈ rest := by
          rcases List.mem_cons.1 mem with rfl | mem
          · exact absurd ident other.1
          · rcases List.mem_cons.1 mem with rfl | mem
            · exact absurd comma other.2
            · exact mem
        rw [nameList_append ⟨v, inside, other⟩ next]
      · simp [comma]
    · simp [ident]

theorem exists_closing {bracket : Bracket} {outer : List Bracket} {ts : List Token}
    (h : Balances (bracket :: outer) ts) : ∃ t ∈ ts, t.kind ≠ .ident ∧ t.kind ≠ .comma := by
  obtain ⟨inside, close, after, rfl, -, kind, -⟩ := @exists_splitAtClose [] outer bracket ts h
  exact ⟨close, by simp, by simp [kind], by simp [kind]⟩

theorem groupedNames_append {inner outer : List Bracket} {bracket : Bracket} {ts : List Token}
    (h : Balances (inner ++ bracket :: outer) ts) (starts : Bool) (next : List Token) :
    groupedNames inner.length starts (ts ++ next) = groupedNames inner.length starts ts := by
  induction ts generalizing inner starts with
  | nil => simp [Balances] at h
  | cons t ts ih =>
    cases kind : t.kind with
    | opening b =>
      rw [balances_opening kind, ← List.cons_append] at h
      have deeper := ih h (starts || inner.length == 0 && t.onNewLine)
      rw [List.length_cons] at deeper
      simp only [List.cons_append, groupedNames, kind, deeper]
    | closing b =>
      obtain ⟨stack, eq, rest⟩ := (balances_closing kind).1 h
      cases inner with
      | nil => simp [groupedNames, kind]
      | cons opener inner =>
        obtain ⟨rfl, rfl⟩ := List.cons.inj eq
        simpa only [List.cons_append, groupedNames, kind, List.length_cons] using ih rest _
    | ident =>
      rw [balances_plain (by simp [Token.isPlain, kind])] at h
      have inside : ∃ u ∈ t :: ts, u.kind ≠ .ident ∧ u.kind ≠ .comma := by
        obtain ⟨u, mem, other⟩ : ∃ u ∈ ts, u.kind ≠ .ident ∧ u.kind ≠ .comma := by
          cases inner with
          | nil => exact exists_closing h
          | cons => exact exists_closing h
        exact ⟨u, List.mem_cons_of_mem t mem, other⟩
      have names := nameList_append inside next
      rw [List.cons_append] at names ⊢
      simp only [groupedNames, kind, ih h, names]
    | _ =>
      rw [balances_plain (by simp [Token.isPlain, kind])] at h
      simp only [List.cons_append, groupedNames, kind, ih h]

/-- In an open block the names of a statement are found before the block ends. -/
theorem statementNames_append {bracket : Bracket} {outer : List Bracket} {ts : List Token}
    (h : Balances (bracket :: outer) ts) (next : List Token) :
    statementNames (ts ++ next) = statementNames ts := by
  have names := nameList_append (exists_closing h) next
  cases ts with
  | nil => simp [Balances] at h
  | cons t ts =>
    by_cases paren : t.kind = .opening .paren
    · rw [balances_opening paren] at h
      have grouped := @groupedNames_append [] (bracket :: outer) .paren ts h true next
      rw [List.length_nil] at grouped
      simp only [statementNames, List.cons_append, if_pos paren, grouped]
    · rw [List.cons_append] at names ⊢
      simp only [statementNames, if_neg paren, names]

theorem isDefine_append (t : Token) (ts : List Token) {next : List Token}
    (h : ∀ u ∈ next.head?, u.kind ≠ .op) : isDefine t (ts ++ next) = isDefine t ts := by
  cases ts with
  | cons => rfl
  | nil =>
    cases next with
    | nil => rfl
    | cons u next => simp [isDefine, h u rfl]

/-- What follows the last token of a declaration: nothing, a semicolon, or a word on a new line
that ends the statement. -/
def Follows (last : Token) (next : List Token) : Prop :=
  ∀ u ∈ next.head?,
    u.kind = .semicolon ∨ u.kind = .ident ∧ u.onNewLine = true ∧ last.endsStatement = true

theorem Follows.stops {last : Token} {next : List Token} (h : Follows last next) :
    Signature.Stops next := by
  intro u mem
  rcases h u mem with kind | ⟨kind, line, -⟩
  · exact .inl kind
  · exact .inr (.inl ⟨kind, line⟩)

/-- A dot and a word come next. -/
def selects : List Token → Bool
  | dot :: name :: _ => dot.kind == .dot && name.kind == .ident
  | _ => false

theorem isBase_eq (before after : List Token) :
    isBase before after = (selects after && before.head?.all fun u => u.kind != .dot) := rfl

theorem selects_append {t : Token} {ts next : List Token}
    (ahead : ∀ last ∈ (t :: ts).getLast?, Follows last next) :
    selects (ts ++ next) = selects ts := by
  match ts, next with
  | _ :: _ :: _, _ => rfl
  | [], [] => rfl
  | [], [_] => rfl
  | [], u :: v :: next =>
    have other : u.kind ≠ .dot := by
      rcases ahead t (by simp) u rfl with kind | ⟨kind, -⟩ <;> simp [kind]
    simp [selects, other]
  | [_], [] => rfl
  | [a], u :: next =>
    rcases ahead a (by simp) u rfl with kind | ⟨-, -, ends⟩
    · simp [selects, kind]
    · have other : a.kind ≠ .dot := by
        intro dot
        simp [Token.endsStatement, dot] at ends
      simp [selects, other]

/-- No selector reaches over the end of a declaration. -/
theorem isBase_append {before outside : List Token} {t : Token} {ts next : List Token}
    (back : before = [] → ∀ u ∈ outside.head?, u.kind ≠ .dot)
    (ahead : ∀ last ∈ (t :: ts).getLast?, Follows last next) :
    isBase (before ++ outside) (ts ++ next) = isBase before ts := by
  have backward : ((before ++ outside).head?.all fun u => u.kind != .dot) =
      before.head?.all fun u => u.kind != .dot := by
    cases before with
    | cons => rfl
    | nil =>
      cases outside with
      | nil => rfl
      | cons u outside => simp [back rfl u rfl]
  rw [isBase_eq, isBase_eq, backward, selects_append ahead]

/-! ### What holds inside a declaration -/

/-- The walk stands in front of the tokens `rest` of a declaration, with the delimiters of the
stack open. -/
structure Inside (w : Walk) (stack : List Bracket) (rest : List Token) : Prop where
  balanced : Balances stack rest
  blocks : w.scopes.length = stack.count .curly
  parens : w.parens + stack.count .curly = stack.length
  pending : ∀ p ∈ w.pending, 0 < p.depth.blocks ∧ p.depth.blocks ≤ w.scopes.length
  header : ∀ d, w.header = some d → opensAt d w.depth rest = true
  names : w.header = none → w.headerNames = []
  binds : bindsInBlocks w.depth rest = true

namespace Inside

variable {w : Walk} {stack : List Bracket} {t : Token} {ts : List Token}

/-- At the end of the declaration the walk is as at the start, apart from what it has found. -/
theorem done (h : Inside w stack []) :
    w.scopes = [] ∧ w.parens = 0 ∧ w.pending = [] ∧ w.header = none ∧ w.headerNames = [] := by
  obtain rfl : stack = [] := h.balanced
  have blocks : w.scopes = [] := List.length_eq_zero_iff.1 h.blocks
  have header : w.header = none := by
    cases open' : w.header with
    | none => rfl
    | some d => simpa [opensAt] using h.header d open'
  refine ⟨blocks, h.parens, ?_, header, h.names header⟩
  rw [List.eq_nil_iff_forall_not_mem]
  intro p mem
  have bounds := h.pending p mem
  rw [blocks, List.length_nil] at bounds
  omega

theorem broken (h : Inside w stack (t :: ts)) (before : List Token) :
    Inside (w.broken before t) stack (t :: ts) ∧ (w.broken before t).depth = w.depth := by
  obtain ⟨-, -, size, parens, header, names, pending⟩ := w.broken_frame before t
  have depth : (w.broken before t).depth = w.depth := by rw [Walk.depth, Walk.depth, size, parens]
  refine ⟨⟨h.balanced, size.trans h.blocks, by rw [parens]; exact h.parens, ?_, ?_, ?_, ?_⟩, depth⟩
  · rw [size]
    exact fun p mem => h.pending p (pending p mem)
  · rw [header, depth]
    exact h.header
  · rw [header, names]
    exact h.names
  · rw [depth]
    exact h.binds

/-- A header that is not over yet opens its block further on. -/
theorem opensAt_of_cons {d d' : Depth} (h : opensAt d d' (t :: ts) = true)
    (other : ¬(t.kind = .opening .curly ∧ d' = d)) : opensAt d (d'.after t) ts = true := by
  simp only [opensAt, Bool.or_eq_true, Bool.and_eq_true, beq_iff_eq] at h
  rcases h with here | later
  · exact absurd here other
  · exact later.2

theorem depth_plain (plain : t.isPlain = true) (d : Depth) : d.after t = d := by
  cases kind : t.kind <;> simp_all [Token.isPlain, Depth.after]

/-- The tokens further on bind in blocks as well. -/
theorem binds_cons (h : Inside w stack (t :: ts)) :
    ((isHeader t = true ∨ isDefine t ts = true) → 0 < w.depth.blocks) ∧
      (isHeader t = true → opensAt w.depth (w.depth.after t) ts = true) ∧
      bindsInBlocks (w.depth.after t) ts = true := by
  have binds := h.binds
  simp only [bindsInBlocks, Bool.and_eq_true, Bool.or_eq_true, Bool.not_eq_true',
    decide_eq_true_eq] at binds
  obtain ⟨⟨inBlock, opens⟩, rest⟩ := binds
  refine ⟨fun either => ?_, fun header => ?_, rest⟩
  · rcases inBlock with none | inside
    · rw [Bool.or_eq_false_iff] at none
      simp [none.1, none.2] at either
    · exact inside
  · rcases opens with none | opens
    · simp [none] at header
    · exact opens

/-- A token that opens and closes nothing leaves the walk inside. -/
theorem of_plain (h : Inside w stack (t :: ts)) (plain : t.isPlain = true) {v : Walk}
    (size : v.scopes.length = w.scopes.length) (parens : v.parens = w.parens)
    (pending : ∀ p ∈ v.pending, p ∈ w.pending ∨ p.depth = w.depth ∧ 0 < w.depth.blocks)
    (header : v.header = w.header ∨ v.header = some w.depth ∧ isHeader t = true)
    (names : w.header = none → v.header = none → v.headerNames = w.headerNames) :
    Inside v stack ts := by
  have depth : v.depth = w.depth := by rw [Walk.depth, Walk.depth, size, parens]
  obtain ⟨-, opens, rest⟩ := h.binds_cons
  rw [depth_plain plain] at opens rest
  refine ⟨(balances_plain plain).1 h.balanced, size.trans h.blocks, by rw [parens]; exact h.parens,
    fun p mem => ?_, fun d eq => ?_, fun none => ?_, by rw [depth]; exact rest⟩
  · rw [size]
    rcases pending p mem with old | ⟨here, inside⟩
    · exact h.pending p old
    · rw [here]
      exact ⟨inside, Nat.le_refl _⟩
  · rw [depth]
    rcases header with same | ⟨new, isHeader⟩
    · have later := opensAt_of_cons (h.header d (same ▸ eq)) (by
        rintro ⟨curly, -⟩
        simp [Token.isPlain, curly] at plain)
      rwa [depth_plain plain] at later
    · rw [new] at eq
      obtain rfl := Option.some.inj eq
      exact opens isHeader
  · rcases header with same | ⟨new, -⟩
    · rw [names (same ▸ none) none]
      exact h.names (same ▸ none)
    · simp [new] at none

theorem semicolon (h : Inside w stack (t :: ts)) (kind : t.kind = .semicolon) :
    Inside (w.semicolon w.depth) stack ts := by
  have plain : t.isPlain = true := by simp [Token.isPlain, kind]
  by_cases header : w.header = some w.depth
  · rw [Walk.semicolon_header header]
    obtain ⟨-, -, size, parens, sameHeader, -, pending⟩ := Walk.endStatement_frame
      { (w.takeHeader w.depth).2 with
        headerNames := w.headerNames ++ (w.takeHeader w.depth).1 } w.depth
    refine h.of_plain plain size parens (fun p mem => .inl ?_) (.inl sameHeader) ?_
    · have kept : p ∈ (w.takeHeader w.depth).2.pending := pending p mem
      simp only [Walk.takeHeader, List.partition_eq_filter_filter] at kept
      exact (List.mem_filter.1 kept).1
    · intro none
      simp [none] at header
  · rw [Walk.semicolon_other header]
    obtain ⟨-, -, size, parens, sameHeader, names, pending⟩ := w.endStatement_frame w.depth
    exact h.of_plain plain size parens (fun p mem => .inl (pending p mem)) (.inl sameHeader)
      fun _ _ => names

theorem word (h : Inside w stack (t :: ts)) (kind : t.kind = .ident) (before : List Token) :
    Inside (w.word w.depth before t ts) stack ts := by
  have plain : t.isPlain = true := by simp [Token.isPlain, kind]
  have old : ∀ p ∈ w.pending, p ∈ w.pending ∨ p.depth = w.depth ∧ 0 < w.depth.blocks :=
    fun p mem => .inl mem
  unfold Walk.word
  split
  · split
    · exact h.of_plain plain rfl rfl old (.inl rfl) fun _ _ => rfl
    · exact h.of_plain plain rfl rfl old (.inl rfl) fun _ _ => rfl
  · split
    · next header =>
      refine h.of_plain plain rfl rfl old (.inr ⟨rfl, header⟩) fun _ none => ?_
      simp at none
    · split
      · next inside =>
        refine h.of_plain plain rfl rfl (fun p mem => ?_) (.inl rfl) fun _ _ => rfl
        rcases List.mem_append.1 mem with mem | mem
        · exact .inl mem
        · obtain rfl := List.mem_singleton.1 mem
          simp only [Bool.and_eq_true, Bool.not_eq_true', List.isEmpty_eq_false_iff] at inside
          exact .inr ⟨rfl, List.length_pos_iff.2 inside.2⟩
      · split
        · exact h.of_plain plain rfl rfl old (.inl rfl) fun _ _ => rfl
        · exact h.of_plain plain rfl rfl old (.inl rfl) fun _ _ => rfl

theorem openBlock (h : Inside w stack (t :: ts)) (kind : t.kind = .opening .curly) :
    Inside (w.openBlock w.depth t) (.curly :: stack) ts := by
  obtain ⟨-, -, rest⟩ := h.binds_cons
  have balanced := (balances_opening kind).1 h.balanced
  have inside : w.depth.after t = ⟨w.scopes.length + 1, w.parens⟩ := by
    simp [Depth.after, kind, Walk.depth]
  have blocks : w.scopes.length + 1 = (Bracket.curly :: stack).count .curly := by
    rw [List.count_cons_self, h.blocks]
  have parens : w.parens + (Bracket.curly :: stack).count .curly =
      (Bracket.curly :: stack).length := by
    rw [List.count_cons_self, List.length_cons, ← h.parens]
    omega
  have pending : ∀ p ∈ w.pending, 0 < p.depth.blocks ∧ p.depth.blocks ≤ w.scopes.length + 1 := by
    intro p mem
    have bounds := h.pending p mem
    omega
  rw [inside] at rest
  by_cases header : w.header = some w.depth
  · rw [Walk.openBlock_header header]
    refine ⟨balanced, blocks, parens, fun p mem => ?_, fun d eq => ?_, fun _ => rfl, rest⟩
    · simp only [Walk.takeHeader, List.partition_eq_filter_filter] at mem
      exact pending p (List.mem_filter.1 mem).1
    · simp at eq
  · rw [Walk.openBlock_other header]
    refine ⟨balanced, blocks, parens, pending, fun d eq => ?_, h.names, rest⟩
    have later := opensAt_of_cons (h.header d eq) (by
      rintro ⟨-, rfl⟩
      exact header eq)
    rwa [inside] at later

theorem closeBlock (h : Inside w stack (t :: ts)) (kind : t.kind = .closing .curly) :
    ∃ outer, Inside w.closeBlock outer ts := by
  obtain ⟨-, -, rest⟩ := h.binds_cons
  obtain ⟨outer, rfl, balanced⟩ := (balances_closing kind).1 h.balanced
  have blocks := h.blocks
  have parens := h.parens
  rw [List.count_cons_self] at blocks parens
  rw [List.length_cons] at parens
  have outside : w.depth.after t = w.closeBlock.depth := by
    simp [Depth.after, kind, Walk.depth, Walk.closeBlock]
  rw [outside] at rest
  refine ⟨outer, balanced, ?_, ?_, fun p mem => ?_, fun d eq => ?_, h.names, rest⟩
  · simp [Walk.closeBlock, blocks]
  · have same : w.closeBlock.parens = w.parens := rfl
    omega
  · obtain ⟨old, bound⟩ := List.mem_filter.1 mem
    exact ⟨(h.pending p old).1, of_decide_eq_true bound⟩
  · have later := opensAt_of_cons (h.header d eq) (by simp [kind])
    rwa [outside] at later

/-- A parenthesis or bracket changes the depth, and nothing else. -/
theorem round (h : Inside w stack (t :: ts)) {outer : List Bracket} {n : Nat}
    (balanced : Balances outer ts) (blocks : outer.count .curly = stack.count .curly)
    (parens : n + outer.count .curly = outer.length)
    (depth : w.depth.after t = ⟨w.scopes.length, n⟩) (other : t.kind ≠ .opening .curly) :
    Inside { w with parens := n } outer ts := by
  obtain ⟨-, -, rest⟩ := h.binds_cons
  rw [depth] at rest
  refine ⟨balanced, by rw [blocks]; exact h.blocks, parens, h.pending, fun d eq => ?_,
    h.names, rest⟩
  have later := opensAt_of_cons (h.header d eq) fun both => other both.1
  rwa [depth] at later

/-- What a token does keeps the walk inside. -/
theorem act (h : Inside w stack (t :: ts)) (before : List Token) :
    ∃ stack', Inside (w.act w.depth before t ts) stack' ts := by
  have parens := h.parens
  have pass : t.isPlain = true → Inside w stack ts := fun plain =>
    h.of_plain plain rfl rfl (fun p mem => .inl mem) (.inl rfl) fun _ _ => rfl
  unfold Walk.act
  cases kind : t.kind with
  | opening b =>
    have balanced := (balances_opening kind).1 h.balanced
    cases b with
    | curly => exact ⟨_, h.openBlock kind⟩
    | paren =>
      refine ⟨_, h.round balanced (by simp) ?_ (by simp [Depth.after, kind, Walk.depth])
        (by simp [kind])⟩
      simp only [List.count_cons_of_ne (show Bracket.paren ≠ .curly by simp), List.length_cons]
      omega
    | square =>
      refine ⟨_, h.round balanced (by simp) ?_ (by simp [Depth.after, kind, Walk.depth])
        (by simp [kind])⟩
      simp only [List.count_cons_of_ne (show Bracket.square ≠ .curly by simp), List.length_cons]
      omega
  | closing b =>
    obtain ⟨outer, rfl, balanced⟩ := (balances_closing kind).1 h.balanced
    cases b with
    | curly => exact h.closeBlock kind
    | paren =>
      refine ⟨_, h.round balanced (by simp) ?_ (by simp [Depth.after, kind, Walk.depth])
        (by simp [kind])⟩
      have bound := outer.count_le_length (a := Bracket.curly)
      simp only [List.count_cons_of_ne (show Bracket.paren ≠ .curly by simp),
        List.length_cons] at parens
      omega
    | square =>
      refine ⟨_, h.round balanced (by simp) ?_ (by simp [Depth.after, kind, Walk.depth])
        (by simp [kind])⟩
      have bound := outer.count_le_length (a := Bracket.curly)
      simp only [List.count_cons_of_ne (show Bracket.square ≠ .curly by simp),
        List.length_cons] at parens
      omega
  | semicolon => exact ⟨_, h.semicolon kind⟩
  | ident => exact ⟨_, h.word kind before⟩
  | op =>
    have plain : t.isPlain = true := by simp [Token.isPlain, kind]
    simp only
    split
    · next defines =>
      refine ⟨stack, h.of_plain plain rfl rfl (fun p mem => ?_) (.inl rfl) fun _ _ => rfl⟩
      rcases List.mem_append.1 mem with mem | mem
      · exact .inl mem
      · obtain rfl := List.mem_singleton.1 mem
        exact .inr ⟨rfl, h.binds_cons.1 (.inr defines)⟩
    · exact ⟨stack, pass plain⟩
  | _ => exact ⟨stack, pass (by simp [Token.isPlain, kind])⟩

/-- A step keeps the walk inside. -/
theorem step (h : Inside w stack (t :: ts)) (before : List Token) :
    ∃ stack', Inside (w.step before t ts) stack' ts := by
  obtain ⟨inside, depth⟩ := h.broken before
  rw [Walk.step_eq, ← depth]
  exact inside.act before

/-- So does a run to the end of the declaration. -/
theorem run (h : Inside w stack ts) (before : List Token) :
    ∃ stack', Inside (w.run before ts) stack' [] := by
  induction ts generalizing w stack before with
  | nil => exact ⟨stack, h⟩
  | cons t ts ih =>
    obtain ⟨stack', inside⟩ := h.step before
    exact ih inside (t :: before)

end Inside

end GoSplit.Selector
