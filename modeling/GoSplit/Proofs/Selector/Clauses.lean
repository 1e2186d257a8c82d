import GoSplit.Proofs.Selector.Frames

/-!
The names of a header. An `if`, `for` or `switch` statement may declare names in front of its
block. As long as no brace opens at the depth of the header and no other header comes in
between, the names wait for the block, whatever else is read; inside the block a selector on
one of them is not reported.
-/

namespace GoSplit.Selector

/-! ### Lists of names -/

/-- Names with commas between them. -/
inductive Names : List Token → List Text → Prop where
  | one {t : Token} (isName : t.isName = true) : Names [t] [t.text]
  | more {ts : List Token} {names : List Text} {comma t : Token} (others : Names ts names)
      (kind : comma.kind = .comma) (isName : t.isName = true) : Names (ts ++ [comma, t])
        (names ++ [t.text])

namespace Names

variable {ts rest : List Token} {names : List Text}

theorem nameList_cons {t : Token} (kind : t.kind = .ident)
    (other : ∀ u ∈ rest.head?, u.kind ≠ .comma) :
    nameList (t :: rest) = [t.text] := by
  cases rest with
  | nil => simp [nameList, kind]
  | cons u rest => simp [nameList, kind, other u rfl]

/-- Read from the last name backwards. -/
theorem nameList_reverse (h : Names ts names) (other : ∀ u ∈ rest.head?, u.kind ≠ .comma) :
    nameList (ts.reverse ++ rest) = names.reverse := by
  induction h with
  | one isName => exact nameList_cons (Token.kind_of_isName isName) other
  | more _ kind isName ih => simp [nameList, Token.kind_of_isName isName, kind, ih]

theorem nameList_comma (h : Names ts names) {comma : Token} (kind : comma.kind = .comma) :
    nameList (ts ++ comma :: rest) = names ++ nameList rest := by
  induction h generalizing comma rest with
  | one isName => simp [nameList, Token.kind_of_isName isName, kind]
  | more _ kind' isName ih =>
    rw [List.append_assoc, List.cons_append, List.cons_append, List.nil_append, ih kind']
    simp [nameList, Token.kind_of_isName isName, kind]

/-- Read from the first name on. -/
theorem nameList_append (h : Names ts names) (other : ∀ u ∈ rest.head?, u.kind ≠ .comma) :
    nameList (ts ++ rest) = names := by
  cases h with
  | one isName => exact nameList_cons (Token.kind_of_isName isName) other
  | more others kind isName =>
    rw [List.append_assoc, List.cons_append, List.cons_append, List.nil_append,
      others.nameList_comma kind, nameList_cons (Token.kind_of_isName isName) other]

theorem tokens (h : Names ts names) : ∀ t ∈ ts, t.isName = true ∨ t.kind = .comma := by
  induction h with
  | one isName => simpa using .inl isName
  | more _ kind isName ih =>
    simp only [List.mem_append, List.mem_cons, List.not_mem_nil, or_false]
    rintro t (mem | rfl | rfl)
    · exact ih t mem
    · exact .inr kind
    · exact .inl isName

theorem balances (h : Names ts names) : Balances [] ts := by
  refine balances_of_plain fun t mem => ?_
  rcases h.tokens t mem with name | comma
  · exact Token.isPlain_of_isName name
  · simp [Token.isPlain, comma]

theorem isHeader_eq_false (h : Names ts names) : ∀ t ∈ ts, isHeader t = false := by
  intro t mem
  rcases h.tokens t mem with name | comma
  · exact Walk.isHeader_of_isName name
  · simp [isHeader, Token.isWord, comma]

end Names

/-- Names and the operator `:=`. -/
structure Definition where
  targets : List Token
  names : List Text
  colon : Token
  equals : Token
  spelled : Names targets names
  op : colon.kind = .op
  define : isDefine colon [equals] = true

def Definition.tokens (d : Definition) : List Token := d.targets ++ [d.colon, d.equals]

/-! ### Names that wait for the block -/

namespace Walk

/-- The header at depth `d` is being read and has declared the name. -/
structure Awaits (w : Walk) (d : Depth) (name : Text) : Prop where
  header : w.header = some d
  declared : name ∈ w.headerNames ∨ ∃ p ∈ w.pending, p.inHeader = true ∧ p.depth = d ∧
  name ∈ p.names

namespace Awaits

variable {w : Walk} {d : Depth} {name : Text} {before after rest : List Token} {t : Token}

theorem of_eq {v : Walk} (h : w.Awaits d name) (header : v.header = w.header)
    (names : v.headerNames = w.headerNames)
    (pending : ∀ p ∈ w.pending, p.inHeader = true → p.depth = d → p ∈ v.pending) :
    v.Awaits d name := by
  refine ⟨header.trans h.header, ?_⟩
  rcases h.declared with mem | ⟨p, mem, inHeader, here, named⟩
  · exact .inl (names ▸ mem)
  · exact .inr ⟨p, pending p mem inHeader here, inHeader, here, named⟩

/-- The end of a statement leaves the names of headers alone. -/
theorem endStatement (h : w.Awaits d name) (d' : Depth) : (w.endStatement d').Awaits d name := by
  obtain ⟨-, -, -, -, header, names, -⟩ := w.endStatement_frame d'
  refine h.of_eq header names fun p mem inHeader _ => ?_
  unfold Walk.endStatement
  split
  · exact mem
  · simpa [List.partition_eq_filter_filter, inHeader] using mem

theorem broken (h : w.Awaits d name) : (w.broken before t).Awaits d name := by
  unfold Walk.broken
  split
  · exact h.endStatement w.depth
  · exact h

/-- What the header takes out is the names it has declared since the last semicolon. -/
theorem mem_takeHeader (h : w.Awaits d name) :
    name ∈ (w.takeHeader d).1 ∨ name ∈ w.headerNames := by
  rcases h.declared with mem | ⟨p, mem, inHeader, here, named⟩
  · exact .inr mem
  · left
    simp only [Walk.takeHeader, List.partition_eq_filter_filter]
    exact List.mem_flatMap.2 ⟨p, List.mem_filter.2 ⟨mem, by simp [inHeader, here]⟩, named⟩

theorem semicolon (h : w.Awaits d name) (d' : Depth) : (w.semicolon d').Awaits d name := by
  by_cases here : d' = d
  · subst here
    rw [semicolon_header h.header]
    apply endStatement
    refine ⟨h.header, .inl ?_⟩
    simpa [or_comm] using h.mem_takeHeader
  · rw [semicolon_other (by simp [h.header, Ne.symm here])]
    exact h.endStatement d'

/-- Nothing inside the header but its own block, a brace at its depth, takes the names away. -/
theorem step (h : w.Awaits d name) (other : isHeader t = false)
    (opens : t.kind = .opening .curly → w.depth ≠ d)
    (closes : t.kind = .closing .curly → d.blocks < w.depth.blocks) :
    (w.step before t after).Awaits d name := by
  have size : (w.broken before t).scopes.length = w.depth.blocks := (w.broken_frame before t).2.2.1
  have broken : (w.broken before t).Awaits d name := h.broken
  rw [step_eq]
  generalize w.broken before t = v at broken size
  have kept : ∀ p ∈ v.pending, p.inHeader = true → p.depth = d → p ∈ v.pending :=
    fun p mem _ _ => mem
  apply act_elim (motive := fun x => x.Awaits d name)
  case opens =>
    intro kind
    rw [openBlock_other (by simpa [broken.header] using (opens kind).symm)]
    exact broken.of_eq rfl rfl kept
  case closes =>
    intro kind
    refine broken.of_eq rfl rfl fun p mem _ here => List.mem_filter.2 ⟨mem, decide_eq_true ?_⟩
    have inside := closes kind
    rw [List.length_tail, size, here]
    omega
  case ends => exact fun _ => broken.semicolon _
  case heads => exact fun header => absurd header (by simp [other])
  case declares => exact fun _ => broken.of_eq rfl rfl fun p mem _ _ => List.mem_append_left _ mem
  case defines => exact fun _ _ => broken.of_eq rfl rfl fun p mem _ _ => List.mem_append_left _ mem
  all_goals intros; exact broken.of_eq rfl rfl kept

/-- The names wait while the rest of the header is read. -/
theorem pass {stack : List Bracket} {ts : List Token} (h : w.Awaits d name)
    (balanced : Balances stack ts) (here : w.depth = d.within stack)
    (other : ∀ t ∈ ts, isHeader t = false)
    (inside : sheltered (·.kind == .opening .curly) stack.length ts = true) :
    (w.pass before rest ts).Awaits d name := by
  induction ts generalizing w stack before with
  | nil => exact h
  | cons t ts ih =>
    obtain ⟨stack', balanced', within, opened, -⟩ := exists_stack balanced
    rw [List.forall_mem_cons] at other
    rw [sheltered, Bool.and_eq_true, opened] at inside
    have step : (w.step before t (ts ++ rest)).Awaits d name := by
      refine h.step other.1 (fun kind => ?_) fun kind => ?_
      · rw [here]
        exact Depth.within_ne (by simpa [kind] using inside.1) d
      · obtain ⟨outer, rfl, -⟩ := (balances_closing kind).1 balanced
        rw [here, Depth.within, List.count_cons_self]
        exact Nat.lt_add_of_pos_right (Nat.succ_pos _)
    refine ih step balanced' ?_ other.2 inside.2
    rw [step_depth, here, within]

/-- The brace at the depth of the header opens a block that binds the name. -/
theorem opens (h : w.Awaits w.depth name) (kind : t.kind = .opening .curly) :
    ∃ scope outer, (w.step before t after).scopes = scope :: outer ∧ name ∈ scope := by
  have broken : (w.broken before t).Awaits w.depth name := h.broken
  rw [step_eq, act, kind]
  simp only [openBlock_header broken.header]
  refine ⟨_, _, rfl, ?_⟩
  rcases broken.mem_takeHeader with mem | mem <;> simp [mem]

end Awaits

end Walk

/-- A statement with names in its header, in the middle of some code. In front of the block, braces
stand inside other delimiters and there is no further header. -/
structure Clause where
  front : List Token
  keyword : Token
  definition : Definition
  /-- What the names are defined by and all that follows up to the block. -/
  tail : List Token
  brace : Token
  body : List Token
  rest : List Token
  header : isHeader keyword = true
  simple : ∀ t ∈ definition.equals :: tail, isHeader t = false
  nested : Balances [] (definition.equals :: tail)
  inside : sheltered (·.kind == .opening .curly) 0 (definition.equals :: tail) = true
  opens : brace.kind = .opening .curly
  balanced : Balances [] body

namespace Clause

variable (c : Clause)

/-- The tokens up to the definition. -/
def start : List Token := c.front ++ c.keyword :: c.definition.targets

/-- The tokens up to the brace that opens the block. -/
def opening : List Token := c.start ++ c.definition.colon :: c.definition.equals ::
  (c.tail ++ [c.brace])

/-- The tokens behind the colon. -/
def ending : List Token := c.definition.equals :: (c.tail ++ c.brace :: (c.body ++ c.rest))

/-- The tokens of the header. -/
def head : List Token := c.start ++ [c.definition.colon] ++ c.definition.equals :: c.tail

/-- In front of the definition the header is that of the keyword. -/
theorem start_header :
    (Walk.behind c.start (c.definition.colon :: c.ending)).header =
      some (Walk.behind c.start (c.definition.colon :: c.ending)).depth := by
  have cut : c.start = c.front ++ [c.keyword] ++ c.definition.targets := by simp [start]
  generalize c.definition.colon :: c.ending = rest
  have keyword :=
    Walk.step_keyword c.header (Walk.behind c.front (c.keyword :: (c.definition.targets ++ rest)))
    c.front.reverse (c.definition.targets ++ rest)
  have depth := Walk.step_depth (Walk.behind c.front (c.keyword :: (c.definition.targets ++ rest)))
    c.front.reverse (c.definition.targets ++ rest) c.keyword
  rw [Inside.depth_plain (Walk.isPlain_of_isHeader c.header)] at depth
  rw [← Walk.behind_concat] at keyword depth
  rw [cut, Walk.behind_append]
  generalize Walk.behind (c.front ++ [c.keyword]) (c.definition.targets ++ rest) =
    w at keyword depth
  rw [Walk.pass_depth c.definition.spelled.balances (Depth.within_nil _).symm, depth, ← keyword]
  rcases Walk.pass_header c.definition.spelled.isHeader_eq_false w
    (c.front ++ [c.keyword]).reverse rest
    with same | ⟨⟨t, mem, curly⟩, -⟩
  · exact same
  · rcases c.definition.spelled.tokens t mem with name | comma
    · simp [Token.kind_of_isName name] at curly
    · simp [comma] at curly

/-- Behind the definition the names wait for the block. -/
theorem awaits {name : Text} (mem : name ∈ c.definition.names) :
    (Walk.behind (c.start ++ [c.definition.colon]) c.ending).Awaits
      (Walk.behind c.start (c.definition.colon :: c.ending)).depth name := by
  have header := c.start_header
  have names : name ∈ nameList c.start.reverse := by
    have cut : c.start.reverse = c.definition.targets.reverse ++ c.keyword :: c.front.reverse := by
      simp [start]
    rw [cut, c.definition.spelled.nameList_reverse (by simp [Walk.kind_of_isHeader c.header])]
    simpa using mem
  have define : isDefine c.definition.colon c.ending = true := c.definition.define
  rw [Walk.behind_concat]
  generalize Walk.behind c.start (c.definition.colon :: c.ending) = w at header
  have frame := w.broken_frame c.start.reverse c.definition.colon
  rw [Walk.step_eq, Walk.act, c.definition.op]
  simp only [define, if_true, frame.2.2.2.2.1, header, beq_self_eq_true]
  exact ⟨rfl, .inr ⟨_, List.mem_append_right _ (List.mem_singleton_self _), rfl, rfl, names⟩⟩

/-- So they do at the end of the header. -/
theorem awaits_head {name : Text} (mem : name ∈ c.definition.names) :
    (Walk.behind c.head (c.brace :: (c.body ++ c.rest))).Awaits
      (Walk.behind c.head (c.brace :: (c.body ++ c.rest))).depth name := by
  have depth : (Walk.behind (c.start ++ [c.definition.colon]) c.ending).depth =
      (Walk.behind c.start (c.definition.colon :: c.ending)).depth := by
    rw [Walk.behind_concat, Walk.step_depth,
      Inside.depth_plain (by simp [Token.isPlain, c.definition.op])]
  have here := depth.trans (Depth.within_nil _).symm
  have ending : c.definition.equals :: c.tail ++ c.brace :: (c.body ++ c.rest) = c.ending := rfl
  rw [head, Walk.behind_append, ending, Walk.pass_depth c.nested here]
  exact (c.awaits mem).pass c.nested here c.simple c.inside

/-- The block of a header binds the names of the header: on none of them is a selector reported that
stands in the block. -/
theorem block_binds_header_names {inside after : List Token} {t : Token}
    (cut : c.body = inside ++ t :: after) (own : t.text ∈ c.definition.names) :
    (Walk.behind (c.opening ++ inside ++ [t]) (after ++ c.rest)).used =
      (Walk.behind (c.opening ++ inside) (t :: (after ++ c.rest))).used := by
  have block : c.opening = c.head ++ [c.brace] := by simp [opening, head]
  obtain ⟨scope, outer, scopes, bound⟩ :=
    @Walk.Awaits.opens _ _ c.head.reverse (c.body ++ c.rest) _ (c.awaits_head own) c.opens
  rw [← Walk.behind_concat, ← block] at scopes
  have balanced := c.balanced
  rw [cut] at balanced scopes
  rw [List.append_assoc, List.cons_append] at scopes
  rw [Walk.behind_concat, Walk.behind_append]
  exact @Walk.step_used_inside _ _ _ _ t [] outer scope [] _ _ balanced scopes rfl bound _

/-- A loop over what a function makes of a composite literal. -/
def rangesOverCall : Clause where
  front := [⟨.opening .curly, [], ['{'], 0⟩]
  keyword := ⟨.ident, [' '], "for".toList, 2⟩
  definition := ⟨[⟨.ident, [' '], ['x'], 6⟩], [['x']], ⟨.op, [' '], [':'], 8⟩, ⟨.op, [], ['='], 9⟩,
    .one (by decide), rfl, by decide⟩
  tail := [⟨.ident, [' '], "range".toList, 11⟩, ⟨.ident, [' '], ['f'], 17⟩,
    ⟨.opening .paren, [], ['('], 18⟩, ⟨.ident, [], ['T'], 19⟩, ⟨.opening .curly, [], ['{'], 20⟩,
    ⟨.ident, [], ['a'], 21⟩, ⟨.closing .curly, [], ['}'], 22⟩, ⟨.closing .paren, [], [')'], 23⟩]
  brace := ⟨.opening .curly, [' '], ['{'], 25⟩
  body := [⟨.ident, [' '], ['x'], 27⟩, ⟨.dot, [], ['.'], 28⟩, ⟨.ident, [], ['S'], 29⟩]
  rest := [⟨.closing .curly, [' '], ['}'], 31⟩, ⟨.closing .curly, [' '], ['}'], 33⟩]
  header := by decide
  simple := by decide
  nested := by decide
  inside := by decide
  opens := rfl
  balanced := by decide

theorem rangesOverCall_binds :
    Token.tokenize "{ for x := range f(T{a}) { x.S } }".toList =
        .ok (rangesOverCall.opening ++ (rangesOverCall.body ++ rangesOverCall.rest)) ∧
      (Walk.behind (rangesOverCall.opening ++ [] ++ [⟨.ident, [' '], ['x'], 27⟩])
          (rangesOverCall.body.tail ++ rangesOverCall.rest)).used =
        (Walk.behind (rangesOverCall.opening ++ [])
          (rangesOverCall.body ++ rangesOverCall.rest)).used :=
  ⟨by rw [String.toList_ofList]; decide +kernel,
    block_binds_header_names rangesOverCall rfl (by decide)⟩

end Clause

end GoSplit.Selector
