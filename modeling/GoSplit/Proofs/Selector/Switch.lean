import GoSplit.Proofs.Selector.Values

/-!
The clauses of a `switch` or `select` statement. The walk keeps one scope for a pair of braces, so
the clauses of a statement share one. A name that a clause declares in a block of its own, or in
the header of one, is gone in the clauses behind it. One that it declares directly is not: it
stays bound up to the brace that closes the statement.
-/

namespace GoSplit.Selector

/-! ### Headers that come to a brace -/

/-- Whether the tokens close the delimiters of the stack and then open a block, with all that comes
before nested. -/
def reachesBlock : List Bracket → List Token → Bool
  | _, [] => false
  | stack, t :: ts =>
    match t.kind, stack with
    | .opening .curly, [] => true
    | .opening bracket, _ => reachesBlock (bracket :: stack) ts
    | .closing bracket, opener :: outer => opener == bracket && reachesBlock outer ts
    | .closing _, [] => false
    | _, _ => reachesBlock stack ts

def isHeaded : List Token → Bool
  | [] => true
  | t :: ts => (!isHeader t || reachesBlock [] ts) && isHeaded ts

theorem exists_of_reachesBlock {stack : List Bracket} {ts : List Token}
    (h : reachesBlock stack ts = true) :
    ∃ mid brace post, ts = mid ++ brace :: post ∧ brace.kind = .opening .curly ∧
      Balances stack mid := by
  induction ts generalizing stack with
  | nil => simp [reachesBlock] at h
  | cons t ts ih =>
    have more : ∀ {stack' : List Bracket}, reachesBlock stack' ts = true →
        (∀ mid, Balances stack' mid → Balances stack (t :: mid)) →
        ∃ mid brace post, t :: ts = mid ++ brace :: post ∧ brace.kind = .opening .curly ∧
          Balances stack mid := by
      intro stack' reaches extend
      obtain ⟨mid, brace, post, rfl, curly, balanced⟩ := ih reaches
      exact ⟨t :: mid, brace, post, rfl, curly, extend mid balanced⟩
    cases kind : t.kind with
    | opening bracket =>
      have push := fun mid => (@balances_opening stack t mid bracket kind).2
      cases stack with
      | nil =>
        cases bracket with
        | curly => exact ⟨[], t, ts, rfl, kind, rfl⟩
        | _ => exact more (by simpa [reachesBlock, kind] using h) push
      | cons opener outer =>
        cases bracket <;> exact more (by simpa [reachesBlock, kind] using h) push
    | closing bracket =>
      cases stack with
      | nil => simp [reachesBlock, kind] at h
      | cons opener outer =>
        simp only [reachesBlock, kind, Bool.and_eq_true, beq_iff_eq] at h
        obtain ⟨rfl, reaches⟩ := h
        exact more reaches fun mid balanced => (balances_closing kind).2 ⟨outer, rfl, balanced⟩
    | _ =>
      have plain : t.isPlain = true := by simp [Token.isPlain, kind]
      refine @more stack ?_ fun mid => (balances_plain plain).2
      cases stack <;> simpa [reachesBlock, kind] using h

theorem headed_of_isHeaded {ts : List Token} (h : isHeaded ts = true) : Headed ts := by
  rintro front t back rfl header
  induction front with
  | nil =>
    simp only [List.nil_append, isHeaded, header, Bool.not_true, Bool.false_or,
      Bool.and_eq_true] at h
    exact exists_of_reachesBlock h.1
  | cons u front ih =>
    simp only [List.cons_append, isHeaded, Bool.and_eq_true] at h
    exact ih h.2

/-- The header being read, if any, comes to its brace in the tokens ahead. -/
def Comes (w : Walk) (ahead : List Token) : Prop :=
  ∀ e ∈ w.header, ∃ stack mid brace post, w.depth = e.within stack ∧ ahead = mid ++ brace :: post ∧
    brace.kind = .opening .curly ∧ Balances stack mid

section

variable {w : Walk} {before after rest ahead ts : List Token} {t : Token}

theorem Comes.low (h : Comes w ahead) : ∀ e ∈ w.header, e.blocks ≤ w.depth.blocks := by
  intro e mem
  obtain ⟨stack, -, -, -, here, -⟩ := h e mem
  rw [here]
  exact Nat.le_add_right ..

theorem comes_keyword (header : isHeader t = true) (headed : Headed (t :: ahead)) :
    Comes (w.step before t after) ahead := by
  have depth := w.step_depth before after t
  have own := Walk.step_keyword header w before after
  obtain ⟨mid, brace, post, cut, curly, balanced⟩ := headed [] t ahead rfl header
  rw [Inside.depth_plain (Walk.isPlain_of_isHeader header)] at depth
  intro e mem
  obtain rfl : w.depth = e := Option.some.inj (own.symm.trans mem)
  exact ⟨[], mid, brace, post, depth, cut, curly, balanced⟩

theorem Comes.step (h : Comes w (t :: ahead)) (headed : Headed (t :: ahead)) :
    Comes (w.step before t after) ahead := by
  have depth := w.step_depth before after t
  intro e mem
  rcases w.step_heading before t after with ⟨isHeader, -⟩ | ⟨-, -, gone, -⟩ | ⟨other, same, -⟩
  · exact comes_keyword isHeader headed e mem
  · exact absurd (gone.symm.trans mem) (by simp)
  · rw [same] at mem
    obtain ⟨stack, mid, brace, post, here, cut, curly, balanced⟩ := h e mem
    cases mid with
    | nil =>
      obtain ⟨rfl, rfl⟩ := List.cons.inj cut
      obtain rfl : stack = [] := balanced
      exact absurd (mem.trans (congrArg some here.symm)) (other curly)
    | cons m mid =>
      obtain ⟨rfl, rfl⟩ := List.cons.inj cut
      obtain ⟨stack', balanced', within, -⟩ := exists_stack balanced
      exact ⟨stack', mid, brace, post, by rw [depth, here, within], rfl, curly, balanced'⟩

theorem Headed.append_right {us : List Token} (h : Headed (ts ++ us)) : Headed us :=
  fun front t back cut => h (ts ++ front) t back (by rw [cut, List.append_assoc])

theorem Comes.pass (h : Comes w (ts ++ ahead)) (headed : Headed (ts ++ ahead)) :
    Comes (w.pass before rest ts) ahead := by
  induction ts generalizing w before with
  | nil => exact h
  | cons t ts ih => exact ih (h.step headed) headed.tail

end

/-! ### Names that no open block binds -/

/-- The walk binds the name nowhere, and no statement of the block at hand declares it. It waits for
statements around the one at depth `d` only, or for the block of the header at depth `held`. -/
structure Clear (w : Walk) (name : Text) (d : Depth) (held : Option Depth) : Prop where
  scopes : ∀ scope ∈ w.scopes, name ∉ scope
  pending : ∀ p ∈ w.pending, name ∈ p.names → Outside d p ∨ p.inHeader = true ∧ held = some p.depth
  names : name ∈ w.headerNames → held ≠ none
  header : ∀ e ∈ held, w.header = some e

namespace Clear

variable {w : Walk} {name : Text} {d : Depth} {held : Option Depth} {stack : List Bracket}
  {before after rest ts : List Token} {t : Token}

theorem binds (h : Clear w name d none) : w.binds name = false := by
  simp only [Walk.binds, Bool.or_eq_false_iff, List.any_eq_false]
  exact ⟨by simpa using fun mem => h.names mem rfl,
    fun scope mem => by simpa using h.scopes scope mem⟩

theorem of_hides (h : Hides w name d 0) (names : name ∉ w.headerNames) : Clear w name d none where
  scopes := h.scopes
  pending :=
    fun p mem named =>
      .inl ((h.pending p mem named).resolve_right fun inner => absurd inner.1 (by simp))
  names := fun mem => absurd mem names
  header := by simp

section

variable (here : w.depth = d.within stack) (some : stack.length ≠ 0)
include here some

/-- What ends here declares the name for a header at most. -/
theorem not_ends (h : Clear w name d held) {p : Pending} (mem : p ∈ w.pending)
    (named : name ∈ p.names) (depth : p.depth = w.depth) :
    p.inHeader = true ∧ held = Option.some w.depth := by
  rcases h.pending p mem named with outside | ⟨inHeader, eq⟩
  · exact absurd (depth.trans here) (Depth.not_outside some outside)
  · exact ⟨inHeader, depth ▸ eq⟩

theorem endStatement (h : Clear w name d held) : Clear (w.endStatement w.depth) name d held := by
  obtain ⟨-, -, -, -, header, names, kept⟩ := w.endStatement_frame w.depth
  refine ⟨?_, fun p mem => h.pending p (kept p mem), by rw [names]; exact h.names, by
    rw [header]; exact h.header⟩
  unfold Walk.endStatement
  split
  · exact h.scopes
  · next scope outer scopes =>
    have old := h.scopes
    rw [scopes, List.forall_mem_cons] at old
    refine List.forall_mem_cons.2 ⟨fun mem => ?_, old.2⟩
    rcases List.mem_append.1 mem with mem | mem
    · exact old.1 mem
    · obtain ⟨p, mem, named⟩ := List.mem_flatMap.1 mem
      rw [List.partition_eq_filter_filter] at mem
      obtain ⟨mem, ends⟩ := List.mem_filter.1 mem
      simp only [Bool.and_eq_true, Bool.not_eq_true', beq_iff_eq] at ends
      have inHeader := (h.not_ends here some mem named ends.2).1
      simp [ends.1] at inHeader

theorem broken (h : Clear w name d held) : Clear (w.broken before t) name d held := by
  unfold Walk.broken
  split
  · exact h.endStatement here some
  · exact h

/-- A brace that takes no names of a header binds those of its function. -/
theorem openBlock (h : Clear w name d held) (other : held ≠ Option.some w.depth)
    (body : name ∉ (w.bodies.lookup t.start).getD []) :
    Clear (w.openBlock w.depth t) name d held := by
  by_cases header : w.header = Option.some w.depth
  · have none : held = none := by
      cases held with
      | none => rfl
      | some e => exact absurd ((h.header e rfl).symm.trans header) other
    subst none
    rw [Walk.openBlock_header header]
    simp only [Walk.takeHeader, List.partition_eq_filter_filter]
    refine ⟨List.forall_mem_cons.2 ⟨?_, h.scopes⟩, ?_, by simp, by simp⟩
    · simp only [List.mem_append, not_or]
      refine ⟨⟨body, fun mem => ?_⟩, fun mem => h.names mem rfl⟩
      obtain ⟨p, mem, named⟩ := List.mem_flatMap.1 mem
      obtain ⟨mem, ends⟩ := List.mem_filter.1 mem
      simp only [Bool.and_eq_true, beq_iff_eq] at ends
      exact other (h.not_ends here some mem named ends.2).2
    · exact fun p mem => h.pending p (List.mem_filter.1 mem).1
  · rw [Walk.openBlock_other header]
    exact ⟨List.forall_mem_cons.2 ⟨body, h.scopes⟩, h.pending, h.names, h.header⟩

theorem semicolon (h : Clear w name d held) : Clear (w.semicolon w.depth) name d held := by
  by_cases header : w.header = Option.some w.depth
  · rw [Walk.semicolon_header header]
    refine endStatement (w := { (w.takeHeader w.depth).2 with
      headerNames := w.headerNames ++ (w.takeHeader w.depth).1 }) here some ?_
    simp only [Walk.takeHeader, List.partition_eq_filter_filter]
    refine ⟨h.scopes, fun p mem => h.pending p (List.mem_filter.1 mem).1, fun mem => ?_, h.header⟩
    rcases List.mem_append.1 mem with mem | mem
    · exact h.names mem
    · obtain ⟨p, mem, named⟩ := List.mem_flatMap.1 mem
      obtain ⟨mem, ends⟩ := List.mem_filter.1 mem
      simp only [Bool.and_eq_true, beq_iff_eq] at ends
      simp [(h.not_ends here some mem named ends.2).2]
  · rw [Walk.semicolon_other header]
    exact h.endStatement here some

/-- A token that does not declare the name. -/
theorem step (h : Clear w name d held) (quiet : name ∉ Walk.stated before t after)
    (keyword : isHeader t = true → held = none)
    (brace : t.kind = .opening .curly → held ≠ Option.some w.depth ∧
      name ∉ (w.bodies.lookup t.start).getD []) :
    Clear (w.step before t after) name d held := by
  have broken : Clear (w.broken before t) name d held := h.broken here some
  have depth : (w.broken before t).depth = w.depth := Walk.broken_depth
  rw [← (w.broken_frame before t).1] at brace
  rw [Walk.step_eq, ← depth]
  rw [← depth] at here brace
  generalize w.broken before t = v at broken brace here
  have more : ∀ {names : List Text} {inHeader : Bool}, name ∉ names →
      ∀ p ∈ v.pending ++ [⟨names, v.depth, inHeader⟩], name ∈ p.names →
        Outside d p ∨ p.inHeader = true ∧ held = Option.some p.depth := by
    intro names inHeader other p mem named
    rcases List.mem_append.1 mem with mem | mem
    · exact broken.pending p mem named
    · obtain rfl := List.mem_singleton.1 mem
      exact absurd named other
  apply Walk.act_elim (motive := fun x => Clear x name d held)
  case still => exact fun _ => broken
  case opens => exact fun kind => broken.openBlock here some (brace kind).1 (brace kind).2
  case closes =>
    exact fun _ => ⟨fun scope mem => broken.scopes scope (List.mem_of_mem_tail mem),
      fun p mem => broken.pending p (List.mem_filter.1 mem).1, broken.names, broken.header⟩
  case enters => exact fun _ _ _ => ⟨broken.scopes, broken.pending, broken.names, broken.header⟩
  case leaves => exact fun _ _ _ => ⟨broken.scopes, broken.pending, broken.names, broken.header⟩
  case ends => exact fun _ => broken.semicolon here some
  case learns => exact fun _ _ _ => ⟨broken.scopes, broken.pending, broken.names, broken.header⟩
  case heads =>
    intro header
    obtain rfl := keyword header
    exact ⟨broken.scopes, broken.pending, by simp, by simp⟩
  case declares =>
    intro word
    rw [Walk.stated, if_pos word] at quiet
    exact ⟨broken.scopes, more quiet, broken.names, broken.header⟩
  case reports => exact fun _ _ _ => ⟨broken.scopes, broken.pending, broken.names, broken.header⟩
  case defines =>
    intro kind define
    rw [Walk.stated, if_neg (by simp [Token.isWord, kind]),
      if_pos (by simp [kind, define])] at quiet
    exact ⟨broken.scopes, more quiet, broken.names, broken.header⟩

/-- A definition in a header: its names wait for the block of the header. -/
theorem define (h : Clear w name d none) (header : w.header = Option.some w.depth)
    (op : t.kind = .op) (define : isDefine t after = true) :
    Clear (w.step before t after) name d (Option.some w.depth) := by
  have broken : Clear (w.broken before t) name d none := h.broken here some
  rw [← (w.broken_frame before t).2.2.2.2.1] at header
  rw [Walk.step_eq, Walk.act, op]
  simp only [define, if_true, header]
  refine ⟨broken.scopes, fun p mem named => ?_, fun _ => by simp, by simp⟩
  rcases List.mem_append.1 mem with mem | mem
  · exact .inl ((broken.pending p mem named).resolve_right (by simp))
  · obtain rfl := List.mem_singleton.1 mem
    simp

/-- A brace with which no other header than the one at hand comes to its block. -/
theorem enter (h : Clear w name d held) (opens : t.kind = .opening .curly)
    (own : ∀ e ∈ held, e = w.depth) :
    Hides (w.step before t after) name d 1 ∧ name ∉ (w.step before t after).headerNames := by
  have broken : Clear (w.broken before t) name d held := h.broken here some
  have depth : (w.broken before t).depth = w.depth := Walk.broken_depth
  rw [Walk.step_eq, Walk.act, opens]
  rw [← depth] at own here ⊢
  generalize w.broken before t = v at broken own here
  by_cases header : v.header = Option.some v.depth
  · rw [Walk.openBlock_header header]
    simp only [Walk.takeHeader, List.partition_eq_filter_filter]
    refine ⟨⟨broken.scopes, fun p mem named => ?_⟩, by simp⟩
    obtain ⟨mem, kept⟩ := List.mem_filter.1 mem
    rcases broken.pending p mem named with outside | ⟨inHeader, eq⟩
    · exact .inl outside
    · simp [inHeader, own _ eq] at kept
  · have none : held = none := by
      cases held with
      | none => rfl
      | some e =>
        exact absurd ((broken.header e rfl).trans (congrArg Option.some (own e rfl))) header
    subst none
    rw [Walk.openBlock_other header]
    refine ⟨⟨broken.scopes, fun p mem named => ?_⟩, fun mem => broken.names mem rfl⟩
    exact .inl ((broken.pending p mem named).resolve_right (by simp))

end

end Clear

/-! ### Blocks and headers -/

theorem Depth.within_append (d : Depth) (stack outer : List Bracket) :
    d.within (stack ++ outer) = (d.within outer).within stack := by
  have bound := stack.count_le_length (a := Bracket.curly)
  have bound' := outer.count_le_length (a := Bracket.curly)
  simp only [Depth.within, List.count_append, List.length_append, Depth.mk.injEq]
  omega

/-- A block with its braces. -/
structure Block where
  brace : Token
  inside : List Token
  close : Token
  opens : brace.kind = .opening .curly
  nested : Balances [] inside
  headed : Headed inside
  closes : close.kind = .closing .curly

/-- Tokens that start neither a statement nor a function. -/
def isSilent (rest : List Token) : List Token → Bool
  | [] => true
  | t :: ts => !isStating t (ts ++ rest) && !t.isWord "func" && isSilent rest ts

/-- A statement with names in its header. In front of its block, braces stand inside other
delimiters. -/
structure Guarded where
  keyword : Token
  definition : Definition
  /-- What the names are defined by and all that follows up to the block. -/
  tail : List Token
  block : Block
  header : isHeader keyword = true
  silent : isSilent [block.brace] tail = true
  nested : Balances [] tail
  inside : sheltered (·.kind == .opening .curly) 0 tail = true

def Block.tokens (b : Block) : List Token := b.brace :: (b.inside ++ [b.close])

def Guarded.tokens (g : Guarded) : List Token :=
  g.keyword :: (g.definition.tokens ++ (g.tail ++ g.block.tokens))

section

variable {w : Walk} {name : Text} {d e : Depth} {held : Option Depth} {stack : List Bracket}

/-- Nothing is left of a block behind its brace, whatever it declares. -/
theorem Block.pass_clear (b : Block) (h : Clear w name d held) (here : w.depth = d.within stack)
    (some : stack.length ≠ 0) (own : ∀ e ∈ held, e = w.depth)
    (low : ∀ e ∈ w.header, e.blocks ≤ w.depth.blocks) (before rest : List Token) :
    Clear (w.pass before rest b.tokens) name d none := by
  obtain ⟨entered, names⟩ := @Clear.enter w name d held stack before (b.inside ++ [b.close] ++ rest)
    b.brace here some h
    b.opens own
  have depth := w.step_depth before (b.inside ++ [b.close] ++ rest) b.brace
  have header := Walk.step_header
    (show isHeader b.brace = false by simp [isHeader, Token.isWord, b.opens]) w before
    (b.inside ++ [b.close] ++ rest)
  rw [tokens, Walk.pass_cons]
  generalize w.step before b.brace (b.inside ++ [b.close] ++ rest) = v at entered names depth header
  have blocks : v.depth.blocks = w.depth.blocks + 1 := by simp [depth, Depth.after, b.opens]
  have around : Around v.depth v.header := by
    intro e mem
    rw [blocks]
    rcases header with same | ⟨-, gone⟩
    · exact Nat.lt_succ_of_le (low e (same ▸ mem))
    · simp [gone] at mem
  obtain ⟨hides, unheaded⟩ := @Hides.pass_block v name d (b.brace :: before) rest _ b.inside
    b.close entered
    ⟨names, .inr rfl⟩ around b.nested b.headed b.closes (by omega)
  exact .of_hides hides unheaded.names

/-- Over silent tokens nothing changes for a name, whether or not a header has declared it. -/
theorem Clear.pass_silent {outer : List Bracket} {before rest ts : List Token}
    (h : Clear w name d held) (here : w.depth = e.within stack) (within : e = d.within outer)
    (some : outer.length ≠ 0) (silent : isSilent rest ts = true) (nested : Balances stack ts)
    (own : ∀ f ∈ held, f = e)
    (inside : sheltered (·.kind == .opening .curly) stack.length ts = true)
    (spares : Walk.Spares w.bodies ts name) : Clear (w.pass before rest ts) name d held := by
  induction ts generalizing w stack before with
  | nil => exact h
  | cons t ts ih =>
    simp only [isSilent, Bool.and_eq_true, Bool.not_eq_true'] at silent
    obtain ⟨⟨quiet, func⟩, silent⟩ := silent
    obtain ⟨stack', nested', after, opened, -⟩ := exists_stack nested
    rw [sheltered, Bool.and_eq_true, opened] at inside
    have deeper : w.depth = d.within (stack ++ outer) := by rw [here, within, Depth.within_append]
    have step : Clear (w.step before t (ts ++ rest)) name d held := by
      refine h.step deeper (by simp [some]) (by simp [stated_of_isStating quiet]) (fun header => ?_)
        fun curly =>
        ⟨fun same => ?_, spares t (List.mem_cons_self ..) curly⟩
      · simp [isStating, header] at quiet
      · have depth : e.within stack = e := here ▸ own _ same
        have size : stack.length ≠ 0 := by simpa [curly] using inside.1
        exact Depth.within_ne size e depth
    have bodies : (w.step before t (ts ++ rest)).bodies = w.bodies := by
      simp [Walk.step_bodies, Walk.learn, func]
    refine ih step ?_ silent nested' inside.2 ?_
    · rw [Walk.step_depth, here, after]
    · rw [bodies]
      exact fun brace mem => spares brace (List.mem_cons_of_mem t mem)

theorem func_of_isSilent {rest ts : List Token} (silent : isSilent rest ts = true) :
    ∀ t ∈ ts, t.isWord "func" = false := by
  induction ts with
  | nil => simp
  | cons t ts ih =>
    simp only [isSilent, Bool.and_eq_true, Bool.not_eq_true'] at silent
    exact List.forall_mem_cons.2 ⟨silent.1.2, ih silent.2⟩

theorem pass_bodies_of_none {before rest ts : List Token} (none : ∀ t ∈ ts, t.isWord "func" = false)
    (w : Walk) :
    (w.pass before rest ts).bodies = w.bodies := by
  induction ts generalizing w before with
  | nil => rfl
  | cons t ts ih =>
    rw [List.forall_mem_cons] at none
    rw [Walk.pass_cons, ih none.2, Walk.step_bodies, Walk.learn, none.1]
    rfl

/-- Only the first token behind them says whether tokens are silent. -/
theorem isSilent_cons (brace : Token) (rest ts : List Token) :
    isSilent (brace :: rest) ts = isSilent [brace] ts := by
  induction ts with
  | nil => rfl
  | cons t ts ih =>
    have here : isStating t (ts ++ brace :: rest) = isStating t (ts ++ [brace]) := by
      cases ts <;> simp [isStating, isDefine]
    rw [isSilent, isSilent, here, ih]

theorem isSilent_of_names {rest ts : List Token} (h : ∀ t ∈ ts, t.isName = true ∨ t.kind = .comma) :
    isSilent rest ts = true := by
  induction ts with
  | nil => rfl
  | cons t ts ih =>
    rw [List.forall_mem_cons] at h
    have here : isStating t (ts ++ rest) = false ∧ t.isWord "func" = false := by
      rcases h.1 with name | comma
      · have other := fun {word : String} => @Token.isWord_of_isName t word name
        simp [isStating, Walk.isHeader_of_isName name, Token.kind_of_isName name,
          other (show isKeyword "var".toList = true by decide),
          other (show isKeyword "const".toList = true by decide),
          other (show isKeyword "func".toList = true by decide)]
      · simp [isStating, isHeader, Token.isWord, comma]
    simp [isSilent, here, ih h.2]

end

/-- A keyword that starts a header is no other keyword. -/
theorem isWord_of_isHeader {t : Token} (header : isHeader t = true) {word : String}
    (other : word ∉ ["if", "for", "switch", "select"]) : t.isWord word = false := by
  rw [Bool.eq_false_iff]
  intro same
  simp only [isHeader, Token.isWord, Bool.or_eq_true, Bool.and_eq_true, beq_iff_eq] at header same
  rw [same.2] at header
  simp only [String.toList_inj] at header
  refine other ?_
  rcases header with ((⟨-, rfl⟩ | ⟨-, rfl⟩) | ⟨-, rfl⟩) | ⟨-, rfl⟩ <;> decide

theorem isWord_func_of_isHeader {t : Token} (header : isHeader t = true) :
    t.isWord "func" = false :=
  isWord_of_isHeader header (by decide)

theorem stated_of_isHeader {t : Token} (header : isHeader t = true) (before after : List Token) :
    Walk.stated before t after = [] := by
  rw [Walk.stated, isWord_of_isHeader header (by decide), isWord_of_isHeader header (by decide),
    Walk.kind_of_isHeader header]
  rfl

namespace Guarded

variable (g : Guarded) {w : Walk} {name : Text} {d : Depth} {stack : List Bracket}

/-- The statement up to the definition. -/
theorem pass_targets (h : Clear w name d none) (here : w.depth = d.within stack)
    (some : stack.length ≠ 0) (before rest : List Token) :
    Clear (w.pass before rest (g.keyword :: g.definition.targets)) name d none ∧
      (w.pass before rest (g.keyword :: g.definition.targets)).header = Option.some w.depth ∧
      (w.pass before rest (g.keyword :: g.definition.targets)).depth = w.depth ∧
      (w.pass before rest (g.keyword :: g.definition.targets)).bodies = w.bodies := by
  have kind := Walk.kind_of_isHeader g.header
  have plain := Walk.isPlain_of_isHeader g.header
  have other : ∀ t ∈ g.definition.targets, t.kind ≠ .opening .curly := by
    intro t mem
    rcases g.definition.spelled.tokens t mem with name | comma
    · simp [Token.kind_of_isName name]
    · simp [comma]
  have func := isWord_func_of_isHeader g.header
  have first : Clear (w.step before g.keyword (g.definition.targets ++ rest)) name d none := by
    exact h.step here some (by simp [stated_of_isHeader g.header]) (fun _ => rfl) (by simp [kind])
  have header := Walk.step_keyword g.header w before (g.definition.targets ++ rest)
  have depth := w.step_depth before (g.definition.targets ++ rest) g.keyword
  rw [Inside.depth_plain plain] at depth
  have bodies : (w.step before g.keyword (g.definition.targets ++ rest)).bodies = w.bodies := by
    simp [Walk.step_bodies, Walk.learn, func]
  rw [Walk.pass_cons]
  generalize w.step before g.keyword (g.definition.targets ++ rest) = v at first header depth bodies
  have silent : isSilent rest g.definition.targets = true :=
    isSilent_of_names g.definition.spelled.tokens
  have balanced := g.definition.spelled.balances
  refine ⟨@Clear.pass_silent v name d w.depth none [] stack (g.keyword :: before) rest
    g.definition.targets first depth
    here some silent balanced (by simp) ?_ ?_, ?_, ?_, ?_⟩
  · exact Scoping.sheltered_of_forall (fun t mem => by simpa using other t mem) 0
  · exact fun t mem curly => absurd curly (other t mem)
  · rcases Walk.pass_header g.definition.spelled.isHeader_eq_false v (g.keyword :: before) rest
      with same | ⟨⟨t, mem, curly⟩, -⟩
    · rw [same, header]
    · exact absurd curly (other t mem)
  · exact Walk.pass_depth balanced (depth.trans (Depth.within_nil _).symm) _ _
  · rw [pass_bodies_of_none (func_of_isSilent silent), bodies]

/-- Nothing is left of the statement behind its block, the names of its header included. -/
theorem pass_clear (h : Clear w name d none) (here : w.depth = d.within stack)
    (some : stack.length ≠ 0) (spares : Walk.Spares w.bodies g.tail name)
    (before rest : List Token) :
    Clear (w.pass before rest g.tokens) name d none := by
  have op : g.definition.equals.kind = .op ∧ g.definition.equals.text = ['='] := by
    have define := g.definition.define
    simp only [isDefine, Bool.and_eq_true, beq_iff_eq] at define
    exact ⟨define.1.1.2, define.1.2⟩
  have cut : g.tokens = (g.keyword :: g.definition.targets) ++
      g.definition.colon :: ((g.definition.equals :: g.tail) ++ g.block.tokens) := by
    simp [tokens, Definition.tokens]
  rw [cut, Walk.pass_append, Walk.pass_cons, Walk.pass_append]
  obtain ⟨clear, header, depth, bodies⟩ := g.pass_targets h here some before
    (g.definition.colon :: ((g.definition.equals :: g.tail) ++ g.block.tokens) ++ rest)
  generalize w.pass before _ (g.keyword :: g.definition.targets) = v at clear header depth bodies
  generalize (g.keyword :: g.definition.targets).reverse ++ before = front
  have ahead : isDefine g.definition.colon
      ((g.definition.equals :: g.tail) ++ g.block.tokens ++ rest) = true :=
    g.definition.define
  have defined := @Clear.define v name d stack front _ g.definition.colon (depth.trans here)
    some clear (header.trans (congrArg _ depth.symm)) g.definition.op ahead
  have depth' := v.step_depth front ((g.definition.equals :: g.tail) ++ g.block.tokens ++ rest)
    g.definition.colon
  have bodies' := v.step_bodies front g.definition.colon
    ((g.definition.equals :: g.tail) ++ g.block.tokens ++ rest)
  rw [Inside.depth_plain (by simp [Token.isPlain, g.definition.op])] at depth'
  rw [Walk.learn, show g.definition.colon.isWord "func" = false by
    simp [Token.isWord, g.definition.op]] at bodies'
  generalize v.step front g.definition.colon _ = u at defined depth' bodies'
  have silent : isSilent (g.block.tokens ++ rest) (g.definition.equals :: g.tail) = true := by
    have tail := g.silent
    rw [← isSilent_cons _ (g.block.inside ++ [g.block.close] ++ rest)] at tail
    have quiet : isStating g.definition.equals (g.tail ++ (g.block.tokens ++ rest)) = false := by
      have other : isDefine g.definition.equals (g.tail ++ (g.block.tokens ++ rest)) = false := by
        cases g.tail <;> simp [isDefine, Block.tokens, op.2]
      simp [isStating, isHeader, Token.isWord, op.1, other]
    rw [isSilent, quiet, Token.isWord, op.1]
    exact tail
  have plain : g.definition.equals.isPlain = true := by simp [Token.isPlain, op.1]
  have nested : Balances [] (g.definition.equals :: g.tail) := (balances_plain plain).2 g.nested
  have inside : sheltered (·.kind == .opening .curly) 0 (g.definition.equals :: g.tail) = true := by
    rw [sheltered_plain plain, g.inside]
    simp [op.1]
  have known : u.bodies = w.bodies := bodies'.trans bodies
  have held := @Clear.pass_silent u name d v.depth _ [] stack (g.definition.colon :: front) _ _
    defined depth'
    (depth.trans here) some silent nested (fun f mem => (Option.some.inj mem).symm) inside (by
      rw [known]
      rintro brace (_ | ⟨_, mem⟩) curly
      · simp [op.1] at curly
      · exact spares brace mem curly)
  have here' := Walk.pass_depth nested (depth'.trans (Depth.within_nil _).symm)
    (g.definition.colon :: front)
    (g.block.tokens ++ rest)
  refine g.block.pass_clear held (here'.trans (depth.trans here)) some (fun e mem => ?_)
    (fun e mem => ?_) _ _
  · rw [here']
    exact (Option.some.inj mem).symm
  · have same := (held.header _ rfl).symm.trans mem
    rw [← Option.some.inj same, here']

end Guarded

/-! ### Clauses -/

namespace Switch

/-- A piece of the clauses of a statement: a block with what it declares, a statement with names in
its header, or a token outside of both. -/
inductive Piece where
  | token (t : Token)
  | block (b : Block)
  | guarded (g : Guarded)

namespace Piece

def tokens : List Piece → List Token
  | [] => []
  | .token t :: ps => t :: tokens ps
  | .block b :: ps => b.tokens ++ tokens ps
  | .guarded g :: ps => g.tokens ++ tokens ps

/-- The tokens in front of which nothing may be taken for the body of a function with the name. -/
def exposed : List Piece → List Token
  | [] => []
  | .token t :: ps => t :: exposed ps
  | .block _ :: ps => exposed ps
  | .guarded g :: ps => g.tail ++ exposed ps

/-- Outside of blocks and of headers with a block no token declares the name, and none starts a
function type that is read as a function with the name. -/
def isQuiet (name : Text) (before rest : List Token) : List Piece → Bool
  | [] => true
  | .token t :: ps =>
    !(Walk.stated before t (tokens ps ++ rest)).contains name &&
      !misreads name t (tokens ps ++ rest) (exposed ps) && isQuiet name (t :: before) rest ps
  | .block b :: ps => isQuiet name (b.tokens.reverse ++ before) rest ps
  | .guarded g :: ps => isQuiet name (g.tokens.reverse ++ before) rest ps

theorem tokens_append (ps qs : List Piece) : tokens (ps ++ qs) = tokens ps ++ tokens qs := by
  induction ps with
  | nil => rfl
  | cons p ps ih => cases p <;> simp [tokens, ih]

theorem mem_of_mem_exposed {ps : List Piece} {t : Token} (mem : t ∈ exposed ps) :
    t ∈ tokens ps := by
  induction ps with
  | nil => exact mem
  | cons p ps ih =>
    cases p with
    | token u =>
      rcases List.mem_cons.1 mem with rfl | mem
      · exact List.mem_cons_self ..
      · exact List.mem_cons_of_mem u (ih mem)
    | block b => exact List.mem_append_right _ (ih mem)
    | guarded g =>
      rcases List.mem_append.1 mem with mem | mem
      · exact List.mem_append_left _ (by simp [Guarded.tokens, mem])
      · exact List.mem_append_right _ (ih mem)

end Piece

/-- The code closes what it opens, and all functions in it stand inside of delimiters. -/
structure Closed (ts : List Token) : Prop where
  nested : Balances [] ts
  functions : sheltered (Token.isWord "func") 0 ts = true

theorem Closed.append {ts us : List Token} (h : Closed ts) (h' : Closed us) :
    Closed (ts ++ us) where
  nested := (@balances_append_iff [] [] _ _ h.nested).2 h'.nested
  functions := by
    have split := @sheltered_append (Token.isWord "func") [] ts us h.nested 0
    rw [List.length_nil, Nat.zero_add] at split
    rw [split, h.functions, h'.functions]
    rfl

theorem closed_of_none {ts : List Token} (nested : Balances [] ts)
    (none : ∀ t ∈ ts, t.isWord "func" = false) :
    Closed ts := ⟨nested, Scoping.sheltered_of_forall none 0⟩

theorem closed_block (b : Block) : Closed b.tokens := by
  refine ⟨(balances_group b.opens b.nested b.closes).2 rfl, ?_⟩
  have inside := @sheltered_inside (Token.isWord "func") [] b.inside b.nested
  rw [List.length_nil] at inside
  rw [Block.tokens, sheltered_group b.opens b.nested b.closes, inside]
  simp [Token.isWord, b.opens, sheltered]

theorem closed_guarded (g : Guarded) : Closed g.tokens := by
  have keyword : Closed [g.keyword] := by
    refine closed_of_none ((balances_plain (Walk.isPlain_of_isHeader g.header)).2 rfl) ?_
    simpa using isWord_func_of_isHeader g.header
  have definition : Closed g.definition.tokens := by
    have tokens := (Head.define g.definition).tokens
    refine closed_of_none (balances_of_plain fun t mem => ?_) fun t mem => ?_
    · rcases kind_of_isHeadToken (tokens t mem) with kind | kind | kind <;>
        simp [Token.isPlain, kind]
    · exact isWord_of_isHeadToken (tokens t mem) (by decide) (by decide)
  exact keyword.append (definition.append
    ((closed_of_none g.nested (func_of_isSilent g.silent)).append (closed_block g.block)))

/-- The walk inside the statement at depth `d`, with the delimiters of the stack open inside its
braces and the pieces ahead. -/
structure Stands (w : Walk) (name : Text) (d : Depth) (stack : List Bracket) (ps : List Piece) :
    Prop where
  clear : Clear w name d none
  here : w.depth = d.within (stack ++ [.curly])
  nested : Balances stack (Piece.tokens ps)
  spares : Walk.Spares w.bodies (Piece.exposed ps) name
  comes : Comes w (Piece.tokens ps)

namespace Stands

variable {w : Walk} {name : Text} {d : Depth} {stack : List Bracket} {ps qs : List Piece}
  {before rest : List Token} {t : Token}

theorem token (h : Stands w name d stack (.token t :: ps))
    (headed : Headed (Piece.tokens (.token t :: ps)))
    (quiet : name ∉ Walk.stated before t (Piece.tokens ps ++ rest))
    (read : misreads name t (Piece.tokens ps ++ rest) (Piece.exposed ps) = false) :
    ∃ stack', Stands (w.step before t (Piece.tokens ps ++ rest)) name d stack' ps := by
  obtain ⟨stack', nested, within, -⟩ := exists_stack h.nested
  refine ⟨stack', ?_, ?_, nested, ?_, h.comes.step headed⟩
  · exact h.clear.step h.here (by simp) quiet (fun _ => rfl) fun curly =>
      ⟨by simp, h.spares t (List.mem_cons_self ..) curly⟩
  · rw [Walk.step_depth, h.here, Depth.within_append, within, Depth.within_append]
  · rw [Walk.step_bodies]
    exact Walk.Spares.learn (fun brace mem => h.spares brace (List.mem_cons_of_mem t mem))
      fun func body found named brace mem curly =>
        start_ne_of_misreads read func found named mem curly

/-- A piece that leaves the name alone as a whole. -/
theorem closed {us : List Token} (h : Stands w name d stack ps)
    (cut : Piece.tokens ps = us ++ Piece.tokens qs)
    (clear : Clear (w.pass before rest us) name d none) (headed : Headed (Piece.tokens ps))
    (closed : Closed us) (more : Piece.exposed qs ⊆ Piece.exposed ps)
    (apart : ∀ u ∈ us, ∀ brace ∈ Piece.tokens qs, u.start ≠ brace.start) :
    Stands (w.pass before rest us) name d stack qs := by
  have comes := h.comes
  have nested := h.nested
  rw [cut] at headed comes nested
  refine ⟨clear, ?_, ?_, fun brace mem curly => ?_, comes.pass headed⟩
  · rw [Walk.pass_depth closed.nested (Depth.within_nil w.depth).symm, h.here]
  · exact (@balances_append_iff [] stack _ _ closed.nested).1 nested
  · rw [Walk.pass_lookup closed.nested closed.functions
      fun u mem' => apart u mem' brace (Piece.mem_of_mem_exposed mem)]
    exact h.spares brace (more mem) curly

/-- The first pieces, up to a token. -/
theorem pass (h : Stands w name d stack (ps ++ .token t :: qs))
    (headed : Headed (Piece.tokens (ps ++ .token t :: qs)))
    (quiet : Piece.isQuiet name before rest (ps ++ .token t :: qs) = true)
    (distinct : ((Piece.tokens (ps ++ .token t :: qs)).map Token.start).Nodup) :
    ∃ stack', Stands (w.pass before (t :: (Piece.tokens qs ++ rest)) (Piece.tokens ps))
      name d stack'
      (.token t :: qs) := by
  induction ps generalizing w stack before with
  | nil => exact ⟨stack, h⟩
  | cons p ps ih =>
    have after : Piece.tokens ps ++ (t :: (Piece.tokens qs ++ rest)) =
        Piece.tokens (ps ++ .token t :: qs) ++ rest := by
      simp [Piece.tokens_append, Piece.tokens]
    cases p with
    | token u =>
      simp only [List.cons_append, Piece.isQuiet, Bool.and_eq_true, Bool.not_eq_true'] at quiet
      simp only [List.cons_append, Piece.tokens, List.map_cons, List.nodup_cons] at distinct
      have unstated : name ∉ Walk.stated before u
          (Piece.tokens (ps ++ .token t :: qs) ++ rest) := by
        simpa using quiet.1.1
      obtain ⟨stack', stands⟩ := h.token headed unstated quiet.1.2
      rw [Piece.tokens, Walk.pass_cons, after]
      exact ih stands headed.tail quiet.2 distinct.2
    | block b =>
      rw [List.cons_append, Piece.tokens, List.map_append, List.nodup_append] at distinct
      rw [Piece.tokens, Walk.pass_append]
      refine ih (h.closed rfl ?_ headed (closed_block b) (fun u mem => mem)
        fun u mem brace mem' => ?_)
        headed.append_right quiet distinct.2.1
      · exact b.pass_clear h.clear h.here (by simp) (by simp) h.comes.low _ _
      · exact distinct.2.2 _ (List.mem_map_of_mem mem) _ (List.mem_map_of_mem mem')
    | guarded g =>
      rw [List.cons_append, Piece.tokens, List.map_append, List.nodup_append] at distinct
      rw [Piece.tokens, Walk.pass_append]
      refine ih (h.closed rfl ?_ headed (closed_guarded g)
        (fun u mem => List.mem_append_right _ mem)
        fun u mem brace mem' => ?_) headed.append_right quiet distinct.2.1
      · exact g.pass_clear h.clear h.here (by simp)
          (fun brace mem => h.spares brace (List.mem_append_left _ mem)) _ _
      · exact distinct.2.2 _ (List.mem_map_of_mem mem) _ (List.mem_map_of_mem mem')

end Stands

end Switch

/-- A `switch` or `select` statement in the middle of some code, with one of its clauses. -/
structure Switch where
  front : List Token
  keyword : Token
  head : List Token
  brace : Token
  /-- The clauses in front of the one at hand. -/
  earlier : List Switch.Piece
  label : Token
  /-- The clause at hand and those behind it. -/
  clause : List Switch.Piece
  close : Token
  rest : List Token
  word : (keyword.isWord "switch" || keyword.isWord "select") = true
  header : Balances [] head
  opens : brace.kind = .opening .curly
  finished : Balances [] (Switch.Piece.tokens earlier)
  labels : (label.isWord "case" || label.isWord "default") = true
  nested : Balances [] (Switch.Piece.tokens clause)
  headed : Headed (keyword :: (head ++ brace ::
    Switch.Piece.tokens (earlier ++ .token label :: clause)))

namespace Switch

variable (s : Switch)

def pieces : List Piece := s.earlier ++ .token s.label :: s.clause

/-- The tokens up to the brace. -/
def opening : List Token := s.front ++ s.keyword :: (s.head ++ [s.brace])

def code : List Token := s.opening ++ (Piece.tokens s.pieces ++ s.close :: s.rest)

/-- The walk in front of the statement. -/
def reached : Walk :=
  .behind s.front (s.keyword :: (s.head ++ s.brace :: (Piece.tokens s.pieces ++ s.close :: s.rest)))

/-- The walk behind the brace of the statement. -/
def entered : Walk := .behind s.opening (Piece.tokens s.pieces ++ s.close :: s.rest)

/-- Nothing in front of the clauses binds the name in them: no block around, no header, and no
signature read so far. Statements around the block of the `switch` may still wait for their end. -/
structure Unbound (name : Text) : Prop where
  binds : s.entered.binds name = false
  pending : ∀ p ∈ s.entered.pending, name ∈ p.names → p.depth.blocks < s.reached.depth.blocks
  bodies : Walk.Spares s.entered.bodies (Piece.exposed s.pieces) name

theorem isHeader_keyword : isHeader s.keyword = true := by
  have word := s.word
  simp only [Bool.or_eq_true] at word
  rcases word with word | word <;> simp [isHeader, word]

theorem isPlain_label : s.label.isPlain = true :=
  (Bool.or_eq_true .. ▸ s.labels).elim Token.isPlain_of_isWord Token.isPlain_of_isWord

theorem nested_pieces : Balances [] (Piece.tokens s.pieces) := by
  rw [pieces, Piece.tokens_append]
  exact (@balances_append_iff [] [] _ _ s.finished).2 ((balances_plain s.isPlain_label).2 s.nested)

theorem headed_ahead : Headed ((s.head ++ [s.brace]) ++ Piece.tokens s.pieces) := by
  rw [List.append_assoc]
  exact s.headed.tail

/-- The statement is one block deeper inside its brace, and what header is being read there comes to
a brace of its own in the clauses. -/
theorem entered_within :
    s.entered.depth = s.reached.depth.within [.curly] ∧
    Comes s.entered (Piece.tokens s.pieces) := by
  have cut : s.entered = (s.reached.step s.front.reverse s.keyword
      (s.head ++ s.brace :: (Piece.tokens s.pieces ++ s.close :: s.rest))).pass
        (s.keyword :: s.front.reverse)
        (Piece.tokens s.pieces ++ s.close :: s.rest) (s.head ++ [s.brace]) := by
    rw [entered, opening, Walk.behind_append, Walk.pass_cons, reached]
    simp
  have keyword := s.reached.step_depth s.front.reverse
    (s.head ++ s.brace :: (Piece.tokens s.pieces ++ s.close :: s.rest)) s.keyword
  rw [Inside.depth_plain (Walk.isPlain_of_isHeader s.isHeader_keyword)] at keyword
  have comes := @comes_keyword s.reached s.front.reverse
    (s.head ++ s.brace :: (Piece.tokens s.pieces ++ s.close :: s.rest)) _ _
      s.isHeader_keyword s.headed
  rw [cut]
  refine ⟨?_, Comes.pass (by rwa [List.append_assoc]) s.headed_ahead⟩
  rw [Walk.pass_append, Walk.pass_cons, Walk.pass, Walk.step_depth,
    Walk.pass_depth s.header (keyword.trans (Depth.within_nil _).symm), Depth.after, s.opens]
  rfl

/-- Behind the brace nothing binds the name. -/
theorem stands {name : Text} (unbound : s.Unbound name) :
    Stands s.entered name s.reached.depth [] s.pieces := by
  have binds := unbound.binds
  simp only [Walk.binds, Bool.or_eq_false_iff, List.any_eq_false] at binds
  have hides : Hides s.entered name s.reached.depth 0 :=
    ⟨fun scope mem => by simpa using binds.2 scope mem,
      fun p mem named => .inl (.inl (unbound.pending p mem named))⟩
  exact {
    clear := .of_hides hides fun mem => by simp [mem] at binds
    here := s.entered_within.1
    nested := s.nested_pieces
    spares := unbound.bodies
    comes := s.entered_within.2 }

/-- A clause sees the package whatever the clauses in front of it declare in blocks of their own or
in the header of a block: every selector in it on a name that nothing else binds is reported. -/
theorem clause_sees_package {src : Text} {ts us : List Token} {s : Switch}
    (tokens : Token.tokenize src = .ok ts) (part : us.Sublist ts)
    (code : Token.withoutComments us = s.code) {pre post : List Piece} {t : Token}
    (cut : s.clause = pre ++ .token t :: post) (name : t.isName = true)
    (base : isBase (s.opening ++ Piece.tokens (s.earlier ++ .token s.label :: pre)).reverse
      (Piece.tokens post ++ s.close :: s.rest) = true)
    (unbound : s.Unbound t.text)
    (quiet : Piece.isQuiet t.text s.opening.reverse (s.close :: s.rest) s.pieces = true) :
    t.text ∈ packageSelectors s.code := by
  have distinct := SourceFile.nodup_starts tokens part
  rw [code, Switch.code, List.map_append, List.map_append, List.nodup_append,
    List.nodup_append] at distinct
  have starts := distinct.2.1.1
  have stands := s.stands unbound
  have headed := s.headed_ahead.append_right
  have whole : s.pieces = (s.earlier ++ .token s.label :: pre) ++ .token t :: post := by
    rw [pieces, cut]
    simp
  rw [whole] at stands headed quiet starts
  obtain ⟨stack, reached⟩ := stands.pass headed quiet starts
  have behind : Walk.behind (s.opening ++ Piece.tokens (s.earlier ++ .token s.label :: pre))
      (t :: (Piece.tokens post ++ s.close :: s.rest)) =
        s.entered.pass s.opening.reverse (t :: (Piece.tokens post ++ s.close :: s.rest))
          (Piece.tokens (s.earlier ++ .token s.label :: pre)) := by
    rw [Walk.behind_append, entered, whole, Piece.tokens_append _ (.token t :: post), Piece.tokens,
      List.append_assoc, List.cons_append]
  rw [← behind] at reached
  have broken := @Clear.broken _ _ _ _ _
    (s.opening ++ Piece.tokens (s.earlier ++ .token s.label :: pre)).reverse t
    reached.here (by simp) reached.clear
  have reports := Walk.mem_step_used name base broken.binds
  rw [← Walk.behind_concat] at reports
  have all : s.code = (s.opening ++ Piece.tokens (s.earlier ++ .token s.label :: pre) ++ [t]) ++
      (Piece.tokens post ++ s.close :: s.rest) := by
    rw [Switch.code, whole, Piece.tokens_append, Piece.tokens]
    simp
  rw [all, Walk.packageSelectors_append]
  exact Walk.used_subset_run _ reports

/-- A clause that declares a name in the header of a block and in a block of its own, and one behind
it that uses the package of the name. -/
def declaresInBlocks : Switch where
  front := [⟨.ident, [], "func".toList, 0⟩, ⟨.ident, [' '], ['F'], 5⟩,
    ⟨.opening .paren, [], ['('], 6⟩, ⟨.closing .paren, [], [')'], 7⟩,
    ⟨.opening .curly, [' '], ['{'], 9⟩]
  keyword := ⟨.ident, ['\n', ' '], "switch".toList, 12⟩
  head := [⟨.ident, [' '], ['v'], 19⟩]
  brace := ⟨.opening .curly, [' '], ['{'], 21⟩
  earlier := [.token ⟨.ident, ['\n', ' '], "case".toList, 24⟩, .token ⟨.number, [' '], ['1'], 29⟩,
    .token ⟨.op, [], [':'], 30⟩, .guarded {
      keyword := ⟨.ident, ['\n', ' ', ' '], ['i', 'f'], 34⟩
      definition := ⟨[⟨.ident, [' '], "url".toList, 37⟩], _, ⟨.op, [' '], [':'], 41⟩,
        ⟨.op, [], ['='], 42⟩, .one (by decide), rfl, by decide⟩
      tail := [⟨.ident, [' '], ['g'], 44⟩, ⟨.semicolon, [], [';'], 45⟩,
        ⟨.ident, [' '], ['o', 'k'], 47⟩]
      block := {
        brace := ⟨.opening .curly, [' '], ['{'], 50⟩
        inside := [⟨.ident, ['\n', ' ', ' ', ' '], "url".toList, 55⟩, ⟨.dot, [], ['.'], 58⟩,
          ⟨.ident, [], ['B'], 59⟩]
        close := ⟨.closing .curly, ['\n', ' ', ' '], ['}'], 63⟩
        opens := rfl
        nested := by decide
        headed := headed_of_none (by decide)
        closes := rfl }
      header := by decide
      silent := by decide
      nested := by decide
      inside := by decide },
    .block {
      brace := ⟨.opening .curly, ['\n', ' ', ' '], ['{'], 67⟩
      inside := [⟨.ident, ['\n', ' ', ' ', ' '], "url".toList, 72⟩, ⟨.op, [' '], [':'], 76⟩,
        ⟨.op, [], ['='], 77⟩, ⟨.number, [' '], ['2'], 79⟩]
      close := ⟨.closing .curly, ['\n', ' ', ' '], ['}'], 83⟩
      opens := rfl
      nested := by decide
      headed := headed_of_none (by decide)
      closes := rfl }]
  label := ⟨.ident, ['\n', ' '], "case".toList, 86⟩
  clause := [.token ⟨.number, [' '], ['2'], 91⟩, .token ⟨.op, [], [':'], 92⟩,
    .token ⟨.ident, ['\n', ' ', ' '], "url".toList, 96⟩, .token ⟨.dot, [], ['.'], 99⟩,
    .token ⟨.ident, [], ['X'], 100⟩]
  close := ⟨.closing .curly, ['\n', ' '], ['}'], 103⟩
  rest := [⟨.closing .curly, ['\n'], ['}'], 105⟩]
  word := by decide
  header := by decide
  opens := rfl
  finished := by decide
  labels := by decide
  nested := by decide
  headed := headed_of_isHeaded (by decide)

theorem declaresInBlocks_sees_package : "url".toList ∈ packageSelectors declaresInBlocks.code := by
  have tokens :
      Token.tokenize ("func F() \x7b\n switch v \x7b\n case 1:\n  if url := g; ok \x7b\n" ++
        "   url.B\n  \x7d\n  \x7b\n   url := 2\n  \x7d\n case 2:\n  url.X\n \x7d\n\x7d").toList =
        .ok declaresInBlocks.code := by
    rw [String.toList_append, String.toList_ofList, String.toList_ofList]
    decide +kernel
  have code : Token.withoutComments declaresInBlocks.code = declaresInBlocks.code := by
    decide +kernel
  have unbound : declaresInBlocks.Unbound "url".toList := by
    have bodies : declaresInBlocks.entered.bodies = [(9, [])] := by decide +kernel
    refine ⟨by decide +kernel, by decide +kernel, fun brace mem curly => ?_⟩
    rw [bodies]
    cases same : brace.start == 9 <;> simp [List.lookup_cons, same]
  exact clause_sees_package tokens (List.Sublist.refl _) code
    (show declaresInBlocks.clause = declaresInBlocks.clause.take 2 ++ _ :: _ from rfl)
    (by decide) (by decide +kernel) unbound (by decide +kernel)

end Switch

/-! ### Names declared directly -/

/-- The name is bound by the block at depth `d`, inside of which the delimiters of the stack are
open, or it waits for the end of a statement of this block. -/
def Settles (w : Walk) (name : Text) (d : Depth) (stack : List Bracket) : Prop :=
  (∃ inner scope outer, w.scopes = inner ++ scope :: outer ∧ inner.length = stack.count .curly ∧
    name ∈ scope) ∨
    ∃ p ∈ w.pending, p.inHeader = false ∧ p.depth = d ∧ name ∈ p.names

theorem isPlain_of_stated {name : Text} {before after : List Token} {t : Token}
    (h : name ∈ Walk.stated before t after) :
    t.isPlain = true := by
  unfold Walk.stated at h
  split at h
  · next word =>
    exact (Bool.or_eq_true .. ▸ word).elim Token.isPlain_of_isWord Token.isPlain_of_isWord
  · split at h
    · next define => simp_all [Token.isPlain]
    · simp at h

namespace Settles

variable {w : Walk} {name : Text} {d : Depth} {stack : List Bracket}
  {before after rest ts : List Token} {t : Token}

/-- The end of a statement of the block binds the name. -/
theorem binds_of_end (h : Settles w name d []) (here : w.depth = d) (inside : 0 < d.blocks) :
    ∃ scope outer, (w.endStatement w.depth).scopes = scope :: outer ∧ name ∈ scope := by
  have blocks : w.scopes.length = d.blocks := congrArg Depth.blocks here
  obtain ⟨scope, outer, scopes⟩ := List.exists_cons_of_length_pos (blocks ▸ inside)
  refine ⟨scope ++ (w.pending.partition fun p => !p.inHeader && p.depth == w.depth).1.flatMap
    (·.names), outer,
    by simp [Walk.endStatement, scopes], List.mem_append.2 ?_⟩
  rcases h with ⟨inner, bound, outer', scopes', none, mem⟩ | ⟨p, mem, inHeader, depth, named⟩
  · obtain rfl : inner = [] := List.length_eq_zero_iff.1 none
    obtain ⟨rfl, -⟩ := List.cons.inj (scopes.symm.trans scopes')
    exact .inl mem
  · refine .inr (List.mem_flatMap.2 ⟨p, ?_, named⟩)
    rw [List.partition_eq_filter_filter]
    exact List.mem_filter.2 ⟨mem, by simp [inHeader, depth, here]⟩

/-- The end of a statement inside the block does not concern it. -/
theorem endStatement (h : Settles w name d stack) (here : w.depth = d.within stack)
    (inside : 0 < d.blocks) :
    Settles (w.endStatement w.depth) name d stack := by
  by_cases whole : stack.length = 0
  · obtain rfl : stack = [] := List.length_eq_zero_iff.1 whole
    obtain ⟨scope, outer, scopes, mem⟩ := h.binds_of_end here inside
    exact .inl ⟨[], scope, outer, scopes, rfl, mem⟩
  · rcases h with ⟨inner, scope, outer, scopes, size, mem⟩ | ⟨p, mem, inHeader, depth, named⟩
    · obtain ⟨inner', more, scopes', size'⟩ := Walk.endStatement_keeps scopes w.depth
      exact .inl ⟨inner', scope ++ more, outer, scopes', size'.trans size,
        List.mem_append_left _ mem⟩
    · refine .inr ⟨p, ?_, inHeader, depth, named⟩
      unfold Walk.endStatement
      split
      · exact mem
      · have other : p.depth ≠ w.depth := by
          rw [depth, here]
          exact (Depth.within_ne whole d).symm
        simpa [List.partition_eq_filter_filter, inHeader, other] using mem

theorem broken (h : Settles w name d stack) (here : w.depth = d.within stack)
    (inside : 0 < d.blocks) :
    Settles (w.broken before t) name d stack := by
  unfold Walk.broken
  split
  · exact h.endStatement here inside
  · exact h

theorem step (h : Settles w name d stack) (here : w.depth = d.within stack) (inside : 0 < d.blocks)
    (balanced : Balances stack (t :: ts)) :
    ∃ stack', Balances stack' ts ∧ (w.step before t after).depth = d.within stack' ∧
      Settles (w.step before t after) name d stack' := by
  obtain ⟨stack', balanced', within, -, count⟩ := exists_stack balanced
  have broken : Settles (w.broken before t) name d stack := h.broken here inside
  have depth : (w.broken before t).depth = w.depth := Walk.broken_depth
  refine ⟨stack', balanced', by rw [Walk.step_depth, here, within], ?_⟩
  rw [Walk.step_eq]
  generalize w.broken before t = v at broken depth
  have blocks : v.scopes.length = d.blocks + stack.count .curly :=
    congrArg Depth.blocks (depth.trans here)
  have waits : ∀ {x : Walk} {p : Pending}, p ∈ x.pending → p.inHeader = false → p.depth = d →
      name ∈ p.names →
      Settles x name d stack' := fun mem inHeader own named => .inr ⟨_, mem, inHeader, own, named⟩
  rcases broken with ⟨inner, scope, outer, scopes, size, mem⟩ | ⟨p, mem, inHeader, own, named⟩
  · have closes : t.kind = .closing .curly → inner ≠ [] := by
      rintro kind rfl
      obtain ⟨outer', rfl, -⟩ := (balances_closing kind).1 balanced
      simp at size
    obtain ⟨inner', more, scopes', size'⟩ := @Walk.act_keeps v before after t inner outer scope
      scopes closes w.depth
    refine .inl ⟨inner', scope ++ more, outer, scopes', ?_, List.mem_append_left _ mem⟩
    rw [size', size, count]
  · have taken : ∀ d' : Depth, p ∈ (v.takeHeader d').2.pending := by
      intro d'
      simpa [Walk.takeHeader, List.partition_eq_filter_filter, inHeader] using mem
    have same : ∀ {x : Walk}, p ∈ x.pending → Settles x name d stack' :=
      fun mem => waits mem inHeader own named
    apply Walk.act_elim (motive := fun x => Settles x name d stack')
    case opens =>
      intro kind
      by_cases header : v.header = some w.depth
      · rw [Walk.openBlock_header header]
        exact same (taken w.depth)
      · rw [Walk.openBlock_other header]
        exact same mem
    case closes =>
      intro kind
      obtain ⟨outer', rfl, -⟩ := (balances_closing kind).1 balanced
      refine same (List.mem_filter.2 ⟨mem, decide_eq_true ?_⟩)
      rw [List.count_cons_self] at blocks
      rw [List.length_tail, blocks, own]
      omega
    case ends =>
      intro kind
      have here' : w.depth = d.within stack' := by
        rw [← within, here, Inside.depth_plain (by simp [Token.isPlain, kind])]
      by_cases header : v.header = some w.depth
      · rw [Walk.semicolon_header header, ← depth]
        exact endStatement (same (taken v.depth)) (depth.trans here') inside
      · rw [Walk.semicolon_other header, ← depth]
        exact endStatement (same mem) (depth.trans here') inside
    case declares => exact fun _ => same (List.mem_append_left _ mem)
    case defines => exact fun _ _ => same (List.mem_append_left _ mem)
    all_goals intros; exact same mem

theorem pass (h : Settles w name d stack) (here : w.depth = d.within stack) (inside : 0 < d.blocks)
    (balanced : Balances stack ts) : Settles (w.pass before rest ts) name d [] := by
  induction ts generalizing w stack before with
  | nil =>
    obtain rfl : stack = [] := balanced
    exact h
  | cons t ts ih =>
    obtain ⟨stack', balanced', here', settles⟩ :=
      @step w name d stack before (ts ++ rest) ts t h here
      inside balanced
    exact ih settles here' balanced'

/-- A statement outside of headers starts to wait. -/
theorem of_stated (named : name ∈ Walk.stated before t after) (inside : 0 < w.depth.blocks)
    (apart : w.header ≠ some w.depth) : Settles (w.step before t after) name w.depth [] := by
  obtain ⟨-, -, size, -, header, -⟩ := w.broken_frame before t
  rw [← header] at apart
  rw [Walk.step_eq]
  generalize w.broken before t = v at apart size
  have last : ∀ {names : List Text} {x : Walk}, name ∈ names →
      x.pending = v.pending ++ [⟨names, w.depth, false⟩] →
      Settles x name w.depth [] :=
    fun mem eq => .inr ⟨⟨_, w.depth, false⟩, by simp [eq], rfl, rfl, mem⟩
  unfold Walk.stated at named
  split at named
  · next word =>
    have open' : v.scopes.isEmpty = false := by
      rw [List.isEmpty_eq_false_iff, ← List.length_pos_iff, size]
      exact inside
    have kind : t.kind = .ident :=
      (Bool.or_eq_true .. ▸ word).elim Token.kind_of_isWord Token.kind_of_isWord
    have other : t.isWord "func" = false ∧ isHeader t = false := by
      rw [Bool.or_eq_true] at word
      simp only [isHeader, Token.isWord, Bool.and_eq_true, beq_iff_eq] at word ⊢
      rcases word with ⟨-, text⟩ | ⟨-, text⟩ <;> rw [text] <;> simp
    have header := other.2
    rw [isHeader] at header
    rw [Walk.act, kind]
    simp only [Walk.word, other.1, header, word, open', Bool.false_eq_true, if_false,
      Bool.not_false, Bool.and_self, if_true]
    exact last named rfl
  · split at named
    · next define =>
      rw [Bool.and_eq_true, beq_iff_eq] at define
      rw [Walk.act, define.1]
      simp only [define.2, if_true, beq_eq_false_iff_ne.2 apart]
      exact last named rfl
    · simp at named

end Settles

namespace Switch

variable (s : Switch)

/-- What follows the clauses in front of the one at hand. -/
def ahead : List Token := s.label :: (Piece.tokens s.clause ++ s.close :: s.rest)

theorem entered_ahead : s.entered = .behind s.opening (Piece.tokens s.earlier ++ s.ahead) := by
  rw [entered, pieces, Piece.tokens_append, Piece.tokens, List.append_assoc, List.cons_append]
  rfl

/-- A statement of an earlier clause, outside of blocks and headers, that declares the name. -/
structure Declares (name : Text) (pre post : List Token) (t : Token) : Prop where
  cut : Piece.tokens s.earlier = pre ++ t :: post
  nested : Balances [] pre
  stated : name ∈ Walk.stated (s.opening ++ pre).reverse t (post ++ s.ahead)
  apart : (Walk.behind (s.opening ++ pre) (t :: (post ++ s.ahead))).header ≠ some s.entered.depth

/-- The name of the statement waits at the end of the earlier clauses, or is bound already. -/
theorem settles {s : Switch} {name : Text} {pre post : List Token} {t : Token}
    (h : s.Declares name pre post t) :
    (Walk.behind (s.opening ++ Piece.tokens s.earlier) s.ahead).depth = s.entered.depth ∧
      Settles (.behind (s.opening ++ Piece.tokens s.earlier) s.ahead) name s.entered.depth [] := by
  have inside : 0 < s.entered.depth.blocks := by
    rw [s.entered_within.1]
    exact Nat.succ_pos _
  have finished : Balances [] (t :: post) :=
    (@balances_append_iff [] [] _ _ h.nested).1 (h.cut ▸ s.finished)
  have plain := isPlain_of_stated h.stated
  have here : (Walk.behind (s.opening ++ pre) (t :: (post ++ s.ahead))).depth =
      s.entered.depth := by
    rw [Walk.behind_append, entered_ahead, h.cut, List.append_assoc]
    exact Walk.pass_depth h.nested (Depth.within_nil _).symm _ _
  have waits := Settles.of_stated h.stated (here ▸ inside) (here ▸ h.apart)
  have depth := Walk.step_depth (.behind (s.opening ++ pre) (t :: (post ++ s.ahead)))
    (s.opening ++ pre).reverse
    (post ++ s.ahead) t
  rw [here, Inside.depth_plain plain] at depth
  rw [here] at waits
  rw [← Walk.behind_concat] at waits depth
  have closed := (balances_plain plain).1 finished
  have whole : s.opening ++ Piece.tokens s.earlier = s.opening ++ pre ++ [t] ++ post := by
    simp [h.cut]
  rw [whole, Walk.behind_append]
  exact ⟨Walk.pass_depth closed (depth.trans (Depth.within_nil _).symm) _ _,
    waits.pass (depth.trans (Depth.within_nil _).symm) inside closed⟩

/-- So the name is bound in every clause behind that starts on a line of its own: no selector on it
is reported up to the brace of the statement. -/
theorem clause_shadowed {s : Switch} {pre post inner after : List Token} {u t : Token}
    (declares : s.Declares t.text pre post u) (line : s.label.onNewLine = true)
    (place : Piece.tokens s.clause = inner ++ t :: after) :
    (Walk.behind (s.opening ++ Piece.tokens s.earlier ++ [s.label] ++ inner ++ [t])
      (after ++ s.close :: s.rest)).used =
      (Walk.behind (s.opening ++ Piece.tokens s.earlier ++ [s.label] ++ inner)
        (t :: (after ++ s.close :: s.rest))).used := by
  have inside : 0 < s.entered.depth.blocks := by
    rw [s.entered_within.1]
    exact Nat.succ_pos _
  obtain ⟨depth, settles⟩ := settles declares
  obtain ⟨scope, outer, scopes, mem⟩ := settles.binds_of_end depth inside
  have broken : (Walk.behind (s.opening ++ Piece.tokens s.earlier) s.ahead).broken
      (s.opening ++ Piece.tokens s.earlier).reverse s.label =
        (Walk.behind (s.opening ++ Piece.tokens s.earlier) s.ahead).endStatement
          (Walk.behind (s.opening ++ Piece.tokens s.earlier) s.ahead).depth := by
    simp [Walk.broken, line, opening]
  rw [← broken] at scopes
  have closes : s.label.kind = .closing .curly → ([] : List (List Text)) ≠ [] := by
    intro kind
    simpa [Token.isPlain, kind] using s.isPlain_label
  obtain ⟨inner', more, kept, size⟩ :=
    @Walk.act_keeps _ (s.opening ++ Piece.tokens s.earlier).reverse
      (Piece.tokens s.clause ++ s.close :: s.rest) s.label [] _ _ scopes closes
      (Walk.behind (s.opening ++ Piece.tokens s.earlier) s.ahead).depth
  rw [← Walk.step_eq, ahead, ← Walk.behind_concat, place] at kept
  rw [innerAfter_plain s.isPlain_label] at size
  have balanced := s.nested
  rw [place] at balanced
  rw [List.append_assoc inner, List.cons_append] at kept
  rw [Walk.behind_concat, Walk.behind_append]
  exact @Walk.step_used_inside _ _ _ _ _ _ _ _ [] _ _ balanced kept size
    (List.mem_append_left _ mem) _

example : (Token.tokenize ("func F() \x7b\n\tswitch v \x7b\n\tcase 1:\n\t\turl := 1\n\tcase 2:\n" ++
    "\t\turl.X()\n\t\x7d\n\x7d\n").toList).toOption.map packageSelectors = some [] := by
  rw [String.toList_append, String.toList_ofList, String.toList_ofList]
  decide +kernel

end Switch

end GoSplit.Selector
