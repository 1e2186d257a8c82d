import GoSplit.Proofs.Selector.Pieces

/-!
The value of a declaring statement. While the value is read, the names of the statement wait at
its depth, and only the end of a statement at this depth binds them. What the value opens and
closes stands deeper; function bodies in it have statements, headers and names of their own, of
which nothing is left behind their brace.
-/

namespace GoSplit.Selector

/-! ### Headers of a step -/

namespace Walk

/-- What a token does to the header: its keyword starts one, its brace ends it, and a semicolon
binds its names. -/
theorem step_heading (w : Walk) (before : List Token) (t : Token) (after : List Token) :
    (isHeader t = true ∧ (w.step before t after).header = some w.depth ∧
      (w.step before t after).headerNames = []) ∨
      (t.kind = .opening .curly ∧ w.header = some w.depth ∧ (w.step before t after).header = none ∧
        (w.step before t after).headerNames = []) ∨
      ((t.kind = .opening .curly → w.header ≠ some w.depth) ∧
        (w.step before t after).header = w.header ∧
        ((w.step before t after).headerNames = w.headerNames ∨ t.kind = .semicolon ∧
          w.header = some w.depth)) := by
  obtain ⟨-, -, -, -, frame, names, -⟩ := w.broken_frame before t
  rw [step_eq, ← frame, ← names]
  generalize w.broken before t = v
  have same : ∀ {x : Walk}, (t.kind = .opening .curly → v.header ≠ some w.depth) →
      x.header = v.header →
      x.headerNames = v.headerNames →
      (isHeader t = true ∧ x.header = some w.depth ∧ x.headerNames = []) ∨
      (t.kind = .opening .curly ∧ v.header = some w.depth ∧ x.header = none ∧ x.headerNames = []) ∨
      ((t.kind = .opening .curly → v.header ≠ some w.depth) ∧ x.header = v.header ∧
        (x.headerNames = v.headerNames ∨ t.kind = .semicolon ∧ v.header = some w.depth)) :=
    fun other header names => .inr (.inr ⟨other, header, .inl names⟩)
  have plain : t.isPlain = true → t.kind = .opening .curly → v.header ≠ some w.depth := by
    intro plain kind
    simp [Token.isPlain, kind] at plain
  apply act_elim (motive := fun x =>
    (isHeader t = true ∧ x.header = some w.depth ∧ x.headerNames = []) ∨
      (t.kind = .opening .curly ∧ v.header = some w.depth ∧ x.header = none ∧ x.headerNames = []) ∨
      ((t.kind = .opening .curly → v.header ≠ some w.depth) ∧ x.header = v.header ∧
        (x.headerNames = v.headerNames ∨ t.kind = .semicolon ∧ v.header = some w.depth)))
  case still => exact fun still => same (plain still) rfl rfl
  case opens =>
    intro kind
    by_cases header : v.header = some w.depth
    · rw [openBlock_header header]
      exact .inr (.inl ⟨kind, header, rfl, rfl⟩)
    · rw [openBlock_other header]
      exact same (fun _ => header) rfl rfl
  case closes => exact fun kind => same (by simp [kind]) rfl rfl
  case enters => exact fun bracket kind round => same (by simp [kind, round]) rfl rfl
  case leaves => exact fun bracket kind round => same (by simp [kind]) rfl rfl
  case ends =>
    intro kind
    by_cases header : v.header = some w.depth
    · rw [semicolon_header header]
      exact .inr (.inr ⟨by simp [kind], (endStatement_frame _ _).2.2.2.2.1, .inr ⟨kind, header⟩⟩)
    · rw [semicolon_other header]
      exact same (by simp [kind]) (endStatement_frame _ _).2.2.2.2.1
        (endStatement_frame _ _).2.2.2.2.2.1
  case learns => exact fun body word found => same (plain (Token.isPlain_of_isWord word)) rfl rfl
  case heads => exact fun header => .inl ⟨header, rfl, rfl⟩
  case declares =>
    intro word
    have plain' := (Bool.or_eq_true .. ▸ word).elim Token.isPlain_of_isWord Token.isPlain_of_isWord
    exact same (plain plain') rfl rfl
  case reports => exact fun kind _ _ => same (by simp [kind]) rfl rfl
  case defines => exact fun kind _ => same (by simp [kind]) rfl rfl

end Walk

/-! ### Names that wait outside -/

/-- The names wait for the end of the statement at depth `d`, or of one in a block around it. -/
def Outside (d : Depth) (p : Pending) : Prop := p.depth.blocks < d.blocks ∨ p.depth = d

/-- The walk binds the name in the `inner` innermost blocks at most. Outside of them the name waits
only for the statement at depth `d` or for one around it. -/
structure Hides (w : Walk) (name : Text) (d : Depth) (inner : Nat) : Prop where
  scopes : ∀ scope ∈ w.scopes.drop inner, name ∉ scope
  pending : ∀ p ∈ w.pending, name ∈ p.names →
    Outside d p ∨ 0 < inner ∧ w.scopes.length < p.depth.blocks + inner

/-- The header, if any, belongs to a statement around the one at depth `d`. -/
def Around (d : Depth) (header : Option Depth) : Prop := ∀ e ∈ header, e.blocks < d.blocks

/-- No header is being read but the one given, and its names are not the one in question. -/
structure Unheaded (w : Walk) (name : Text) (outer : Option Depth) : Prop where
  names : name ∉ w.headerNames
  header : w.header = none ∨ w.header = outer

theorem Around.mono {d d' : Depth} {header : Option Depth} (h : Around d header)
    (le : d.blocks ≤ d'.blocks) :
    Around d' header := fun e mem => Nat.lt_of_lt_of_le (h e mem) le

section

variable {w : Walk} {name : Text} {d : Depth} {inner : Nat} {before after rest : List Token}
  {t : Token} {outer : Option Depth}

theorem Hides.binds (h : Hides w name d 0) (header : Unheaded w name outer) :
    w.binds name = false := by
  simp only [Walk.binds, Bool.or_eq_false_iff, List.any_eq_false]
  exact ⟨by simpa using header.names, fun scope mem => by simpa using h.scopes scope mem⟩

theorem Depth.not_outside {stack : List Bracket} (some : stack.length ≠ 0) {p : Pending}
    (h : Outside d p) :
    p.depth ≠ d.within stack := by
  rcases h with outer | rfl
  · intro same
    rw [same, Depth.within] at outer
    simp only at outer
    omega
  · exact (Depth.within_ne some _).symm

/-- The end of a statement deeper inside does not bind the name. -/
theorem Hides.endStatement {stack : List Bracket} (h : Hides w name d 0)
    (here : w.depth = d.within stack) (some : stack.length ≠ 0) :
    Hides (w.endStatement w.depth) name d 0 := by
  obtain ⟨-, -, size, -, -, -, kept⟩ := w.endStatement_frame w.depth
  refine ⟨?_, fun p mem named => ?_⟩
  · unfold Walk.endStatement
    split
    · exact h.scopes
    · next scope outer scopes =>
      have old := h.scopes
      rw [scopes] at old
      refine List.forall_mem_cons.2 ⟨fun mem => ?_, (List.forall_mem_cons.1 old).2⟩
      rcases List.mem_append.1 mem with mem | mem
      · exact (List.forall_mem_cons.1 old).1 mem
      · obtain ⟨p, mem, named⟩ := List.mem_flatMap.1 mem
        rw [List.partition_eq_filter_filter] at mem
        obtain ⟨mem, ends⟩ := List.mem_filter.1 mem
        rcases h.pending p mem named with outside | ⟨inside, -⟩
        · simp only [Bool.and_eq_true, beq_iff_eq] at ends
          exact Depth.not_outside some outside (ends.2.trans here)
        · exact absurd inside (Nat.lt_irrefl 0)
  · rcases h.pending p (kept p mem) named with outside | ⟨inside, -⟩
    · exact .inl outside
    · exact absurd inside (Nat.lt_irrefl 0)

/-- In an inner block the end of a statement concerns this block only. -/
theorem Hides.endStatement_inner (h : Hides w name d (inner + 1)) (d' : Depth) :
    Hides (w.endStatement d') name d (inner + 1) := by
  obtain ⟨-, -, size, -, -, -, kept⟩ := w.endStatement_frame d'
  refine ⟨?_, fun p mem named => by rw [size]; exact h.pending p (kept p mem) named⟩
  unfold Walk.endStatement
  split
  · exact h.scopes
  · next scope outer scopes =>
    have old := h.scopes
    rw [scopes] at old
    exact old

/-- A header around the statement is none of a depth inside of it. -/
theorem Unheaded.header_ne {e : Depth} (h : Unheaded w name outer) (around : Around d outer)
    (inside : d.blocks ≤ e.blocks) : w.header ≠ some e := by
  intro same
  rcases h.header with none | eq
  · simp [none] at same
  · exact absurd (around e (eq ▸ same)) (Nat.not_lt.2 inside)

theorem Unheaded.header_ne_within {stack : List Bracket} (h : Unheaded w name outer)
    (around : Around d outer) (here : w.depth = d.within stack) : w.header ≠ some w.depth := by
  rw [here]
  exact h.header_ne around (Nat.le_add_right ..)

theorem Hides.broken {stack : List Bracket} (h : Hides w name d 0) (here : w.depth = d.within stack)
    (line : t.onNewLine = true → stack.length ≠ 0) : Hides (w.broken before t) name d 0 := by
  unfold Walk.broken
  split
  · next newLine => exact h.endStatement here (line (Bool.and_eq_true .. ▸ newLine).2)
  · exact h

theorem Unheaded.broken (h : Unheaded w name outer) : Unheaded (w.broken before t) name outer := by
  obtain ⟨-, -, -, -, header, names, -⟩ := w.broken_frame before t
  exact ⟨by rw [names]; exact h.names, by rw [header]; exact h.header⟩

/-- Only its keyword starts a header, and the one around is not concerned. -/
theorem Unheaded.step (h : Unheaded w name outer) (apart : w.header ≠ some w.depth)
    (keyword : isHeader t = false) :
    Unheaded (w.step before t after) name outer := by
  rcases w.step_heading before t after with ⟨isHeader, -⟩ | ⟨-, own, -⟩ | ⟨-, sameHeader, sameNames⟩
  · simp [keyword] at isHeader
  · exact absurd own apart
  · refine ⟨?_, by rw [sameHeader]; exact h.header⟩
    rcases sameNames with same | ⟨-, own⟩
    · rw [same]
      exact h.names
    · exact absurd own apart

/-- A token of the statement itself binds nothing. -/
theorem Hides.step {stack : List Bracket} (broken : Hides (w.broken before t) name d 0)
    (header : Unheaded w name outer) (around : Around d outer) (here : w.depth = d.within stack)
    (semicolon : t.kind = .semicolon → stack.length ≠ 0) (keyword : isHeader t = false)
    (states : stack = [] ∨ name ∉ Walk.stated before t after)
    (brace : t.kind = .opening .curly → name ∉ (w.bodies.lookup t.start).getD []) :
    Hides (w.step before t after) name d 0 := by
  have apart : w.header ≠ some w.depth := header.header_ne_within around here
  have depth : (w.broken before t).depth = w.depth := Walk.broken_depth
  obtain ⟨bodies, -, -, -, sameHeader, -, -⟩ := w.broken_frame before t
  rw [← bodies] at brace
  rw [← sameHeader] at apart
  rw [Walk.step_eq]
  generalize w.broken before t = v at broken depth brace apart
  have more : ∀ {names : List Text} {inHeader : Bool}, (stack = [] ∨ name ∉ names) →
      ∀ p ∈ v.pending ++ [⟨names, w.depth, inHeader⟩], name ∈ p.names →
        Outside d p ∨ 0 < 0 ∧ v.scopes.length < p.depth.blocks + 0 := by
    intro names inHeader waits p mem named
    rcases List.mem_append.1 mem with mem | mem
    · exact broken.pending p mem named
    · obtain rfl := List.mem_singleton.1 mem
      rcases waits with rfl | none
      · exact .inl (.inr (here.trans (Depth.within_nil d)))
      · exact absurd named none
  apply Walk.act_elim (motive := fun x => Hides x name d 0)
  case still => exact fun _ => broken
  case opens =>
    intro kind
    rw [Walk.openBlock_other apart]
    refine ⟨List.forall_mem_cons.2 ⟨brace kind, broken.scopes⟩, fun p mem named => ?_⟩
    rcases broken.pending p mem named with outside | ⟨inside, -⟩
    · exact .inl outside
    · exact absurd inside (Nat.lt_irrefl 0)
  case closes =>
    intro kind
    refine ⟨fun scope mem => broken.scopes scope (List.mem_of_mem_tail mem), fun p mem named => ?_⟩
    rcases broken.pending p (List.mem_filter.1 mem).1 named with outside | ⟨inside, -⟩
    · exact .inl outside
    · exact absurd inside (Nat.lt_irrefl 0)
  case enters => exact fun _ _ _ => ⟨broken.scopes, broken.pending⟩
  case leaves => exact fun _ _ _ => ⟨broken.scopes, broken.pending⟩
  case ends =>
    intro kind
    rw [Walk.semicolon_other apart, ← depth]
    exact broken.endStatement (depth.trans here) (semicolon kind)
  case learns => exact fun _ _ _ => ⟨broken.scopes, broken.pending⟩
  case heads => exact fun header => absurd header (by simp [keyword])
  case declares =>
    intro word
    refine ⟨broken.scopes, more (states.imp_right fun none => ?_)⟩
    rwa [Walk.stated, if_pos word] at none
  case reports => exact fun _ _ _ => ⟨broken.scopes, broken.pending⟩
  case defines =>
    intro kind define
    refine ⟨broken.scopes, more (states.imp_right fun none => ?_)⟩
    rwa [Walk.stated, if_neg (by simp [Token.isWord, kind]),
      if_pos (by simp [kind, define])] at none

end

/-! ### Function bodies in the value -/

/-- Every header in the code comes to a brace of its own. -/
def Headed (ts : List Token) : Prop :=
  ∀ front t back, ts = front ++ t :: back → isHeader t = true →
    ∃ mid brace post, back = mid ++ brace :: post ∧ brace.kind = .opening .curly ∧ Balances [] mid

theorem headed_of_none {ts : List Token} (none : ∀ t ∈ ts, isHeader t = false) : Headed ts := by
  rintro front t back rfl header
  rw [none t (by simp)] at header
  exact absurd header (by simp)

theorem Headed.tail {t : Token} {ts : List Token} (h : Headed (t :: ts)) : Headed ts :=
  fun front u back cut => h (t :: front) u back (by rw [cut]; rfl)

/-- The header being read is the one around, or it comes to its brace in the tokens ahead. -/
def Heading (w : Walk) (name : Text) (outer : Option Depth) (rest : List Token) : Prop :=
  Unheaded w name outer ∨ ∃ e stack mid brace post, w.header = some e ∧ w.depth = e.within stack ∧
    rest = mid ++ brace :: post ∧ brace.kind = .opening .curly ∧ Balances stack mid

section

variable {w : Walk} {name : Text} {d : Depth} {inner : Nat} {before after rest ts : List Token}
  {t : Token} {outer : Option Depth}

theorem Heading.step (h : Heading w name outer (t :: ts)) (around : Around d outer)
    (inside : d.blocks ≤ w.depth.blocks) (headed : Headed (t :: ts)) :
    Heading (w.step before t after) name outer ts := by
  have depth := w.step_depth before after t
  rcases w.step_heading before t after with ⟨isHeader, header, -⟩ | ⟨-, -, gone, names⟩ |
    ⟨other, sameHeader, sameNames⟩
  · obtain ⟨mid, brace, post, cut, curly, balanced⟩ := headed [] t ts rfl isHeader
    rw [Inside.depth_plain (Walk.isPlain_of_isHeader isHeader)] at depth
    exact .inr ⟨w.depth, [], mid, brace, post, header, depth, cut, curly, balanced⟩
  · exact .inl ⟨by simp [names], .inl gone⟩
  · rcases h with left | ⟨e, stack, mid, brace, post, header, here, cut, curly, balanced⟩
    · refine .inl ⟨?_, by rw [sameHeader]; exact left.header⟩
      rcases sameNames with same | ⟨-, own⟩
      · rw [same]
        exact left.names
      · exact absurd own (left.header_ne around inside)
    · cases mid with
      | nil =>
        obtain ⟨rfl, rfl⟩ := List.cons.inj cut
        obtain rfl : stack = [] := balanced
        rw [here] at other
        exact absurd header (other curly)
      | cons m mid =>
        obtain ⟨rfl, rfl⟩ := List.cons.inj cut
        obtain ⟨stack', balanced', within, -⟩ := exists_stack balanced
        refine .inr ⟨e, stack', mid, brace, post, sameHeader.trans header, ?_, rfl, curly,
          balanced'⟩
        rw [depth, here, within]

/-- A token of a function body concerns the blocks of the body only. -/
theorem Hides.step_inner (h : Hides w name d (inner + 1)) (size : inner < w.scopes.length) :
    Hides (w.step before t after) name d (innerAfter t (inner + 1)) := by
  have broken : Hides (w.broken before t) name d (inner + 1) := by
    unfold Walk.broken
    split
    · exact h.endStatement_inner w.depth
    · exact h
  have length : (w.broken before t).scopes.length = w.scopes.length :=
    (w.broken_frame before t).2.2.1
  rw [Walk.step_eq]
  generalize w.broken before t = v at broken length
  have same : ∀ {x : Walk}, innerAfter t (inner + 1) = inner + 1 → x.scopes = v.scopes →
      (∀ p ∈ x.pending, p ∈ v.pending ∨ p.depth = w.depth) →
      Hides x name d (innerAfter t (inner + 1)) := by
    intro x plain scopes pending
    rw [plain]
    refine ⟨by rw [scopes]; exact broken.scopes, fun p mem named => ?_⟩
    rw [scopes]
    rcases pending p mem with old | here
    · exact broken.pending p old named
    · refine .inr ⟨Nat.succ_pos _, ?_⟩
      rw [here, length, Walk.depth]
      exact Nat.lt_add_of_pos_right (Nat.succ_pos _)
  have old : ∀ p ∈ v.pending, p ∈ v.pending ∨ p.depth = w.depth := fun p mem => .inl mem
  have more : ∀ {names : List Text} {inHeader : Bool},
      ∀ p ∈ v.pending ++ [⟨names, w.depth, inHeader⟩], p ∈ v.pending ∨ p.depth = w.depth := by
    intro names inHeader p mem
    rcases List.mem_append.1 mem with mem | mem
    · exact .inl mem
    · obtain rfl := List.mem_singleton.1 mem
      exact .inr rfl
  have taken : ∀ p ∈ (v.takeHeader w.depth).2.pending, p ∈ v.pending := by
    intro p mem
    simp only [Walk.takeHeader, List.partition_eq_filter_filter] at mem
    exact (List.mem_filter.1 mem).1
  apply Walk.act_elim (motive := fun x => Hides x name d (innerAfter t (inner + 1)))
  case still => exact fun plain => same (innerAfter_plain plain _) rfl old
  case opens =>
    intro kind
    rw [innerAfter, kind]
    have deeper : ∀ p ∈ v.pending, name ∈ p.names →
        Outside d p ∨ 0 < inner + 2 ∧ v.scopes.length + 1 < p.depth.blocks + (inner + 2) := by
      intro p mem named
      rcases broken.pending p mem named with outside | ⟨-, less⟩
      · exact .inl outside
      · exact .inr ⟨by omega, by omega⟩
    by_cases header : v.header = some w.depth
    · rw [Walk.openBlock_header header]
      exact ⟨broken.scopes, fun p mem => deeper p (taken p mem)⟩
    · rw [Walk.openBlock_other header]
      exact ⟨broken.scopes, deeper⟩
  case closes =>
    intro kind
    rw [innerAfter, kind]
    refine ⟨fun scope mem => broken.scopes scope ?_, fun p mem named => ?_⟩
    · rw [Walk.closeBlock, ← List.drop_one, List.drop_drop] at mem
      rwa [Nat.add_sub_cancel, Nat.add_comm] at mem
    · obtain ⟨mem, kept⟩ := List.mem_filter.1 mem
      rw [decide_eq_true_eq, List.length_tail] at kept
      rcases broken.pending p mem named with outside | ⟨-, less⟩
      · exact .inl outside
      · refine .inr ?_
        simp only [Walk.closeBlock, List.length_tail]
        omega
  case enters => exact fun _ kind round => same (innerAfter_round (.inl kind) round _) rfl old
  case leaves => exact fun _ kind round => same (innerAfter_round (.inr kind) round _) rfl old
  case ends =>
    intro kind
    rw [innerAfter_plain (by simp [Token.isPlain, kind])]
    by_cases header : v.header = some w.depth
    · rw [Walk.semicolon_header header]
      apply Hides.endStatement_inner
      exact ⟨broken.scopes, fun p mem => broken.pending p (taken p mem)⟩
    · rw [Walk.semicolon_other header]
      exact broken.endStatement_inner _
  case learns =>
    exact fun _ word _ => same (innerAfter_plain (Token.isPlain_of_isWord word) _) rfl old
  case heads =>
    exact fun header => same (innerAfter_plain (Walk.isPlain_of_isHeader header) _) rfl old
  case declares =>
    intro word
    have plain := (Bool.or_eq_true .. ▸ word).elim Token.isPlain_of_isWord Token.isPlain_of_isWord
    exact same (innerAfter_plain plain _) rfl more
  case reports =>
    exact fun kind _ _ => same (innerAfter_plain (by simp [Token.isPlain, kind]) _) rfl old
  case defines =>
    exact fun kind _ => same (innerAfter_plain (by simp [Token.isPlain, kind]) _) rfl more

/-- Inside a function body the name is bound in the blocks of the body at most. -/
theorem Hides.pass_inside {stack : List Bracket} {base : Depth}
    (h : Hides w name d (stack.count .curly + 1)) (heading : Heading w name outer ts)
    (around : Around base outer) (balanced : Balances stack ts) (headed : Headed ts)
    (here : w.depth = base.within stack) (inside : 0 < base.blocks) :
    Hides (w.pass before rest ts) name d 1 ∧ Unheaded (w.pass before rest ts) name outer := by
  induction ts generalizing w stack before with
  | nil =>
    obtain rfl : stack = [] := balanced
    refine ⟨h, heading.resolve_right ?_⟩
    rintro ⟨e, stack, mid, brace, post, -, -, cut, -⟩
    simp at cut
  | cons t ts ih =>
    obtain ⟨stack', balanced', within, -, count⟩ := exists_stack balanced
    have blocks : w.scopes.length = base.blocks + stack.count .curly := congrArg Depth.blocks here
    have deeper : base.blocks ≤ w.depth.blocks := by
      rw [here]
      exact Nat.le_add_right ..
    have step := @h.step_inner w name d _ before (ts ++ rest) t (by omega)
    have curly : innerAfter t (stack.count .curly + 1) = stack'.count .curly + 1 := by
      rw [← count]
      cases kind : t.kind with
      | closing bracket =>
        obtain ⟨outer, rfl, -⟩ := (balances_closing kind).1 balanced
        cases bracket <;> simp [innerAfter, kind]
      | opening bracket => cases bracket <;> simp [innerAfter, kind]
      | _ => simp [innerAfter, kind]
    rw [curly] at step
    refine ih step (heading.step around deeper headed) balanced' headed.tail ?_
    rw [Walk.step_depth, here, within]

/-- Nothing is left of a block behind its brace. -/
theorem Hides.pass_block {inside : List Token} {close : Token} (h : Hides w name d 1)
    (header : Unheaded w name outer) (around : Around w.depth outer) (nested : Balances [] inside)
    (headed : Headed inside) (closes : close.kind = .closing .curly) (deep : 0 < w.depth.blocks) :
    Hides (w.pass before rest (inside ++ [close])) name d 0 ∧
      Unheaded (w.pass before rest (inside ++ [close])) name outer := by
  have here := (Depth.within_nil w.depth).symm
  obtain ⟨hides, unheaded⟩ := @Hides.pass_inside w name d before ([close] ++ rest) inside outer []
    w.depth h (.inl header) around nested headed here deep
  have depth := Walk.pass_depth nested here before ([close] ++ rest)
  rw [Walk.pass_append]
  generalize w.pass before ([close] ++ rest) inside = u at hides unheaded depth
  have closed := @Hides.step_inner u name d 0 (inside.reverse ++ before) rest close hides
    (show 0 < u.depth.blocks from depth ▸ deep)
  rw [innerAfter, closes] at closed
  refine ⟨closed, @Unheaded.step u name _ _ close outer unheaded ?_ ?_⟩
  · exact unheaded.header_ne around (Nat.le_of_eq (congrArg Depth.blocks depth.symm))
  · simp [isHeader, Token.isWord, closes]

/-- The brace of a function body leaves what waits outside as it is. -/
theorem Hides.enter (h : Hides w name d 0) (apart : w.header ≠ some w.depth)
    (opens : t.kind = .opening .curly) (line : t.onNewLine = false) :
    Hides (w.step before t after) name d 1 := by
  rw [Walk.step_of_broken (Walk.broken_of_sameLine line), Walk.act, opens]
  simp only [Walk.openBlock_other apart]
  refine ⟨h.scopes, fun p mem named => ?_⟩
  rcases h.pending p mem named with outside | ⟨inside, -⟩
  · exact .inl outside
  · exact absurd inside (Nat.lt_irrefl 0)

end

/-- The body of a function, from brace to brace. -/
structure Body where
  brace : Token
  inside : List Token
  close : Token
  opens : brace.kind = .opening .curly
  line : brace.onNewLine = false
  nested : Balances [] inside
  headed : Headed inside
  closes : close.kind = .closing .curly

namespace Body

variable (b : Body)

def tokens : List Token := b.brace :: (b.inside ++ [b.close])

theorem balances : Balances [] b.tokens := (balances_group b.opens b.nested b.closes).2 rfl

theorem functions_inside : sheltered (Token.isWord "func") 0 b.tokens = true := by
  have inside := @sheltered_inside (Token.isWord "func") [] b.inside b.nested
  rw [List.length_nil] at inside
  rw [tokens, sheltered_group b.opens b.nested b.closes, inside]
  simp [Token.isWord, b.opens, sheltered]

variable {w : Walk} {name : Text} {d : Depth} {outer : Option Depth} {stack : List Bracket}

/-- Nothing is left of a function body behind its brace. -/
theorem pass_hides (h : Hides w name d 0) (header : Unheaded w name outer) (around : Around d outer)
    (here : w.depth = d.within stack) (before rest : List Token) :
    Hides (w.pass before rest b.tokens) name d 0 ∧
    Unheaded (w.pass before rest b.tokens) name outer := by
  have apart := header.header_ne_within around here
  have entered := @Hides.enter w name d before (b.inside ++ [b.close] ++ rest) b.brace h apart
    b.opens b.line
  have header' := @Unheaded.step w name before (b.inside ++ [b.close] ++ rest) b.brace outer
    header apart
    (by simp [isHeader, Token.isWord, b.opens])
  have depth := w.step_depth before (b.inside ++ [b.close] ++ rest) b.brace
  rw [tokens, Walk.pass_cons]
  generalize w.step before b.brace (b.inside ++ [b.close] ++ rest) = v at entered header' depth
  have base : d.blocks < v.depth.blocks := by
    rw [depth, here, Depth.after, b.opens]
    simp only [Depth.within]
    omega
  exact entered.pass_block header' (around.mono (Nat.le_of_lt base)) b.nested b.headed b.closes
    (Nat.lt_of_le_of_lt (Nat.zero_le _) base)

end Body

/-! ### Values -/

/-- A piece of a value: a function body, or a token outside of function bodies. -/
inductive Part where
  | token (t : Token)
  | body (b : Body)

namespace Part

/-- All tokens of a value. -/
def tokens : List Part → List Token
  | [] => []
  | .token t :: ps => t :: tokens ps
  | .body b :: ps => b.tokens ++ tokens ps

/-- The tokens outside of function bodies. -/
def shown : List Part → List Token
  | [] => []
  | .token t :: ps => t :: shown ps
  | .body _ :: ps => shown ps

theorem tokens_append (ps qs : List Part) : tokens (ps ++ qs) = tokens ps ++ tokens qs := by
  induction ps with
  | nil => rfl
  | cons p ps ih => cases p <;> simp [tokens, ih]

theorem shown_sublist (ps : List Part) : (shown ps).Sublist (tokens ps) := by
  induction ps with
  | nil => exact List.Sublist.slnil
  | cons p ps ih =>
    cases p with
    | token t => exact ih.cons_cons t
    | body b => exact ih.trans (List.sublist_append_right ..)

end Part

/-- The token starts a header or declares names. -/
def isStating (t : Token) (after : List Token) : Bool :=
  isHeader t || t.isWord "var" || t.isWord "const" || t.kind == .op && isDefine t after

/-- The token starts a function type that is read as a function with the name among its own, and
with one of the braces for its body. -/
def misreads (name : Text) (t : Token) (after braces : List Token) : Bool :=
  t.isWord "func" && (Signature.bindings after).any fun body =>
    body.2.contains name && braces.any
      fun brace => brace.kind == .opening .curly && brace.start == body.1

/-- Outside of function bodies the value has no statements, and no brace of a composite literal is
taken for the body of a function that binds the name. -/
def isExpression (name : Text) (rest : List Token) : List Part → Bool
  | [] => true
  | .body _ :: ps => isExpression name rest ps
  | .token t :: ps =>
    !isStating t (Part.tokens ps ++ rest) &&
      !misreads name t (Part.tokens ps ++ rest) (Part.shown ps) &&
      isExpression name rest ps

theorem stated_of_isStating {t : Token} {before after : List Token}
    (h : isStating t after = false) :
    Walk.stated before t after = [] := by
  simp only [isStating, Bool.or_eq_false_iff] at h
  obtain ⟨⟨⟨-, var⟩, const⟩, define⟩ := h
  rw [Walk.stated, var, const, define]
  rfl

theorem start_ne_of_misreads {t brace : Token} {after braces : List Token} {name : Text}
    (h : misreads name t after braces = false) (func : t.isWord "func" = true)
    {body : Nat × List Text} (found : body ∈ Signature.bindings after) (named : name ∈ body.2)
    (mem : brace ∈ braces) (curly : brace.kind = .opening .curly) : brace.start ≠ body.1 := by
  simp only [misreads, func, Option.mem_def.1 found, Option.any_some, Bool.true_and,
    Bool.and_eq_false_iff] at h
  rcases h with other | other
  · simp [named] at other
  · simpa [curly] using List.any_eq_false.1 other brace mem

/-- The walk inside the value of the statement at depth `d`, with the delimiters of the stack open
and the tokens of the value that are still ahead. -/
structure Reads (w : Walk) (name : Text) (d : Depth) (outer : Option Depth) (stack : List Bracket)
    (ahead : List Token) : Prop where
  hides : Hides w name d 0
  header : Unheaded w name outer
  around : Around d outer
  here : w.depth = d.within stack
  spares : Walk.Spares w.bodies ahead name
  nested : Balances stack ahead
  ends : sheltered (·.kind == .semicolon) stack.length ahead = true

namespace Reads

variable {w : Walk} {name : Text} {d : Depth} {outer : Option Depth} {stack : List Bracket}
  {before after rest ahead : List Token} {t : Token}

/-- A token of the value, on the line of the one before or inside delimiters. -/
theorem step (h : Reads w name d outer stack (t :: ahead))
    (line : t.onNewLine = true → stack.length ≠ 0) (quiet : isStating t after = false)
    (read : misreads name t after ahead = false) :
    ∃ stack', t.opened stack.length = stack'.length ∧
      Reads (w.step before t after) name d outer stack' ahead := by
  obtain ⟨stack', nested, within, opened, -⟩ := exists_stack h.nested
  have ends := h.ends
  rw [sheltered, Bool.and_eq_true, opened] at ends
  have keyword : isHeader t = false := by
    simp only [isStating, Bool.or_eq_false_iff] at quiet
    exact quiet.1.1.1
  have semicolon : t.kind = .semicolon → stack.length ≠ 0 := by
    intro kind
    simpa [kind] using ends.1
  refine ⟨stack', opened, ?_⟩
  exact {
    hides := (h.hides.broken h.here line).step h.header h.around h.here semicolon keyword
      (.inr (by simp [stated_of_isStating quiet])) (h.spares t (List.mem_cons_self ..))
    header := h.header.step (h.header.header_ne_within h.around h.here) keyword
    around := h.around
    here := by rw [Walk.step_depth, h.here, within]
    spares := by
      rw [Walk.step_bodies]
      exact Walk.Spares.learn (fun brace mem => h.spares brace (List.mem_cons_of_mem t mem))
        fun func body found named brace mem curly =>
          start_ne_of_misreads read func found named mem curly
    nested := nested
    ends := ends.2 }

/-- A function body in the value. -/
theorem body (h : Reads w name d outer stack ahead) (b : Body)
    (apart : ∀ u ∈ b.tokens, ∀ brace ∈ ahead, u.start ≠ brace.start) :
    Reads (w.pass before rest b.tokens) name d outer stack ahead := by
  obtain ⟨hides, header⟩ := b.pass_hides h.hides h.header h.around h.here before rest
  refine ⟨hides, header, h.around, ?_, fun brace mem curly => ?_, h.nested, h.ends⟩
  · rw [Walk.pass_depth b.balances (Depth.within_nil w.depth).symm, h.here]
  · rw [Walk.pass_lookup b.balances b.functions_inside fun u mem' => apart u mem' brace mem]
    exact h.spares brace mem curly

/-- The first parts of the value, up to a token. -/
theorem pass {ps qs : List Part}
    (h : Reads w name d outer stack (Part.shown (ps ++ .token t :: qs)))
    (expression : isExpression name rest (ps ++ .token t :: qs) = true)
    (lines : sheltered Token.onNewLine stack.length (Part.shown ps ++ [t]) = true)
    (distinct : ((Part.tokens (ps ++ .token t :: qs)).map Token.start).Nodup) :
    ∃ stack', (t.onNewLine = true → stack'.length ≠ 0) ∧
      Reads (w.pass before (t :: (Part.tokens qs ++ rest)) (Part.tokens ps)) name d outer stack'
        (t :: Part.shown qs) := by
  induction ps generalizing w stack before with
  | nil =>
    simp only [Part.shown, List.nil_append, sheltered, Bool.and_true, Bool.or_eq_true] at lines
    exact ⟨stack, fun newLine => by simpa [newLine] using lines, h⟩
  | cons p ps ih =>
    have after : Part.tokens ps ++ (t :: (Part.tokens qs ++ rest)) =
        Part.tokens (ps ++ .token t :: qs) ++ rest := by
      simp [Part.tokens_append, Part.tokens]
    cases p with
    | token u =>
      simp only [List.cons_append, isExpression, Bool.and_eq_true, Bool.not_eq_true'] at expression
      simp only [Part.shown, List.cons_append, sheltered, Bool.and_eq_true,
        Bool.or_eq_true] at lines
      simp only [List.cons_append, Part.tokens, List.map_cons, List.nodup_cons] at distinct
      obtain ⟨⟨quiet, read⟩, expression⟩ := expression
      obtain ⟨stack', opened, reads⟩ := @Reads.step w name d outer stack before _ _ u h
        (fun newLine => by simpa [newLine] using lines.1) quiet read
      rw [opened] at lines
      rw [Part.tokens, Walk.pass_cons, after]
      exact ih reads expression lines.2 distinct.2
    | body b =>
      rw [List.cons_append, Part.tokens, List.map_append, List.nodup_append] at distinct
      rw [Part.tokens, Walk.pass_append]
      refine ih (h.body b fun u mem brace mem' => ?_) expression lines distinct.2.1
      refine distinct.2.2 _ (List.mem_map_of_mem mem) _ (List.mem_map_of_mem ?_)
      exact (Part.shown_sublist _).subset mem'

end Reads

/-! ### The whole statement -/

/-- How a statement starts that declares names and gives them a value. -/
inductive Head : List Token → List Text → Prop
  | define (d : Definition) : Head d.tokens d.names
  | var {keyword equals : Token} {targets : List Token} {names : List Text}
    (word : keyword.isWord "var" = true)
    (spelled : Names targets names) (op : equals.kind = .op) (text : equals.text = ['=']) :
    Head (keyword :: (targets ++ [equals])) names

/-- A token of such a start: a name, a comma, an operator or `var`. -/
def isHeadToken (t : Token) : Bool :=
  t.isName || t.kind == .comma || t.kind == .op || t.isWord "var"

theorem Head.tokens {ts : List Token} {names : List Text} (h : Head ts names) :
    ∀ t ∈ ts, isHeadToken t = true := by
  have listed : ∀ {ts names}, Names ts names → ∀ t ∈ ts, isHeadToken t = true := by
    intro ts names spelled t mem
    rcases spelled.tokens t mem with name | comma
    · simp [isHeadToken, name]
    · simp [isHeadToken, comma]
  cases h with
  | define d =>
    simp only [Definition.tokens, List.forall_mem_append, List.forall_mem_cons]
    have equals : d.equals.kind = .op := by
      have define := d.define
      simp only [isDefine, Bool.and_eq_true, beq_iff_eq] at define
      exact define.1.1.2
    exact ⟨listed d.spelled, by simp [isHeadToken, d.op], by simp [isHeadToken, equals], by simp⟩
  | var word spelled op text =>
    simp only [List.forall_mem_append, List.forall_mem_cons]
    exact ⟨by simp [isHeadToken, word], listed spelled, by simp [isHeadToken, op], by simp⟩

section

variable {w : Walk} {name : Text} {d : Depth} {outer : Option Depth}
  {before after rest : List Token} {t : Token}

theorem kind_of_isHeadToken (h : isHeadToken t = true) :
    t.kind = .ident ∨ t.kind = .comma ∨ t.kind = .op := by
  simp only [isHeadToken, Bool.or_eq_true, beq_iff_eq] at h
  rcases h with ((name | comma) | op) | word
  · exact .inl (Token.kind_of_isName name)
  · exact .inr (.inl comma)
  · exact .inr (.inr op)
  · exact .inl (Token.kind_of_isWord word)

theorem isWord_of_isHeadToken (h : isHeadToken t = true) {word : String}
    (keyword : isKeyword word.toList = true) (other : word ≠ "var") : t.isWord word = false := by
  simp only [isHeadToken, Bool.or_eq_true, beq_iff_eq] at h
  rcases h with ((name | comma) | op) | var
  · exact Token.isWord_of_isName name keyword
  · simp [Token.isWord, comma]
  · simp [Token.isWord, op]
  · simp only [Token.isWord, Bool.and_eq_true, beq_iff_eq] at var
    have differs : ("var".toList == word.toList) = false :=
      beq_eq_false_iff_ne.2 fun same => other (String.toList_inj.1 same.symm)
    rw [Token.isWord, var.2, differs, Bool.and_false]

/-- The start of the statement lets its names wait and binds none. -/
theorem step_head (h : isHeadToken t = true) (broken : Hides (w.broken before t) name d 0)
    (header : Unheaded w name outer) (around : Around d outer) (here : w.depth = d) :
    Hides (w.step before t after) name d 0 ∧ Unheaded (w.step before t after) name outer ∧
      (w.step before t after).depth = d ∧ (w.step before t after).bodies = w.bodies := by
  have keyword : isHeader t = false := by
    simp only [isHeader, isWord_of_isHeadToken h (show isKeyword "if".toList = true by decide)
      (by decide),
      isWord_of_isHeadToken h (show isKeyword "for".toList = true by decide) (by decide),
      isWord_of_isHeadToken h (show isKeyword "switch".toList = true by decide) (by decide),
      isWord_of_isHeadToken h (show isKeyword "select".toList = true by decide) (by decide),
      Bool.or_self]
  have kind := kind_of_isHeadToken h
  have plain : t.isPlain = true := by
    rcases kind with kind | kind | kind <;> simp [Token.isPlain, kind]
  have within : w.depth = d.within [] := here
  refine ⟨?_, header.step (header.header_ne_within around within) keyword, ?_, ?_⟩
  · refine @Hides.step w name d before after t outer [] broken header around within ?_ keyword
      (.inl rfl) ?_ <;>
      rcases kind with kind | kind | kind <;> simp [kind]
  · rw [Walk.step_depth, Inside.depth_plain plain, here]
  · rw [Walk.step_bodies, Walk.learn, isWord_of_isHeadToken h (by decide) (by decide)]
    rfl

theorem pass_head {ts : List Token} (tokens : ∀ t ∈ ts, isHeadToken t = true)
    (line : ∀ t ∈ ts, t.onNewLine = false) (hides : Hides w name d 0)
    (header : Unheaded w name outer) (around : Around d outer) (here : w.depth = d) :
    Hides (w.pass before rest ts) name d 0 ∧ Unheaded (w.pass before rest ts) name outer ∧
      (w.pass before rest ts).depth = d ∧ (w.pass before rest ts).bodies = w.bodies := by
  induction ts generalizing w before with
  | nil => exact ⟨hides, header, here, rfl⟩
  | cons t ts ih =>
    rw [List.forall_mem_cons] at tokens line
    have broken : Hides (w.broken before t) name d 0 := by
      rwa [Walk.broken_of_sameLine line.1]
    obtain ⟨hides', header', here', bodies⟩ :=
      @step_head w name d outer before (ts ++ rest) t tokens.1 broken header
      around here
    rw [Walk.pass_cons, ← bodies]
    exact ih tokens.2 line.2 hides' header' here'

end

/-- A statement that declares names and gives them a value, in the middle of some code. -/
structure Assignment where
  front : List Token
  first : Token
  more : List Token
  names : List Text
  value : List Part
  rest : List Token
  head : Head (first :: more) names
  line : ∀ t ∈ more, t.onNewLine = false
  nested : Balances [] (Part.shown value)
  ends : sheltered (·.kind == .semicolon) 0 (Part.shown value) = true

namespace Assignment

variable (a : Assignment)

/-- The tokens up to the value. -/
def opening : List Token := a.front ++ a.first :: a.more

def code : List Token := a.opening ++ (Part.tokens a.value ++ a.rest)

/-- The walk in front of the statement. -/
def reached : Walk := .behind a.front (a.first :: (a.more ++ (Part.tokens a.value ++ a.rest)))

/-- The walk in front of the statement when the one on the line before has ended. -/
def started : Walk := a.reached.broken a.front.reverse a.first

/-- Nothing in front of the statement binds the name in it: no block around it, no other statement
of its block, and no signature read so far. Statements around its block may still wait for their
end. -/
structure Unbound (name : Text) : Prop where
  binds : a.started.binds name = false
  pending : ∀ p ∈ a.started.pending, name ∈ p.names → p.depth.blocks < a.started.depth.blocks
  bodies : Walk.Spares a.started.bodies (Part.shown a.value) name

/-- In front of the value nothing binds the name. -/
theorem reads {name : Text} (unbound : a.Unbound name)
    (apart : Around a.started.depth a.started.header) :
    Reads (.behind a.opening (Part.tokens a.value ++ a.rest)) name a.started.depth
      a.started.header []
      (Part.shown a.value) := by
  obtain ⟨bodies, -, -, -, header, names, -⟩ := a.reached.broken_frame a.front.reverse a.first
  have depth : a.started.depth = a.reached.depth := Walk.broken_depth
  have binds := unbound.binds
  simp only [Walk.binds, Bool.or_eq_false_iff, List.any_eq_false] at binds
  have hides : Hides a.started name a.started.depth 0 :=
    ⟨fun scope mem => by simpa using binds.2 scope mem,
      fun p mem named => .inl (.inl (unbound.pending p mem named))⟩
  have unheaded : Unheaded a.reached name a.started.header := by
    refine ⟨?_, .inr header.symm⟩
    rw [← names]
    exact fun mem => by simp [started, mem] at binds
  have tokens := a.head.tokens
  rw [List.forall_mem_cons] at tokens
  obtain ⟨hides', unheaded', here, same⟩ :=
    @step_head a.reached name a.started.depth a.started.header a.front.reverse
    (a.more ++ (Part.tokens a.value ++ a.rest)) a.first tokens.1 hides unheaded apart depth.symm
  obtain ⟨hides'', unheaded'', here', same'⟩ := @pass_head _ name a.started.depth a.started.header
    (a.first :: a.front.reverse) (Part.tokens a.value ++ a.rest) a.more tokens.2 a.line hides'
      unheaded' apart here
  have behind : Walk.behind a.opening (Part.tokens a.value ++ a.rest) =
      (a.reached.step a.front.reverse a.first (a.more ++ (Part.tokens a.value ++ a.rest))).pass
        (a.first :: a.front.reverse) (Part.tokens a.value ++ a.rest) a.more := by
    rw [opening, Walk.behind_append]
    rfl
  rw [behind]
  refine ⟨hides'', unheaded'', apart, here', ?_, a.nested, a.ends⟩
  rw [same', same, ← bodies]
  exact unbound.bodies

/-- The value of a statement sees the package: outside of function bodies every selector on a name
that nothing else binds is reported, the names that the statement itself declares included. -/
theorem value_sees_package {src : Text} {ts us : List Token} {a : Assignment}
    (tokens : Token.tokenize src = .ok ts) (part : us.Sublist ts)
    (code : Token.withoutComments us = a.code) (apart : Around a.started.depth a.started.header)
    {pre post : List Part} {t : Token} (cut : a.value = pre ++ .token t :: post)
    (name : t.isName = true)
    (base : isBase (a.opening ++ Part.tokens pre).reverse (Part.tokens post ++ a.rest) = true)
    (unbound : a.Unbound t.text) (expression : isExpression t.text a.rest a.value = true)
    (lines : sheltered Token.onNewLine 0 (Part.shown pre ++ [t]) = true) :
    t.text ∈ packageSelectors a.code := by
  have distinct := SourceFile.nodup_starts tokens part
  rw [code, Assignment.code, List.map_append, List.map_append, List.nodup_append,
    List.nodup_append] at distinct
  have reads := a.reads unbound apart
  have starts := distinct.2.1.1
  have behind : Walk.behind (a.opening ++ Part.tokens pre) (t :: (Part.tokens post ++ a.rest)) =
      (Walk.behind a.opening (Part.tokens a.value ++ a.rest)).pass a.opening.reverse
        (t :: (Part.tokens post ++ a.rest)) (Part.tokens pre) := by
    rw [Walk.behind_append, cut, Part.tokens_append, Part.tokens, List.append_assoc,
      List.cons_append]
  rw [cut] at expression starts
  rw [cut] at reads
  obtain ⟨stack, line, reached⟩ :=
    @Reads.pass _ _ _ _ [] a.opening.reverse _ _ _ _ reads expression lines starts
  rw [← cut, ← behind] at reached
  have hides := @Hides.broken _ _ _ (a.opening ++ Part.tokens pre).reverse _ _ reached.hides
    reached.here line
  have reports := Walk.mem_step_used name base (hides.binds reached.header.broken)
  rw [← Walk.behind_concat] at reports
  have whole : a.code = (a.opening ++ Part.tokens pre ++ [t]) ++ (Part.tokens post ++ a.rest) := by
    rw [Assignment.code, cut, Part.tokens_append, Part.tokens]
    simp
  rw [whole, Walk.packageSelectors_append]
  exact Walk.used_subset_run _ reports

/-- The body of a function literal. -/
def callbackBody : Body where
  brace := ⟨.opening .curly, [' '], ['{'], 33⟩
  inside := [⟨.ident, [' '], "url".toList, 35⟩, ⟨.dot, [], ['.'], 38⟩, ⟨.ident, [], ['A'], 39⟩]
  close := ⟨.closing .curly, [' '], ['}'], 41⟩
  opens := rfl
  line := by decide
  nested := by decide
  headed := headed_of_none (by decide)
  closes := rfl

/-- A call on two lines. Its first argument is a function that takes a parameter of the name. -/
def passesCallback : Assignment where
  front := [⟨.ident, [], "func".toList, 0⟩, ⟨.ident, [' '], ['F'], 5⟩,
    ⟨.opening .paren, [], ['('], 6⟩, ⟨.closing .paren, [], [')'], 7⟩,
    ⟨.opening .curly, [' '], ['{'], 9⟩]
  first := ⟨.ident, ['\n', ' '], "url".toList, 12⟩
  more := [⟨.op, [' '], [':'], 16⟩, ⟨.op, [], ['='], 17⟩]
  names := ["url".toList]
  value := [.token ⟨.ident, [' '], ['f'], 19⟩, .token ⟨.opening .paren, [], ['('], 20⟩,
    .token ⟨.ident, [], "func".toList, 21⟩, .token ⟨.opening .paren, [], ['('], 25⟩,
    .token ⟨.ident, [], "url".toList, 26⟩, .token ⟨.ident, [' '], ['T'], 30⟩,
    .token ⟨.closing .paren, [], [')'], 31⟩, .body callbackBody, .token ⟨.comma, [], [','], 42⟩,
    .token ⟨.ident, ['\n', ' ', ' '], "url".toList, 46⟩, .token ⟨.dot, [], ['.'], 49⟩,
    .token ⟨.ident, [], ['B'], 50⟩, .token ⟨.closing .paren, [], [')'], 51⟩]
  rest := [⟨.closing .curly, ['\n'], ['}'], 53⟩]
  head := .define ⟨[⟨.ident, ['\n', ' '], "url".toList, 12⟩], _, ⟨.op, [' '], [':'], 16⟩,
    ⟨.op, [], ['='], 17⟩, .one (by decide), rfl, by decide⟩
  line := by decide
  nested := by decide
  ends := by decide

theorem passesCallback_sees_package : "url".toList ∈ packageSelectors passesCallback.code := by
  have tokens :
      Token.tokenize
        "func F() \x7b\n url := f(func(url T) \x7b url.A \x7d,\n  url.B)\n\x7d".toList =
        .ok passesCallback.code := by
    rw [String.toList_ofList]
    decide +kernel
  have code : Token.withoutComments passesCallback.code = passesCallback.code := by decide +kernel
  have unbound : passesCallback.Unbound "url".toList := by
    refine ⟨by decide +kernel, by decide +kernel, ?_⟩
    intro brace mem curly
    simp [passesCallback, Part.shown] at mem
    rcases mem with rfl | rfl | rfl | rfl | rfl | rfl | rfl | rfl | rfl | rfl | rfl | rfl <;>
      simp at curly
  have header : passesCallback.started.header = none := by decide +kernel
  exact value_sees_package tokens (List.Sublist.refl _) code (by simp [Around, header])
    (show passesCallback.value = passesCallback.value.take 9 ++ _ :: _ from rfl)
    (by decide) (by decide +kernel) unbound (by decide +kernel) (by decide +kernel)

end Assignment

end GoSplit.Selector
