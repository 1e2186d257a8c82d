import GoSplit.Proofs.Selector.Inside

/-!
The walk on its way through a piece of code. Over a stretch without statements of its own,
such as an expression or a type, nothing changes but the list of selectors: the walk adds the
bases in the stretch that nothing binds.
-/

namespace GoSplit.Selector

namespace Walk

/-- The walk behind some tokens when `rest` follows them. -/
def pass (w : Walk) (before rest : List Token) : List Token → Walk
  | [] => w
  | t :: ts => (w.step before t (ts ++ rest)).pass (t :: before) rest ts

section

variable (w : Walk) (before rest : List Token)

theorem run_append (ts : List Token) :
    w.run before (ts ++ rest) = (w.pass before rest ts).run (ts.reverse ++ before) rest := by
  induction ts generalizing w before with
  | nil => rfl
  | cons t ts ih =>
    rw [List.cons_append, run, ih, pass, List.reverse_cons, List.append_assoc]
    rfl

theorem pass_append (ts us : List Token) :
    w.pass before rest (ts ++ us) =
      (w.pass before (us ++ rest) ts).pass (ts.reverse ++ before) rest us := by
  induction ts generalizing w before with
  | nil => rfl
  | cons t ts ih =>
    rw [List.cons_append, pass, pass, ih, List.reverse_cons, List.append_assoc, List.append_assoc]
    rfl

theorem pass_cons (t : Token) (ts : List Token) :
    w.pass before rest (t :: ts) = (w.step before t (ts ++ rest)).pass (t :: before) rest ts := rfl

end

/-- The walk over some code behind its first tokens, in front of `rest`. -/
def behind (ts rest : List Token) : Walk := start.pass [] rest ts

theorem behind_append (ts us rest : List Token) :
    behind (ts ++ us) rest = (behind ts (us ++ rest)).pass ts.reverse rest us := by
  rw [behind, pass_append, List.append_nil]
  rfl

theorem behind_concat (ts : List Token) (t : Token) (rest : List Token) :
    behind (ts ++ [t]) rest = (behind ts (t :: rest)).step ts.reverse t rest :=
  behind_append ts [t] rest

theorem packageSelectors_append (ts rest : List Token) :
    packageSelectors (ts ++ rest) = ((behind ts rest).run ts.reverse rest).used := by
  rw [packageSelectors, run_append, List.append_nil]
  rfl

/-! ### Line breaks -/

section

variable {w : Walk} {before after : List Token} {t : Token}

theorem endStatement_of_settled (settled : w.pending = []) (d : Depth) : w.endStatement d = w := by
  unfold endStatement
  split
  · rfl
  · next scope outer scopes =>
    cases w
    simp_all

theorem broken_of_sameLine (line : t.onNewLine = false) : w.broken before t = w := by
  rw [broken, line, Bool.and_false]
  rfl

theorem broken_of_settled (settled : w.pending = []) : w.broken before t = w := by
  rw [broken, endStatement_of_settled settled, ite_self]

theorem broken_depth : (w.broken before t).depth = w.depth := by
  obtain ⟨-, -, size, parens, -⟩ := w.broken_frame before t
  rw [depth, depth, size, parens]

theorem step_of_broken (same : w.broken before t = w) :
    w.step before t after = w.act w.depth before t after := by
  rw [step_eq, same]

/-- A line break that has been dealt with is not dealt with again. -/
theorem step_broken (settled : (w.broken before t).pending = []) :
    (w.broken before t).step before t after = w.step before t after := by
  rw [step_of_broken (broken_of_settled settled), step_eq, broken_depth]

end

end Walk

/-! ### Selectors -/

/-- The bases of the selectors in a piece of code. The piece may follow a dot. -/
def bases (behindDot : Bool) : List Token → List Text
  | [] => []
  | t :: ts =>
    (if t.kind == .ident && selects ts && !behindDot then [t.text] else []) ++
      bases (t.kind == .dot) ts

/-- The last of the tokens already read is a dot. -/
def behindDot (before : List Token) : Bool := before.head?.any fun t => t.kind == .dot

theorem isBase_eq_selects (before after : List Token) :
    isBase before after = (selects after && !behindDot before) := by
  rw [isBase_eq, behindDot]
  cases before <;> simp [bne]

/-- The piece of code neither ends with a dot nor goes on with one. -/
def Ends (ts rest : List Token) : Prop :=
  (∀ t ∈ ts.getLast?, t.kind ≠ .dot) ∧ ∀ t ∈ rest.head?, t.kind ≠ .dot

theorem Ends.tail {t : Token} {ts rest : List Token} (h : Ends (t :: ts) rest) : Ends ts rest := by
  refine ⟨fun u mem => h.1 u ?_, h.2⟩
  cases ts with
  | nil => simp at mem
  | cons v ts => simpa using mem

theorem selects_of_ends {t : Token} {ts rest : List Token} (h : Ends (t :: ts) rest) :
    selects (ts ++ rest) = selects ts := by
  match ts, rest with
  | _ :: _ :: _, _ => rfl
  | [], [] => rfl
  | [], [_] => rfl
  | [], u :: v :: rest => simp [selects, h.2 u rfl]
  | [_], [] => rfl
  | [a], u :: rest => simp [selects, h.1 a rfl]

/-! ### Stretches without statements -/

/-- A token that neither starts a statement or a signature nor defines a name. -/
def isInert (t : Token) : Bool :=
  match t.kind with
  | .ident => !(t.isWord "func" || isHeader t || t.isWord "var" || t.isWord "const")
  | .op => t.text != [':']
  | _ => true

/-- The walk with empty blocks on top, one for each brace of the stack, and within its
parentheses. -/
def Walk.within (w : Walk) (stack : List Bracket) : Walk :=
  { w with
    scopes := List.replicate (stack.count .curly) [] ++ w.scopes
    parens := w.parens + (stack.length - stack.count .curly) }

/-- The walk with more selectors. -/
def Walk.report (w : Walk) (names : List Text) : Walk := { w with used := w.used ++ names }

/-- Nothing in the tokens concerns the walk but selectors: they declare nothing, and neither a
statement nor a header comes to its end in them. -/
structure Walk.Inert (w : Walk) (ts : List Token) : Prop where
  tokens : ∀ t ∈ ts, isInert t = true
  pending : ∀ p ∈ w.pending, p.depth = w.depth
  lines : (∀ t ∈ ts, t.onNewLine = false) ∨ w.pending = []
  header : w.header = none ∨ ∀ t ∈ ts, t.kind ≠ .opening .curly ∧ t.kind ≠ .semicolon
  bodies : ∀ t ∈ ts, t.kind = .opening .curly → w.bodies.lookup t.start = none

namespace Walk

variable {w : Walk} {stack : List Bracket} {t : Token} {ts before after rest : List Token}

theorem Inert.tail (h : w.Inert (t :: ts)) (names : List Text) : (w.report names).Inert ts where
  tokens := fun u mem => h.tokens u (List.mem_cons_of_mem t mem)
  pending := h.pending
  lines := h.lines.imp_left fun same u mem => same u (List.mem_cons_of_mem t mem)
  header := h.header.imp_right fun none u mem => none u (List.mem_cons_of_mem t mem)
  bodies := fun u mem => h.bodies u (List.mem_cons_of_mem t mem)

@[simp] theorem within_nil (w : Walk) : w.within [] = w := by
  simp [within]

theorem within_pending : (w.within stack).pending = w.pending := rfl

theorem within_header : (w.within stack).header = w.header := rfl

theorem within_bodies : (w.within stack).bodies = w.bodies := rfl

@[simp] theorem report_nil (w : Walk) : w.report [] = w := by
  simp [report]

theorem report_report (names more : List Text) :
    (w.report names).report more = w.report (names ++ more) := by
  simp [report]

@[simp] theorem within_binds (name : Text) : (w.within stack).binds name = w.binds name := by
  have none : (List.replicate (stack.count Bracket.curly) ([] : List Text)).any
      (fun scope => scope.contains name) = false := by
    rw [List.any_eq_false]
    intro scope mem
    rw [List.eq_of_mem_replicate mem]
    simp
  simp only [binds, within, List.any_append, none, Bool.false_or]

theorem within_curly :
    { w.within stack with scopes := [] :: (w.within stack).scopes } =
      w.within (.curly :: stack) := by
  simp [within, List.replicate_succ]

theorem within_round {bracket : Bracket} (round : bracket ≠ .curly) :
    { w.within stack with parens := (w.within stack).parens + 1 } =
      w.within (bracket :: stack) := by
  have bound := stack.count_le_length (a := Bracket.curly)
  have count : (bracket :: stack).count .curly = stack.count .curly := List.count_cons_of_ne round
  simp only [within, count, List.length_cons, Walk.mk.injEq, true_and, and_true]
  omega

theorem closeBlock_within (pending : ∀ p ∈ w.pending, p.depth = w.depth) :
    (w.within (.curly :: stack)).closeBlock = w.within stack := by
  have kept : w.pending.filter (fun p => decide (p.depth.blocks ≤
      (List.replicate (stack.count Bracket.curly) [] ++ w.scopes).length)) = w.pending := by
    rw [List.filter_eq_self]
    intro p mem
    rw [pending p mem]
    simp [depth]
  simpa [closeBlock, within, List.replicate_succ] using kept

/-- A semicolon inside delimiters ends no statement around them. -/
theorem endStatement_within (pending : ∀ p ∈ w.pending, p.depth = w.depth) (some : stack ≠ []) :
    (w.within stack).endStatement (w.within stack).depth = w.within stack := by
  have bound := stack.count_le_length (a := Bracket.curly)
  have size : 0 < stack.length := List.length_pos_iff.2 some
  have none : w.pending.partition (fun p => !p.inHeader && p.depth == (w.within stack).depth) =
      ([], w.pending) := by
    rw [List.partition_eq_filter_filter, Prod.mk.injEq, List.filter_eq_nil_iff, List.filter_eq_self]
    have other : ∀ p ∈ w.pending, p.depth ≠ (w.within stack).depth := by
      intro p mem same
      rw [pending p mem] at same
      simp only [depth, within, List.length_append, List.length_replicate, Depth.mk.injEq] at same
      omega
    exact ⟨fun p mem => by simp [other p mem], fun p mem => by simp [other p mem]⟩
  unfold endStatement
  split
  · rfl
  · next scope outer scopes =>
    rw [within_pending, none]
    simp only [List.flatMap_nil, List.append_nil, ← scopes]
    rfl

theorem word_inert (inert : isInert t = true) (kind : t.kind = .ident) (d : Depth) :
    w.word d before t after =
      w.report (if isBase before after && !w.binds t.text then [t.text] else []) := by
  simp only [isInert, kind, Bool.not_eq_true', Bool.or_eq_false_iff] at inert
  obtain ⟨⟨⟨func, header⟩, var⟩, const⟩ := inert
  simp only [isHeader, Bool.or_eq_false_iff] at header
  simp only [word, func, header, var, const, Bool.or_self, Bool.false_and, Bool.false_eq_true,
    if_false]
  split
  · rfl
  · rw [report_nil]

/-- Within delimiters, an inert token opens one, closes one or is the base of a selector. -/
theorem step_inert (h : w.Inert (t :: ts)) (balanced : Balances stack (t :: ts))
    (inside : sheltered (·.kind == .semicolon) stack.length (t :: ts) = true) :
    ∃ stack', Balances stack' ts ∧ sheltered (·.kind == .semicolon) stack'.length ts = true ∧
      (w.within stack).step before t after =
        (w.report (if t.kind == .ident && isBase before after && !w.binds t.text then [t.text]
          else [])).within stack' := by
  have inert := h.tokens t (List.mem_cons_self ..)
  have same : (w.within stack).broken before t = w.within stack := by
    rcases h.lines with line | settled
    · exact broken_of_sameLine (line t (List.mem_cons_self ..))
    · exact broken_of_settled settled
  rw [step_of_broken same]
  unfold act
  cases kind : t.kind with
  | opening bracket =>
    refine ⟨bracket :: stack, (balances_opening kind).1 balanced,
      by simpa [sheltered, Token.opened, kind] using inside, ?_⟩
    cases bracket with
    | curly =>
      have header : (w.within stack).header ≠ Option.some (w.within stack).depth := by
        rcases h.header with none | none
        · simp [within_header, none]
        · exact absurd kind (none t (List.mem_cons_self ..)).1
      have unknown := h.bodies t (List.mem_cons_self ..) kind
      simp only [openBlock_other header, within_bodies, unknown, Option.getD_none]
      exact within_curly.trans (by simp)
    | paren => exact (@within_round w stack .paren (by simp)).trans (by simp)
    | square => exact (@within_round w stack .square (by simp)).trans (by simp)
  | closing bracket =>
    obtain ⟨outer, rfl, rest⟩ := (balances_closing kind).1 balanced
    refine ⟨outer, rest, by simpa [sheltered, Token.opened, kind] using inside, ?_⟩
    cases bracket with
    | curly => simp [closeBlock_within h.pending]
    | paren =>
      rw [← within_round (by simp)]
      simp
    | square =>
      rw [← within_round (by simp)]
      simp
  | semicolon =>
    have plain : t.isPlain = true := by simp [Token.isPlain, kind]
    simp only [sheltered, Token.opened, kind, Bool.and_eq_true, beq_self_eq_true, Bool.not_true,
      Bool.false_or, bne_iff_ne] at inside
    refine ⟨stack, (balances_plain plain).1 balanced, inside.2, ?_⟩
    have header : (w.within stack).header ≠ Option.some (w.within stack).depth := by
      rcases h.header with none | none
      · simp [within_header, none]
      · exact absurd kind (none t (List.mem_cons_self ..)).2
    have some : stack ≠ [] := by
      rintro rfl
      simp at inside
    simp only [semicolon_other header, endStatement_within h.pending some]
    simp
  | ident =>
    have plain : t.isPlain = true := by simp [Token.isPlain, kind]
    refine ⟨stack, (balances_plain plain).1 balanced,
      by simpa [sheltered, Token.opened, kind] using inside, ?_⟩
    simp only [word_inert inert kind, within_binds]
    simp [report, within]
  | op =>
    have plain : t.isPlain = true := by simp [Token.isPlain, kind]
    refine ⟨stack, (balances_plain plain).1 balanced,
      by simpa [sheltered, Token.opened, kind] using inside, ?_⟩
    have other : isDefine t after = false := by
      have colon : t.text ≠ [':'] := by simpa [isInert, kind] using inert
      cases after <;> simp [isDefine, colon]
    simp [other]
  | _ =>
    have plain : t.isPlain = true := by simp [Token.isPlain, kind]
    exact ⟨stack, (balances_plain plain).1 balanced,
      by simpa [sheltered, Token.opened, kind] using inside, by simp⟩

/-- Over an inert stretch the walk finds the bases in it that nothing binds. -/
theorem pass_within (h : w.Inert ts) (balanced : Balances stack ts)
    (inside : sheltered (·.kind == .semicolon) stack.length ts = true) (ends : Ends ts rest) :
    (w.within stack).pass before rest ts =
      w.report ((bases (behindDot before) ts).filter fun name => !w.binds name) := by
  induction ts generalizing w stack before with
  | nil =>
    obtain rfl : stack = [] := balanced
    simp [pass, bases]
  | cons t ts ih =>
    obtain ⟨stack', balanced', inside', step⟩ :=
      @step_inert w stack t ts before (ts ++ rest) h balanced inside
    have dot : behindDot (t :: before) = (t.kind == .dot) := by simp [behindDot]
    rw [pass_cons, step, ih (h.tail _) balanced' inside' ends.tail, report_report, bases, dot,
      List.filter_append, isBase_eq_selects, selects_of_ends ends]
    congr 2
    cases t.kind == .ident <;> cases selects ts <;> cases behindDot before <;>
      cases bound : w.binds t.text <;> simp [bound]

theorem pass_inert (h : w.Inert ts) (balanced : Balances [] ts)
    (inside : sheltered (·.kind == .semicolon) 0 ts = true) (ends : Ends ts rest) :
    w.pass before rest ts = w.report
      ((bases (behindDot before) ts).filter fun name => !w.binds name) := by
  have pass := @pass_within w [] ts before rest h balanced inside ends
  rwa [within_nil] at pass

end Walk

end GoSplit.Selector
