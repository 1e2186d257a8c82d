import GoSplit.Proofs.Selector.Pieces

/-!
The walk agrees with scoping by structure. Between two statements the walk binds the names of
the environment, apart from those of the statement before, which the line break brings in. Over
a statement, a header or a whole block it reports what is free there, and behind a block it
stands where it stood in front of it.
-/

namespace GoSplit.Selector.Scoping

/-! ### Definitions -/

theorem equals_op (d : Definition) : d.equals.kind = .op ∧ d.equals.text = ['='] := by
  have define := d.define
  simp only [isDefine, Bool.and_eq_true, beq_iff_eq] at define
  exact ⟨define.1.1.2, define.1.2⟩

theorem Piece.cons {t : Token} {ts : List Token} (h : Piece ts) (inert : isInert t = true)
    (plain : t.isPlain = true) (dot : t.kind ≠ .dot) (comma : t.kind ≠ .comma)
    (semicolon : t.kind ≠ .semicolon) : Piece (t :: ts) where
  inert := List.forall_mem_cons.2 ⟨inert, h.inert⟩
  nested := (balances_plain plain).2 h.nested
  semicolons := by
    rw [sheltered_plain plain, h.semicolons]
    simp [semicolon]
  first := apart_cons dot comma
  last := by
    rw [List.reverse_cons]
    exact h.last.append (apart_cons dot comma)

theorem Piece.equals {t : Token} {ts : List Token} (h : Piece ts) (kind : t.kind = .op)
    (text : t.text = ['=']) :
    Piece (t :: ts) :=
  h.cons (by simp [isInert, kind, text]) (by simp [Token.isPlain, kind]) (by simp [kind])
    (by simp [kind])
    (by simp [kind])

theorem flat_cons {t : Token} {ts : List Token} (h : Flat ts) (curly : t.kind ≠ .opening .curly)
    (semicolon : t.kind ≠ .semicolon) : Flat (t :: ts) :=
  List.forall_mem_cons.2 ⟨⟨curly, semicolon⟩, h⟩

theorem bases_cons {t : Token} {ts : List Token} (dot : t.kind ≠ .dot) (apart : Apart ts) :
    bases false (t :: ts) = bases false ts := by
  have none : selects ts = false := by
    match ts, apart with
    | [], _ | [_], _ => rfl
    | u :: v :: us, apart => simp [selects, (apart u rfl).1]
  simp [bases, none, beq_eq_false_iff_ne.2 dot]

theorem pass_append_cons (w : Walk) (before rest ts : List Token) (t : Token) (us : List Token) :
    w.pass before rest (ts ++ t :: us) =
      ((w.pass before (t :: (us ++ rest)) ts).step (ts.reverse ++ before) t (us ++ rest)).pass
        (t :: (ts.reverse ++ before)) rest us := by
  rw [Walk.pass_append]
  rfl

/-- The walk with other names that wait. -/
def waiting (w : Walk) (pending : List Pending) : Walk := { w with pending := pending }

section

variable {w : Walk} {env : List Text} {before rest : List Token}

/-- The names on the left of a definition are not looked up. -/
theorem pass_names {ts : List Token} {names : List Text} (h : Names ts names)
    (pending : ∀ p ∈ w.pending, p.depth = w.depth)
    (lines : (∀ t ∈ ts, t.onNewLine = false) ∨ w.pending = []) (back : Apart rest) :
    w.pass before rest ts = w := by
  have piece := piece_of_names h
  have flat := flat_of_names h
  rw [Walk.pass_inert ⟨piece.inert, pending, lines, .inr flat,
    fun t mem curly => absurd curly (flat t mem).1⟩
    piece.nested piece.semicolons (piece.ends back), bases_of_names h, List.filter_nil,
    Walk.report_nil]

/-- Behind the operator the names wait for the end of the statement, or of the header. -/
theorem pass_definition (d : Definition) (settled : w.pending = []) (front : Apart before) :
    w.pass before (d.equals :: rest) (d.targets ++ [d.colon]) =
      waiting w [⟨d.names.reverse, w.depth, w.header == some w.depth⟩] := by
  have names : nameList (d.targets.reverse ++ before) = d.names.reverse :=
    d.spelled.nameList_reverse fun t mem => (front t mem).2
  have define : isDefine d.colon (d.equals :: rest) = true := d.define
  have apart : Apart ([d.colon] ++ d.equals :: rest) := apart_cons (by simp [d.op]) (by simp [d.op])
  rw [Walk.pass_append, pass_names d.spelled (by simp [settled]) (.inr settled) apart,
    Walk.pass_cons, Walk.step_of_broken (Walk.broken_of_settled settled), Walk.act, d.op]
  simp only [List.nil_append, define, if_true, settled, names]
  rfl

/-- A definition reports what is free in the value. -/
theorem pass_defined (d : Definition) {value : List Token} (h : Piece value) (flat : Flat value)
    (settled : w.pending = []) (lines : ∀ t ∈ d.equals :: value, t.onNewLine = false)
    (knows : Knows w env) (front : Apart before) (back : Apart rest) :
    w.pass before rest (d.tokens ++ value) =
      waiting (w.report (unbound env (bases false value)))
        [⟨d.names.reverse, w.depth, w.header == some w.depth⟩] := by
  obtain ⟨kind, text⟩ := equals_op d
  have cut : d.tokens ++ value = (d.targets ++ [d.colon]) ++ d.equals :: value := by
    simp [Definition.tokens]
  have flat' : Flat (d.equals :: value) := flat_cons flat (by simp [kind]) (by simp [kind])
  have front' : Apart ((d.targets ++ [d.colon]).reverse ++ before) := by
    rw [List.reverse_append]
    exact apart_cons (by simp [d.op]) (by simp [d.op])
  have knows' : Knows (waiting w [⟨d.names.reverse, w.depth, w.header == some w.depth⟩]) env :=
    knows
  rw [cut, Walk.pass_append, List.cons_append, pass_definition d settled front,
    pass_piece (h.equals kind text) knows' (by simp [waiting, Walk.depth]) (.inl lines) (.inr flat')
      (fun t mem curly => absurd curly (flat' t mem).1) front' back,
    bases_cons (by simp [kind]) h.first]
  rfl

end

/-! ### Headers -/

/-- The walk between two statements: nothing waits, and no header is open. -/
structure Stands (w : Walk) (env : List Text) : Prop where
  scopes : w.scopes ≠ []
  knows : Knows w env
  pending : w.pending = []
  header : w.header = none
  names : w.headerNames = []

/-- The walk in a header that has declared some names: the last ones wait, the others are bound. -/
def heading (w : Walk) (pending : List Pending) (names : List Text) : Walk :=
  { w with header := some w.depth, pending := pending, headerNames := names }

/-- The walk in a block that binds some names. -/
def entering (w : Walk) (scope : List Text) : Walk := { w with scopes := scope :: w.scopes }

section

variable {w : Walk} {env names : List Text} {before after rest : List Token} {t : Token}
  {pending : List Pending}

theorem step_header_keyword (stands : Stands w env) (header : isHeader t = true) :
    w.step before t after = heading w [] [] := by
  rw [Walk.step_of_broken (Walk.broken_of_settled stands.pending), Walk.act,
    Walk.kind_of_isHeader header]
  simp only [Walk.word_header header, heading, stands.pending]

theorem takeHeader_heading (own : ∀ p ∈ pending, p.inHeader = true ∧ p.depth = w.depth) :
    (heading w pending names).takeHeader w.depth =
      (pending.flatMap (·.names), heading w [] names) := by
  have all : pending.filter (fun p => p.inHeader && p.depth == w.depth) = pending :=
    List.filter_eq_self.2 fun p mem => by simp [own p mem]
  have none : pending.filter (fun p => !(p.inHeader && p.depth == w.depth)) = [] :=
    List.filter_eq_nil_iff.2 fun p mem => by simp [own p mem]
  simp only [Walk.takeHeader, List.partition_eq_filter_filter, heading, all]
  simpa [Function.comp_def] using none

/-- A semicolon binds the names that the header has declared. -/
theorem step_header_semicolon (own : ∀ p ∈ pending, p.inHeader = true ∧ p.depth = w.depth)
    (kind : t.kind = .semicolon) (line : t.onNewLine = false) :
    (heading w pending names).step before t after =
      heading w [] (names ++ pending.flatMap (·.names)) := by
  rw [Walk.step_of_broken (Walk.broken_of_sameLine line), Walk.act, kind]
  have depth : (heading w pending names).depth = w.depth := rfl
  simp only [depth]
  rw [Walk.semicolon_header (by rfl), takeHeader_heading own, Walk.endStatement_of_settled (by rfl)]
  rfl

/-- The brace opens a block that binds them all. -/
theorem step_header_brace (stands : Stands w env)
    (own : ∀ p ∈ pending, p.inHeader = true ∧ p.depth = w.depth) (kind : t.kind = .opening .curly)
    (line : t.onNewLine = false) (body : w.bodies.lookup t.start = none) :
    (heading w pending names).step before t after =
      entering w (pending.flatMap (·.names) ++ names) := by
  rw [Walk.step_of_broken (Walk.broken_of_sameLine line), Walk.act, kind]
  have depth : (heading w pending names).depth = w.depth := rfl
  have known : (heading w pending names).bodies.lookup t.start = none := body
  simp only [depth]
  rw [Walk.openBlock_header (by rfl), takeHeader_heading own, known]
  simp [heading, entering, stands.header, stands.names, stands.pending]

theorem knows_heading (stands : Stands w env) {bound : List Text}
    (same : ∀ name, name ∈ names ↔ name ∈ bound) :
    Knows (heading w pending names) (env ++ bound) := by
  intro name
  have knows := stands.knows name
  simp only [Walk.binds, stands.names, List.contains_nil, Bool.false_or] at knows
  rw [Walk.binds, Bool.eq_iff_iff]
  simp only [heading, knows, Bool.or_eq_true, List.contains_iff_mem, List.mem_append, same, or_comm]

end

theorem sameLine_of_isLine {t : Token} {ts : List Token} (line : isLine (t :: ts) = true) :
    ∀ u ∈ ts, u.onNewLine = false := by
  rw [isLine, Bool.and_eq_true] at line
  simpa using line.2

theorem stands_report {w : Walk} {env : List Text} (stands : Stands w env) (used : List Text) :
    Stands (w.report used) env :=
  ⟨stands.scopes, stands.knows, stands.pending, stands.header, stands.names⟩

section

variable {w : Walk} {env : List Text} (stands : Stands w env) {before after rest : List Token}
include stands

/-- A header with a definition reports what is free in the value, and its names wait. -/
theorem pass_header_defined (d : Definition) {value : List Token} (h : Piece value)
    (flat : Flat value) (lines : ∀ t ∈ d.equals :: value, t.onNewLine = false)
    (front : Apart before) (back : Apart rest) :
    (heading w [] []).pass before rest (d.tokens ++ value) =
      heading (w.report (unbound env (bases false value)))
        [⟨d.names.reverse, w.depth, true⟩] [] := by
  have knows := @knows_heading w env [] [] stands [] (by simp)
  rw [List.append_nil] at knows
  have depth : (heading w [] []).depth = w.depth := rfl
  have here : (heading w [] []).header = some w.depth := rfl
  rw [pass_defined d h flat rfl lines knows front back, depth, here, beq_self_eq_true]
  rfl

theorem pass_header_expr (e : Expr) {names bound : List Text}
    (same : ∀ name, name ∈ names ↔ name ∈ bound) (front : Apart before) (back : Apart rest) :
    (heading w [] names).pass before rest e.tokens =
      heading (w.report (e.free (env ++ bound))) [] names :=
  pass_expr e (knows_heading stands same) (by simp [heading]) (.inr rfl) front back

/-- Behind a semicolon the names are bound in the rest of the header. -/
theorem pass_header_clause (e : Expr) {semicolon : Token} (kind : semicolon.kind = .semicolon)
    (line : semicolon.onNewLine = false) {pending : List Pending} {names bound : List Text}
    (own : ∀ p ∈ pending, p.inHeader = true ∧ p.depth = w.depth)
    (same : ∀ name, name ∈ names ++ pending.flatMap (·.names) ↔ name ∈ bound) (back : Apart rest) :
    (heading w pending names).pass before rest (semicolon :: e.tokens) =
      heading (w.report (e.free (env ++ bound))) [] (names ++ pending.flatMap (·.names)) := by
  rw [Walk.pass_cons, step_header_semicolon own kind line,
    pass_header_expr stands e same (apart_cons (by simp [kind]) (by simp [kind])) back]

end

/-- Over a header and its brace the walk reports what is free in the header, and opens a block that
binds the names of the header. -/
theorem pass_header {w : Walk} {env : List Text} (stands : Stands w env) {h : Header}
    {brace : Token} (opens : brace.kind = .opening .curly)
    (line : isLine (h.tokens ++ [brace]) = true) (body : w.bodies.lookup brace.start = none)
    {before : List Token} (rest : List Token) :
    ∃ scope, w.pass before rest (h.tokens ++ [brace]) = entering (w.report (h.free env)) scope ∧
      ∀ name, name ∈ scope ↔ name ∈ h.names := by
  have apart : ∀ {ts : List Token}, Apart (brace :: ts) :=
    fun {ts} => apart_cons (by simp [opens]) (by simp [opens])
  have header : ∀ {keyword : Token}, keyword.isWord "for" = true ∨ keyword.isWord "if" = true →
      isHeader keyword = true := by
    rintro keyword (word | word) <;> simp [isHeader, word]
  have start : ∀ {keyword : Token} {ts : List Token}, keyword.isWord "for" = true ∨
      keyword.isWord "if" = true →
      w.pass before rest (keyword :: ts) = (heading w [] []).pass (keyword :: before) rest ts := by
    intro keyword ts word
    rw [Walk.pass_cons, step_header_keyword stands (header word)]
  have keyword : ∀ {keyword : Token} {ts : List Token}, keyword.isWord "for" = true ∨
      keyword.isWord "if" = true →
      Apart (keyword :: ts) :=
    fun word => apart_name (word.elim Token.kind_of_isWord Token.kind_of_isWord)
  have semicolons : ∀ {t : Token} {ts : List Token}, t.kind = .semicolon → Apart (t :: ts) :=
    fun kind => apart_cons (by simp [kind]) (by simp [kind])
  cases h with
  | block =>
    refine ⟨[], ?_, by simp [Header.names]⟩
    rw [Header.tokens, List.nil_append, Walk.pass_cons,
      Walk.step_of_broken (Walk.broken_of_settled stands.pending), Walk.act, opens]
    simp only [Walk.openBlock_other (show w.header ≠ some w.depth by simp [stands.header]), body]
    simp [Header.free, Walk.pass, Walk.report, entering]
  | loop key word =>
    refine ⟨[], ?_, by simp [Header.names]⟩
    have lines := sameLine_of_isLine line
    rw [Header.tokens, List.cons_append, start (.inl word), List.nil_append, Walk.pass_cons,
      step_header_brace stands (by simp) opens (lines brace (by simp)) body]
    simp [Header.free, Walk.pass]
  | cond key word condition =>
    refine ⟨[], ?_, by simp [Header.names]⟩
    have lines := sameLine_of_isLine line
    have expr :=
      fun {before rest} => @pass_header_expr w env stands before rest condition [] [] (by simp)
    rw [List.append_nil] at expr
    rw [Header.tokens, List.cons_append, start (.inr word), pass_append_cons,
      expr (keyword (.inr word)) apart,
      step_header_brace (stands_report stands _) (by simp) opens (lines brace (by simp)) body]
    rfl
  | condDefine key word d value semicolon kind condition =>
    refine ⟨d.names.reverse, ?_, by simp [Header.names]⟩
    have lines := sameLine_of_isLine line
    have cut : d.tokens ++ (value.tokens ++ semicolon :: condition.tokens) ++ [brace] =
        d.tokens ++ value.tokens ++ (semicolon :: condition.tokens ++ [brace]) := by simp
    have equals : ∀ t ∈ d.equals :: value.tokens, t.onNewLine = false := fun t mem => lines t (by
      rcases List.mem_cons.1 mem with rfl | mem <;> simp [Definition.tokens, *])
    have back : Apart (semicolon :: condition.tokens ++ [brace] ++ rest) := semicolons kind
    rw [Header.tokens, List.cons_append, start (.inr word), cut, Walk.pass_append,
      pass_header_defined stands d value.piece value.flat equals (keyword (.inr word)) back,
      pass_append_cons, @pass_header_clause _ env (stands_report stands _) _ _ condition _ kind
        (lines semicolon (by simp))
        _ [] d.names (by simp [Walk.report, Walk.depth]) (by simp) apart,
      step_header_brace (stands_report (stands_report stands _) _) (by simp) opens
        (lines brace (by simp)) body,
      Walk.report_report]
    simp [Walk.pass, Header.free, Expr.free]
  | range key word d rangeWord isRange value =>
    refine ⟨d.names.reverse, ?_, by simp [Header.names]⟩
    have lines := sameLine_of_isLine line
    have inert := isInert_of_isWord isRange (by decide)
    have kind := Token.kind_of_isWord isRange
    have piece : Piece (rangeWord :: value.tokens) :=
      value.piece.cons inert (Token.isPlain_of_isWord isRange)
      (by simp [kind]) (by simp [kind]) (by simp [kind])
    have flat : Flat (rangeWord :: value.tokens) :=
      flat_cons value.flat (by simp [kind]) (by simp [kind])
    have equals : ∀ t ∈ d.equals :: rangeWord :: value.tokens, t.onNewLine = false :=
      fun t mem => lines t (by
        rcases List.mem_cons.1 mem with rfl | mem
        · simp [Definition.tokens]
        · rcases List.mem_cons.1 mem with rfl | mem <;> simp [*])
    rw [Header.tokens, List.cons_append, start (.inl word), pass_append_cons,
      pass_header_defined stands d piece flat equals (keyword (.inl word)) apart,
      step_header_brace (stands_report stands _) (by simp [Walk.report, Walk.depth]) opens
        (lines brace (by simp)) body, bases_cons (by simp [kind]) value.first]
    simp [Walk.pass, Header.free, Expr.free]
  | clauses key word d value semicolon kind condition semicolon' kind' post =>
    refine ⟨d.names.reverse, ?_, by simp [Header.names]⟩
    have lines := sameLine_of_isLine line
    have cut :
        d.tokens ++
          (value.tokens ++ semicolon :: (condition.tokens ++ semicolon' :: post.tokens)) ++
          [brace] =
        d.tokens ++ value.tokens ++ (semicolon :: condition.tokens ++
          (semicolon' :: post.tokens ++ [brace])) := by
      simp
    have equals : ∀ t ∈ d.equals :: value.tokens, t.onNewLine = false := fun t mem => lines t (by
      rcases List.mem_cons.1 mem with rfl | mem <;> simp [Definition.tokens, *])
    have back :
        Apart (semicolon :: condition.tokens ++ (semicolon' :: post.tokens ++ [brace]) ++ rest) :=
      semicolons kind
    have back' : Apart (semicolon' :: post.tokens ++ [brace] ++ rest) := semicolons kind'
    rw [Header.tokens, List.cons_append, start (.inl word), cut, Walk.pass_append,
      pass_header_defined stands d value.piece value.flat equals (keyword (.inl word)) back,
      Walk.pass_append, @pass_header_clause _ env (stands_report stands _) _ _ condition _ kind
        (lines semicolon (by simp))
        _ [] d.names (by simp [Walk.report, Walk.depth]) (by simp) back', pass_append_cons,
      @pass_header_clause _ env (stands_report (stands_report stands _) _) _ _ post _ kind'
        (lines semicolon' (by simp)) [] _ d.names (by simp) (by simp) apart,
      step_header_brace (stands_report (stands_report (stands_report stands _) _) _) (by simp) opens
        (lines brace (by simp)) body, Walk.report_report, Walk.report_report]
    simp [Walk.pass, Header.free, Expr.free]

/-! ### Simple statements -/

theorem Simple.first (s : Simple) : Apart s.tokens := by
  cases s with
  | define d value =>
    obtain ⟨t, rest, cut, isName⟩ := exists_name d.spelled
    rw [Simple.tokens, Definition.tokens, cut]
    exact apart_name (Token.kind_of_isName isName)
  | declare keyword word => exact apart_name (Token.kind_of_isWord word)
  | expr e => exact e.first

def typeTokens (type : Option TypeExpr) : List Token := (type.map TypeExpr.tokens).getD []

def valueTokens (value : Option Assigned) : List Token :=
  (value.map fun v => v.equals :: v.value.tokens).getD []

theorem typeTokens_piece (type : Option TypeExpr) : Piece (typeTokens type) := by
  cases type with
  | none =>
    exact ⟨by simp [typeTokens], rfl, rfl, by simp [Apart, typeTokens], by simp [Apart, typeTokens]⟩
  | some t => exact t.piece

theorem valueTokens_piece (value : Option Assigned) :
    Piece (valueTokens value) ∧ Flat (valueTokens value) := by
  cases value with
  | none =>
    exact ⟨⟨by simp [valueTokens], rfl, rfl, by simp [Apart, valueTokens],
      by simp [Apart, valueTokens]⟩, by simp [Flat, valueTokens]⟩
  | some v =>
    exact ⟨v.value.piece.equals v.kind v.text,
      flat_cons v.value.flat (by simp [v.kind]) (by simp [v.kind])⟩

theorem Simple.last (s : Simple) : Apart s.tokens.reverse := by
  cases s with
  | define d value =>
    have op : Apart d.tokens.reverse := by
      rw [Definition.tokens, List.reverse_append]
      exact apart_cons (by simp [equals_op d]) (by simp [equals_op d])
    rw [Simple.tokens, List.reverse_append]
    exact value.last.append op
  | declare keyword word targets names spelled type value =>
    have cut : (Simple.declare keyword word targets names spelled type value).tokens.reverse =
        (valueTokens value).reverse ++
          ((typeTokens type).reverse ++ (targets.reverse ++ [keyword])) := by
      simp [Simple.tokens, typeTokens, valueTokens]
    rw [cut]
    exact (valueTokens_piece value).1.last.append ((typeTokens_piece type).last.append
      ((piece_of_names spelled).last.append (apart_name (Token.kind_of_isWord word))))
  | expr e => exact e.last

section

variable {w : Walk} {env : List Text} {before rest : List Token}

theorem waiting_of_settled (settled : w.pending = []) : waiting w [] = w := by
  rw [waiting, ← settled]

theorem free_declare {keyword : Token} {word : keyword.isWord "var" = true} {targets : List Token}
    {names : List Text} {spelled : Names targets names} (type : Option TypeExpr)
    (value : Option Assigned) :
    (Simple.declare keyword word targets names spelled type value).free env =
      unbound env (bases false (typeTokens type)) ++
        unbound env (bases false (valueTokens value)) := by
  rw [Simple.free]
  congr 1
  · cases type <;> rfl
  · cases value with
    | none => rfl
    | some v => exact (congrArg (unbound env) (bases_cons (by simp [v.kind]) v.value.first)).symm

/-- The keyword `var` makes the names of its statement wait. -/
theorem step_declare (stands : Stands w env) {keyword : Token} (word : keyword.isWord "var" = true)
    {targets : List Token} {names : List Text} (spelled : Names targets names) (back : Apart rest) :
    w.step before keyword (targets ++ rest) = waiting w [⟨names, w.depth, false⟩] := by
  have read : statementNames (targets ++ rest) = names := by
    have listed := spelled.nameList_append fun t mem => (back t mem).2
    obtain ⟨t, others, rfl, isName⟩ := exists_name spelled
    rw [List.cons_append] at listed ⊢
    rw [statementNames, if_neg (by simp [Token.kind_of_isName isName]), listed]
  have func : keyword.isWord "func" = false := Signature.ne_of_isWord word (by decide)
  have header : isHeader keyword = false := by
    simp only [isHeader, Signature.ne_of_isWord word (show "var".toList ≠ "if".toList by decide),
      Signature.ne_of_isWord word (show "var".toList ≠ "for".toList by decide),
      Signature.ne_of_isWord word (show "var".toList ≠ "switch".toList by decide),
      Signature.ne_of_isWord word (show "var".toList ≠ "select".toList by decide), Bool.or_self]
  rw [isHeader] at header
  rw [Walk.step_of_broken (Walk.broken_of_settled stands.pending), Walk.act,
    Token.kind_of_isWord word]
  simp only [Walk.word, func, header, word, read, stands.pending,
    List.isEmpty_eq_false_iff.2 stands.scopes]
  rfl

/-- A simple statement reports what is free in it, and its names wait for the end of the line. -/
theorem pass_simple (stands : Stands w env) {s : Simple} (line : isLine s.tokens = true)
    (bodies : ∀ t ∈ s.tokens, t.kind = .opening .curly → w.bodies.lookup t.start = none)
    (front : Apart before) (back : Apart rest) :
    ∃ pending, w.pass before rest s.tokens = waiting (w.report (s.free env)) pending ∧
      (∀ p ∈ pending, p.inHeader = false ∧ p.depth = w.depth) ∧
      ∀ name, name ∈ pending.flatMap (·.names) ↔ name ∈ s.names := by
  cases s with
  | define d value =>
    have lines : ∀ t ∈ d.equals :: value.tokens, t.onNewLine = false := by
      obtain ⟨first, others, cut, -⟩ := exists_name d.spelled
      rw [Simple.tokens, Definition.tokens, cut] at line
      have same := sameLine_of_isLine line
      intro t mem
      apply same
      rcases List.mem_cons.1 mem with rfl | mem <;> simp [*]
    refine ⟨_, pass_defined d value.piece value.flat stands.pending lines stands.knows front
      back, ?_, ?_⟩
    · simp [stands.header]
    · simp [Simple.names]
  | declare keyword word targets names spelled type value =>
    have lines := sameLine_of_isLine line
    change ∀ t ∈ targets ++ (typeTokens type ++ valueTokens value), t.onNewLine = false at lines
    change ∀ t ∈ keyword :: (targets ++ (typeTokens type ++ valueTokens value)), _ at bodies
    simp only [List.forall_mem_cons, List.forall_mem_append] at lines bodies
    obtain ⟨valued, flat⟩ := valueTokens_piece value
    have behind : Apart (valueTokens value ++ rest) := valued.first.append back
    have behind' : Apart (typeTokens type ++ (valueTokens value ++ rest)) :=
      (typeTokens_piece type).first.append behind
    have here : Apart (targets.reverse ++ keyword :: before) :=
      (piece_of_names spelled).last.append (apart_name (Token.kind_of_isWord word))
    have here' : Apart ((typeTokens type).reverse ++ (targets.reverse ++ keyword :: before)) :=
      (typeTokens_piece type).last.append here
    refine ⟨[⟨names, w.depth, false⟩], ?_, by simp, by simp [Simple.names]⟩
    have knows : Knows (waiting w [⟨names, w.depth, false⟩]) env := stands.knows
    have own : ∀ p ∈ (waiting w [⟨names, w.depth, false⟩]).pending, p.depth = w.depth := by
      simp [waiting]
    have read := @step_declare w env before _ stands keyword word targets names spelled behind'
    change w.pass before rest (keyword :: (targets ++ (typeTokens type ++ valueTokens value))) = _
    rw [Walk.pass_cons, List.append_assoc, List.append_assoc, read, Walk.pass_append,
      List.append_assoc, pass_names spelled own (.inl lines.1) behind', Walk.pass_append,
      pass_piece (typeTokens_piece type) knows own (.inl lines.2.1) (.inl stands.header)
        bodies.2.2.1 here behind,
      pass_piece valued (knows_report knows _) own (.inl lines.2.2) (.inl stands.header)
        bodies.2.2.2 here' back,
      Walk.report_report, free_declare]
    rfl
  | expr e =>
    refine ⟨[], ?_, by simp, by simp [Simple.names]⟩
    rw [Simple.tokens, pass_expr e stands.knows (by simp [stands.pending]) (.inr stands.pending)
      front back,
      waiting_of_settled (stands_report stands _).pending]
    rfl

end

/-! ### Blocks -/

/-- The walk between two statements, where the names of the first one may still wait. -/
structure Rests (w : Walk) (env : List Text) : Prop where
  scopes : w.scopes ≠ []
  pending : ∀ p ∈ w.pending, p.inHeader = false ∧ p.depth = w.depth
  header : w.header = none
  names : w.headerNames = []
  knows : Knows (w.endStatement w.depth) env

theorem endStatement_pending {w : Walk} {scope : List Text} {outer : List (List Text)}
    (scopes : w.scopes = scope :: outer)
    (pending : ∀ p ∈ w.pending, p.inHeader = false ∧ p.depth = w.depth) :
    w.endStatement w.depth =
      { w with scopes := (scope ++ w.pending.flatMap (·.names)) :: outer, pending := [] } := by
  have all : w.pending.filter (fun p => !p.inHeader && p.depth == w.depth) = w.pending :=
    List.filter_eq_self.2 fun p mem => by simp [pending p mem]
  have none : w.pending.filter (fun p => !(!p.inHeader && p.depth == w.depth)) = [] :=
    List.filter_eq_nil_iff.2 fun p mem => by simp [pending p mem]
  unfold Walk.endStatement
  simp only [scopes, List.partition_eq_filter_filter, all]
  simpa [Function.comp_def] using none

theorem Rests.stands {w : Walk} {env : List Text} (h : Rests w env) :
    Stands (w.endStatement w.depth) env := by
  obtain ⟨scope, outer, scopes⟩ := List.exists_cons_of_ne_nil h.scopes
  have knows := h.knows
  rw [endStatement_pending scopes h.pending] at knows ⊢
  exact ⟨by simp, knows, rfl, h.header, h.names⟩

/-- A walk that stands somewhere rests there. -/
theorem Stands.rests {w : Walk} {env : List Text} (h : Stands w env) : Rests w env :=
  ⟨h.scopes, by simp [h.pending], h.header, h.names, by
    rw [Walk.endStatement_of_settled h.pending]
    exact h.knows⟩

/-- The line break in front of a statement ends the statement before. -/
theorem pass_isLine {w : Walk} {env : List Text} (h : Rests w env) {before rest ts : List Token}
    (some : before ≠ []) (line : isLine ts = true) :
    w.pass before rest ts = (w.endStatement w.depth).pass before rest ts := by
  cases ts with
  | nil => simp [isLine] at line
  | cons t ts =>
    have newLine : t.onNewLine = true := by
      rw [isLine, Bool.and_eq_true] at line
      exact line.1
    have broken : w.broken before t = w.endStatement w.depth := by
      rw [Walk.broken, newLine, if_pos (by simp [some])]
    have settled : (w.broken before t).pending = [] := by
      rw [broken]
      exact h.stands.pending
    rw [Walk.pass_cons, Walk.pass_cons, ← Walk.step_broken settled, broken]

/-- Behind a simple statement its names are part of the environment. -/
theorem Stands.waiting {w : Walk} {env : List Text} (h : Stands w env) {pending : List Pending}
    {names : List Text} (own : ∀ p ∈ pending, p.inHeader = false ∧ p.depth = w.depth)
    (same : ∀ name, name ∈ pending.flatMap (·.names) ↔ name ∈ names) :
    Rests (Scoping.waiting w pending) (env ++ names) := by
  refine ⟨h.scopes, own, h.header, h.names, fun name => ?_⟩
  obtain ⟨scope, outer, scopes⟩ := List.exists_cons_of_ne_nil h.scopes
  have knows := h.knows name
  rw [endStatement_pending (w := Scoping.waiting w pending) scopes own]
  rw [Bool.eq_iff_iff] at knows ⊢
  simp only [Walk.binds, Scoping.waiting, h.names, scopes, List.any_cons, List.contains_nil,
    Bool.false_or, Bool.or_eq_true, List.contains_iff_mem, List.mem_append, same] at knows ⊢
  rw [← knows, or_right_comm]

theorem Stands.entering {w : Walk} {env : List Text} (h : Stands w env) {scope names : List Text}
    (same : ∀ name, name ∈ scope ↔ name ∈ names) :
    Stands (Scoping.entering w scope) (env ++ names) := by
  refine ⟨by simp [Scoping.entering], fun name => ?_, h.pending, h.header, h.names⟩
  have knows := h.knows name
  rw [Bool.eq_iff_iff] at knows ⊢
  simp only [Walk.binds, Scoping.entering, h.names, List.any_cons, List.contains_nil, Bool.false_or,
    Bool.or_eq_true, List.contains_iff_mem, List.mem_append, same] at knows ⊢
  rw [← knows, or_comm]

/-- Behind the brace that closes a block nothing of the block is left. -/
theorem step_close {w : Walk} {scope : List Text} {outer : List (List Text)} {t : Token}
    (scopes : w.scopes = scope :: outer) (pending : ∀ p ∈ w.pending, p.depth = w.depth)
    (kind : t.kind = .closing .curly) (before after : List Token) :
    w.step before t after = { w with scopes := outer, pending := [] } := by
  obtain ⟨bodies, used, -, parens, header, names, subset⟩ := w.broken_frame before t
  have outside : (w.broken before t).scopes.tail = outer := by
    obtain ⟨inner, more, broken, size⟩ := @Walk.broken_keeps w before t [] outer scope scopes
    rw [List.length_eq_zero_iff.1 size] at broken
    rw [broken]
    rfl
  have none : (w.broken before t).pending.filter
      (fun p => decide (p.depth.blocks ≤ (w.broken before t).scopes.tail.length)) = [] := by
    rw [List.filter_eq_nil_iff]
    intro p mem
    rw [outside, pending p (subset p mem), Walk.depth, scopes]
    simp
  rw [outside] at none
  rw [Walk.step_eq, Walk.act, kind]
  simp only [Walk.closeBlock, outside, none, bodies, used, parens, header, names]

theorem Code.first {rest : List Token} (c : Code) (back : Apart rest) :
    Apart (c.tokens ++ rest) := by
  cases c with
  | done => exact back
  | simple s line next =>
    rw [Code.tokens, List.append_assoc]
    cases cut : s.tokens with
    | nil => simp [cut, isLine] at line
    | cons t ts =>
      have first := s.first
      rw [cut] at first
      exact first
  | block h brace opens line body close closes next =>
    have keyword : ∀ {keyword : Token} {ts : List Token} {word : String},
        keyword.isWord word = true →
        Apart (keyword :: ts) := fun word => apart_name (Token.kind_of_isWord word)
    cases h with
    | block => exact apart_cons (by simp [opens]) (by simp [opens])
    | loop _ word | cond _ word | condDefine _ word | range _ word | clauses _ word =>
      exact keyword word

/-- The walk with more selectors, and with other names in the innermost block. -/
def resting (w : Walk) (used scope : List Text) (pending : List Pending) : Walk :=
  { w with used := w.used ++ used, scopes := scope :: w.scopes.tail, pending := pending }

/-- The end of the statement before makes no difference behind the block. -/
theorem resting_endStatement {w : Walk} {env : List Text} (rests : Rests w env)
    (used scope : List Text) (pending : List Pending) :
    resting (w.endStatement w.depth) used scope pending = resting w used scope pending := by
  obtain ⟨inner, outer, scopes⟩ := List.exists_cons_of_ne_nil rests.scopes
  rw [endStatement_pending scopes rests.pending]
  simp [resting, scopes]

theorem endStatement_bodies (w : Walk) : (w.endStatement w.depth).bodies = w.bodies :=
  (w.endStatement_frame w.depth).1

theorem endStatement_depth (w : Walk) : (w.endStatement w.depth).depth = w.depth := by
  obtain ⟨-, -, size, parens, -⟩ := w.endStatement_frame w.depth
  change Depth.mk (w.endStatement w.depth).scopes.length (w.endStatement w.depth).parens = w.depth
  rw [size, parens]
  rfl

/-- Over the statements of a block the walk reports what is free in them. -/
theorem pass_code (c : Code) {w : Walk} {env : List Text} (rests : Rests w env)
    {before rest : List Token}
    (bodies : ∀ t ∈ c.tokens, t.kind = .opening .curly → w.bodies.lookup t.start = none)
    (some : before ≠ []) (front : Apart before) (back : Apart rest) :
    ∃ scope pending, (∀ p ∈ pending, p.depth = w.depth) ∧
      w.pass before rest c.tokens = resting w (c.free env) scope pending := by
  induction c generalizing w env before rest with
  | done =>
    obtain ⟨scope, outer, scopes⟩ := List.exists_cons_of_ne_nil rests.scopes
    refine ⟨scope, w.pending, fun p mem => (rests.pending p mem).2, ?_⟩
    cases w
    simp_all [Code.tokens, Code.free, Walk.pass, resting]
  | simple s line next ih =>
    have here := rests.stands
    rw [Code.tokens, List.forall_mem_append] at bodies
    obtain ⟨pending, pass, own, same⟩ := @pass_simple _ env before (next.tokens ++ rest) here s line
      (by rw [endStatement_bodies]; exact bodies.1) front (next.first back)
    have known : ∀ t ∈ next.tokens, t.kind = .opening .curly →
        (waiting ((w.endStatement w.depth).report (s.free env)) pending).bodies.lookup t.start =
          none := by
      change ∀ t ∈ next.tokens, _ → (w.endStatement w.depth).bodies.lookup t.start = none
      rw [endStatement_bodies]
      exact bodies.2
    obtain ⟨scope, pending', own', pass'⟩ :=
      @ih _ _ ((stands_report here (s.free env)).waiting own same)
      (s.tokens.reverse ++ before) rest known (by simp [some]) (s.last.append front) back
    refine ⟨scope, pending', fun p mem => (own' p mem).trans (endStatement_depth w), ?_⟩
    rw [Code.tokens, Walk.pass_append, pass_isLine rests some line, pass, pass',
      ← resting_endStatement rests, Code.free]
    simp [resting, waiting, Walk.report]
  | block h brace opens line body close closes next ihBody ihNext =>
    have here := rests.stands
    have cut : (Code.block h brace opens line body close closes next).tokens =
        (h.tokens ++ [brace]) ++ (body.tokens ++ close :: next.tokens) := by simp [Code.tokens]
    have apart : ∀ {ts : List Token}, Apart (brace :: ts) :=
      fun {ts} => apart_cons (by simp [opens]) (by simp [opens])
    have apart' : ∀ {ts : List Token}, Apart (close :: ts) :=
      fun {ts} => apart_cons (by simp [closes]) (by simp [closes])
    rw [cut] at bodies ⊢
    rw [← endStatement_bodies w] at bodies
    simp only [List.forall_mem_append, List.forall_mem_cons] at bodies
    obtain ⟨⟨-, known, -⟩, inBody, -, behind⟩ := bodies
    obtain ⟨scope, pass, same⟩ := @pass_header _ env here h brace opens line (known opens) before
      (body.tokens ++ close :: next.tokens ++ rest)
    obtain ⟨inner, pending, own, pass'⟩ :=
      @ihBody _ _ ((stands_report here (h.free env)).entering same).rests
      ((h.tokens ++ [brace]).reverse ++ before) (close :: (next.tokens ++ rest)) inBody (by simp)
      (by rw [List.reverse_append]; exact apart) apart'
    have closed :=
      @step_close (resting (entering ((w.endStatement w.depth).report (h.free env)) scope)
        (body.free (env ++ h.names)) inner pending) inner _ close rfl own closes
    have left : { resting (entering ((w.endStatement w.depth).report (h.free env)) scope)
          (body.free (env ++ h.names)) inner pending with
          scopes := (w.endStatement w.depth).scopes, pending := [] } =
        (w.endStatement w.depth).report (h.free env ++ body.free (env ++ h.names)) := by
      simp [resting, entering, Walk.report, here.pending]
    obtain ⟨scope', pending', own', pass''⟩ := @ihNext _ _
      (stands_report here (h.free env ++ body.free (env ++ h.names))).rests
      (close :: (body.tokens.reverse ++ ((h.tokens ++ [brace]).reverse ++ before))) rest behind
        (by simp) apart' back
    refine ⟨scope', pending', fun p mem => (own' p mem).trans (endStatement_depth w), ?_⟩
    rw [Walk.pass_append, pass_isLine rests some line, pass, pass_append_cons, pass', closed]
    refine Eq.trans (congrArg (Walk.pass · _ _ _) left) (pass''.trans ?_)
    rw [← resting_endStatement rests, Code.free]
    simp [resting, Walk.report]

/-! ### Functions -/

theorem bases_concat {closer : Token} (other : closer.kind ≠ .ident) (behindDot : Bool)
    (ts : List Token) :
    bases behindDot (ts ++ [closer]) = bases behindDot ts := by
  induction ts generalizing behindDot with
  | nil => simp [bases, other]
  | cons t ts ih =>
    have same : selects (ts ++ [closer]) = selects ts := by
      rcases ts with - | ⟨u, - | ⟨v, ts⟩⟩
      · simp [selects]
      · simp [selects, other]
      · simp [selects]
    rw [List.cons_append, bases, bases, ih, same]

namespace Function

variable (f : Function)

/-- The tokens between the keyword and the brace. -/
def signature : List Token := f.name :: f.opener :: (f.parameters ++ [f.closer])

theorem declares : Signature.Declares f.signature f.names := by
  have shape := @Signature.Declares.function f.name [] _ [] [] _ [] f.isName .none
    (.list f.enters f.spelled f.leaves) .none
  simpa [signature] using shape

theorem tokens_eq : f.tokens =
    f.keyword :: (f.signature ++ f.brace :: (f.body.tokens ++ [f.close])) := by
  simp [tokens, signature]

theorem signature_plain : ∀ t ∈ f.signature, t.isWord "func" = false ∧
    t.kind ≠ .opening .curly := by
  simp only [signature, List.mem_cons, List.mem_append, List.not_mem_nil, or_false]
  rintro t (rfl | rfl | mem | rfl)
  · exact ⟨Token.isWord_of_isName f.isName (by decide), by simp [Token.kind_of_isName f.isName]⟩
  · simp [Token.isWord, f.enters]
  · exact f.plain t mem
  · simp [Token.isWord, f.leaves]

theorem signature_piece : Piece f.signature where
  inert :=
    fun t mem => isInert_of_isTypeToken (f.declares.tidy.tokens t mem) (f.signature_plain t mem).1
  nested := f.declares.tidy.balances
  semicolons := by
    have nested := f.spelled.tidy.balances
    have inside := sheltered_inside (·.kind == .semicolon) nested 0
    rw [List.length_nil] at inside
    rw [signature, sheltered_plain (Token.isPlain_of_isName f.isName),
      sheltered_group f.enters nested f.leaves, inside]
    simp [Token.kind_of_isName f.isName, f.enters, sheltered]
  first := apart_name (Token.kind_of_isName f.isName)
  last := by
    have cut : f.signature.reverse = f.closer :: (f.parameters.reverse ++ [f.opener, f.name]) := by
      simp [signature]
    rw [cut]
    exact apart_cons (by simp [f.leaves]) (by simp [f.leaves])

theorem signature_bases : bases false f.signature = bases false f.parameters := by
  have apart : Apart (f.opener :: (f.parameters ++ [f.closer])) :=
    apart_cons (by simp [f.enters]) (by simp [f.enters])
  rw [signature, bases_cons (by simp [Token.kind_of_isName f.isName]) apart, bases,
    bases_concat (by simp [f.leaves]), f.enters]
  rfl

/-- Behind the keyword the walk knows the names of the body. -/
def announced : Walk := { Walk.start with bodies := [(f.brace.start, f.names)] }

theorem step_func (after : List Token) :
    Walk.start.step [] f.keyword (f.signature ++ f.brace :: after) = f.announced := by
  rw [Walk.step_of_broken (Walk.broken_of_settled rfl), Walk.act, Token.kind_of_isWord f.func]
  simp only [Walk.word, f.func, if_true, Signature.bindings_eq f.opens f.line f.declares]
  rfl

/-- Over the signature the walk reports the selectors in the types of the parameters. -/
theorem pass_signature (after : List Token) :
    f.announced.pass [f.keyword] (f.brace :: after) f.signature =
      f.announced.report (bases false f.parameters) := by
  have knows : Knows f.announced [] := fun name => rfl
  have plain := fun t mem => (f.signature_plain t mem).2
  rw [pass_piece f.signature_piece knows (by simp [announced, Walk.start]) (.inr rfl) (.inl rfl)
    (fun t mem curly => absurd curly (plain t mem)) (apart_name (Token.kind_of_isWord f.func))
    (apart_cons (by simp [f.opens]) (by simp [f.opens])), signature_bases]
  simp [unbound]

/-- The brace opens a block that binds the names of the signature. -/
theorem step_brace (used : List Text) (before after : List Token) :
    (f.announced.report used).step before f.brace after =
      entering (f.announced.report used) f.names := by
  rw [Walk.step_of_broken (Walk.broken_of_sameLine f.line), Walk.act, f.opens]
  simp [Walk.openBlock, announced, Walk.report, Walk.start, entering]

theorem stands_body (used : List Text) :
    Stands (entering (f.announced.report used) f.names) f.names :=
  ⟨by simp [entering],
    fun name => by simp [Walk.binds, entering, Walk.report, announced, Walk.start],
    rfl, rfl, rfl⟩

/-- The walk reports exactly the bases of selectors that are bound nowhere around. -/
theorem packageSelectors_eq_free {src : Text} {ts us : List Token} {f : Function}
    (read : Token.tokenize src = .ok ts) (part : us.Sublist ts)
    (code : Token.withoutComments us = f.tokens) :
    packageSelectors f.tokens = f.free := by
  have distinct := SourceFile.nodup_starts read part
  rw [code, tokens_eq, List.map_cons, List.nodup_cons, List.map_append, List.nodup_append,
    List.map_cons, List.nodup_cons] at distinct
  have bodies : ∀ t ∈ f.body.tokens, t.kind = .opening .curly →
      [(f.brace.start, f.names)].lookup t.start = none := by
    intro t mem _
    have other : t.start ≠ f.brace.start := by
      intro same
      exact distinct.2.2.1.1 (same ▸ List.mem_map_of_mem (List.mem_append_left _ mem))
    rw [List.lookup_cons, beq_eq_false_iff_ne.2 other]
    rfl
  obtain ⟨scope, pending, own, body⟩ :=
    @pass_code f.body _ _ (f.stands_body (bases false f.parameters)).rests
    (f.brace :: (f.signature.reverse ++ [f.keyword])) [f.close] bodies (by simp)
    (apart_cons (by simp [f.opens]) (by simp [f.opens]))
      (apart_cons (by simp [f.closes]) (by simp [f.closes]))
  have run := Walk.run_append Walk.start [] [] f.tokens
  rw [List.append_nil] at run
  rw [packageSelectors, run, Walk.run, tokens_eq, Walk.pass_cons, List.append_nil, step_func,
    pass_append_cons, List.append_nil, pass_signature, step_brace, pass_append_cons,
    List.append_nil, body, step_close rfl own f.closes]
  rfl

/-- A selector `x.Sel` by itself. -/
def selector (x sel : Token) (dot : Token) (first : x.isName = true) (last : sel.isName = true)
    (kind : dot.kind = .dot) : Expr where
  tokens := [x, dot, sel]
  nonempty := by simp
  operands := by
    have operand : ∀ {t : Token}, t.isName = true → isOperand t = true := by
      intro t name
      simpa [isOperand, Token.isName, Token.kind_of_isName name] using name
    have middle : isOperand dot = true := by simp [isOperand, kind]
    simp [operand first, operand last, middle]
  nested := by
    rw [balances_plain (Token.isPlain_of_isName first),
      balances_plain (by simp [Token.isPlain, kind]), balances_plain (Token.isPlain_of_isName last)]
    rfl
  first := apart_name (Token.kind_of_isName first)
  last := apart_name (Token.kind_of_isName last)

/-- A function with a name in the header of a condition. -/
def bindsInHeader : Function where
  keyword := ⟨.ident, [], "func".toList, 0⟩
  name := ⟨.ident, [' '], ['F'], 5⟩
  opener := ⟨.opening .paren, [], ['('], 6⟩
  parameters := []
  names := []
  closer := ⟨.closing .paren, [], [')'], 7⟩
  brace := ⟨.opening .curly, [' '], ['{'], 9⟩
  body := .block
    (.condDefine ⟨.ident, "\n\t".toList, "if".toList, 12⟩ rfl
      ⟨[⟨.ident, [' '], ['y'], 15⟩], [['y']], ⟨.op, [' '], [':'], 17⟩, ⟨.op, [], ['='], 18⟩,
        .one (by decide), rfl, by decide⟩
      (selector ⟨.ident, [' '], ['q'], 20⟩ ⟨.ident, [], ['A'], 22⟩ ⟨.dot, [], ['.'], 21⟩
        (by decide) (by decide) rfl)
      ⟨.semicolon, [], [';'], 23⟩ rfl
      (selector ⟨.ident, [' '], ['y'], 25⟩ ⟨.ident, [], ['B'], 27⟩ ⟨.dot, [], ['.'], 26⟩
        (by decide) (by decide) rfl))
    ⟨.opening .curly, [' '], ['{'], 29⟩ rfl (by decide)
    (.simple (.expr (selector ⟨.ident, "\n\t\t".toList, ['y'], 33⟩ ⟨.ident, [], ['C'], 35⟩
      ⟨.dot, [], ['.'], 34⟩ (by decide) (by decide) rfl)) (by decide) .done)
    ⟨.closing .curly, "\n\t".toList, ['}'], 38⟩ rfl .done
  close := ⟨.closing .curly, ['\n'], ['}'], 40⟩
  func := by decide
  isName := by decide
  enters := rfl
  spelled := .none
  plain := by simp
  leaves := rfl
  opens := rfl
  line := by decide
  closes := rfl

theorem bindsInHeader_selectors : packageSelectors bindsInHeader.tokens = [['q']] := by
  have read :
      Token.tokenize "func F() \x7b\n\tif y := q.A; y.B \x7b\n\t\ty.C\n\t\x7d\n\x7d".toList =
        .ok bindsInHeader.tokens := by
    rw [String.toList_ofList]
    decide +kernel
  have code : Token.withoutComments bindsInHeader.tokens = bindsInHeader.tokens := by decide +kernel
  rw [packageSelectors_eq_free read (List.Sublist.refl _) code]
  decide +kernel

end Function

end GoSplit.Selector.Scoping
