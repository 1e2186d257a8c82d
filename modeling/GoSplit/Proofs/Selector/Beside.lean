import GoSplit.Proofs.Selector.Forms

/-!
The walk over one declaration among others. Beside a walk over the declaration alone, the
walk over the whole file knows other selectors and other bodies; it takes the same steps as
long as it reads the same ahead and the same back, and knows the same bodies.
-/

namespace GoSplit.Selector

/-- The keywords with a header in front of their block. -/
def isHeader (t : Token) : Bool :=
  t.isWord "if" || t.isWord "for" || t.isWord "switch" || t.isWord "select"

namespace Depth

/-- The depth behind a token. -/
def after (d : Depth) (t : Token) : Depth :=
  match t.kind with
  | .opening .curly => { d with blocks := d.blocks + 1 }
  | .closing .curly => { d with blocks := d.blocks - 1 }
  | .opening _ => { d with parens := d.parens + 1 }
  | .closing _ => { d with parens := d.parens - 1 }
  | _ => d

end Depth

/-- From depth `d` on, a brace opens a block at depth `target` before the block that holds
this depth ends. -/
def opensAt (target d : Depth) : List Token → Bool
  | [] => false
  | t :: ts =>
    (t.kind == .opening .curly && d == target) ||
      (decide (target.blocks ≤ (d.after t).blocks) && opensAt target (d.after t) ts)

/-- From depth `d` on, every `:=` and every header stands in a block, and a header is followed
by its own block before the block around it ends. -/
def bindsInBlocks (d : Depth) : List Token → Bool
  | [] => true
  | t :: ts =>
    (!(isHeader t || isDefine t ts) || decide (0 < d.blocks)) &&
      (!isHeader t || opensAt d (d.after t) ts) && bindsInBlocks (d.after t) ts

namespace Walk

/-- The walk with the selectors `used` in front of its own, and with other bodies. -/
def beside (used : List Text) (bodies : List (Nat × List Text)) (w : Walk) : Walk :=
  { w with used := used ++ w.used, bodies := bodies }

/-- The bodies known behind a token. -/
def learn (bodies : List (Nat × List Text)) (t : Token) (after : List Token) :
    List (Nat × List Text) :=
  if t.isWord "func" then (Signature.bindings after).toList ++ bodies else bodies

section

variable (used : List Text) (bodies : List (Nat × List Text)) (w : Walk) (d : Depth)

@[simp] theorem beside_scopes : (w.beside used bodies).scopes = w.scopes := rfl

@[simp] theorem beside_header : (w.beside used bodies).header = w.header := rfl

@[simp] theorem beside_depth : (w.beside used bodies).depth = w.depth := rfl

@[simp] theorem beside_binds (name : Text) : (w.beside used bodies).binds name = w.binds name := rfl

theorem endStatement_beside :
    (w.beside used bodies).endStatement d = (w.endStatement d).beside used bodies := by
  unfold endStatement
  cases scopes : w.scopes <;> simp [beside, scopes]

variable {w d} in
theorem semicolon_header (h : w.header = some d) :
    w.semicolon d = { (w.takeHeader d).2 with
      headerNames := w.headerNames ++ (w.takeHeader d).1 }.endStatement d := by
  rw [semicolon, if_pos (beq_iff_eq.2 h)]
  rfl

variable {w d} in
theorem semicolon_other (h : w.header ≠ some d) : w.semicolon d = w.endStatement d := by
  rw [semicolon, if_neg (by simpa using h)]

theorem semicolon_beside :
    (w.beside used bodies).semicolon d = (w.semicolon d).beside used bodies := by
  by_cases header : w.header = some d
  · have header' : (w.beside used bodies).header = some d := header
    rw [semicolon_header header, semicolon_header header', ← endStatement_beside]
    rfl
  · have header' : (w.beside used bodies).header ≠ some d := header
    rw [semicolon_other header, semicolon_other header', endStatement_beside]

variable {w d} in
theorem openBlock_header (h : w.header = some d) (brace : Token) :
    w.openBlock d brace = { (w.takeHeader d).2 with
      scopes := ((w.bodies.lookup brace.start).getD [] ++ (w.takeHeader d).1 ++ w.headerNames) ::
        w.scopes
      header := none
      headerNames := [] } := by
  rw [openBlock, if_pos (beq_iff_eq.2 h)]
  rfl

variable {w d} in
theorem openBlock_other (h : w.header ≠ some d) (brace : Token) :
    w.openBlock d brace =
      { w with scopes := (w.bodies.lookup brace.start).getD [] :: w.scopes } := by
  rw [openBlock, if_neg (by simpa using h)]

theorem openBlock_beside {brace : Token}
    (same : bodies.lookup brace.start = w.bodies.lookup brace.start) :
    (w.beside used bodies).openBlock d brace = (w.openBlock d brace).beside used bodies := by
  have names : (w.beside used bodies).bodies.lookup brace.start =
      w.bodies.lookup brace.start := same
  by_cases header : w.header = some d
  · have header' : (w.beside used bodies).header = some d := header
    rw [openBlock_header header, openBlock_header header', names]
    rfl
  · have header' : (w.beside used bodies).header ≠ some d := header
    rw [openBlock_other header, openBlock_other header', names]
    rfl

theorem word_beside {before before' after after' : List Token} {t : Token}
    (base : isBase before after = isBase before' after')
    (statement : w.scopes ≠ [] → statementNames after = statementNames after') :
    (w.beside used bodies).word d before t after =
      (w.word d before' t after').beside used (learn bodies t after) := by
  unfold word learn
  by_cases func : t.isWord "func" = true
  · rw [if_pos func, if_pos func, if_pos func]
    cases Signature.bindings after <;> cases Signature.bindings after' <;> rfl
  · rw [if_neg func, if_neg func, if_neg func]
    split
    · rfl
    · simp only [beside_scopes, beside_binds, base]
      split
      · next inside =>
        have open' : w.scopes ≠ [] := by
          simp only [Bool.and_eq_true, Bool.not_eq_true', List.isEmpty_eq_false_iff] at inside
          exact inside.2
        rw [statement open']
        rfl
      · split
        · simp [beside]
        · rfl

end

theorem endStatement_nil {w : Walk} (h : w.scopes = []) (d : Depth) : w.endStatement d = w := by
  simp [endStatement, h]

/-- The walk once the line break in front of the token, if any, has ended its statements. -/
def broken (w : Walk) (before : List Token) (t : Token) : Walk :=
  if !before.isEmpty && t.onNewLine then w.endStatement w.depth else w

/-- What a token does at depth `d`. -/
def act (w : Walk) (d : Depth) (before : List Token) (t : Token) (after : List Token) : Walk :=
  match t.kind with
  | .opening .curly => w.openBlock d t
  | .closing .curly => w.closeBlock
  | .opening _ => { w with parens := w.parens + 1 }
  | .closing _ => { w with parens := w.parens - 1 }
  | .semicolon => w.semicolon d
  | .ident => w.word d before t after
  | .op =>
    if isDefine t after then
      { w with pending := w.pending ++ [⟨nameList before, d, w.header == some d⟩] }
    else w
  | _ => w

theorem step_eq (w : Walk) (before : List Token) (t : Token) (after : List Token) :
    w.step before t after = (w.broken before t).act w.depth before t after := rfl

section

variable (w : Walk) (before : List Token) (t : Token)

/-- A line break ends statements, and does nothing else. -/
theorem endStatement_frame (d : Depth) :
    (w.endStatement d).bodies = w.bodies ∧ (w.endStatement d).used = w.used ∧
      (w.endStatement d).scopes.length = w.scopes.length ∧ (w.endStatement d).parens = w.parens ∧
      (w.endStatement d).header = w.header ∧ (w.endStatement d).headerNames = w.headerNames ∧
      ∀ p ∈ (w.endStatement d).pending, p ∈ w.pending := by
  unfold endStatement
  split
  · exact ⟨rfl, rfl, rfl, rfl, rfl, rfl, fun p mem => mem⟩
  · next scope outer scopes =>
    refine ⟨rfl, rfl, by simp [scopes], rfl, rfl, rfl, fun p mem => ?_⟩
    simp only [List.partition_eq_filter_filter] at mem
    exact (List.mem_filter.1 mem).1

theorem broken_frame :
    (w.broken before t).bodies = w.bodies ∧ (w.broken before t).used = w.used ∧
      (w.broken before t).scopes.length = w.scopes.length ∧ (w.broken before t).parens = w.parens ∧
      (w.broken before t).header = w.header ∧ (w.broken before t).headerNames = w.headerNames ∧
      ∀ p ∈ (w.broken before t).pending, p ∈ w.pending := by
  unfold broken
  split
  · exact endStatement_frame w w.depth
  · exact ⟨rfl, rfl, rfl, rfl, rfl, rfl, fun p mem => mem⟩

theorem broken_nil (h : w.scopes = []) : w.broken before t = w := by
  rw [broken, endStatement_nil h, ite_self]

end

/-- A line break ends the same statements on both sides. -/
theorem broken_beside (used : List Text) (bodies : List (Nat × List Text)) {w : Walk}
    {before before' : List Token} {t : Token}
    (line : before.isEmpty = before'.isEmpty ∨ w.scopes = []) :
    (w.beside used bodies).broken before t = (w.broken before' t).beside used bodies := by
  rcases line with same | none
  · rw [broken, broken, same, beside_depth, endStatement_beside]
    split <;> rfl
  · rw [broken_nil w before' t none]
    exact broken_nil _ _ _ none

/-- One step, beside the same step of the walk over the declaration alone. -/
theorem step_beside (used : List Text) {bodies : List (Nat × List Text)} {w : Walk}
    {before before' after after' : List Token} {t : Token}
    (line : before.isEmpty = before'.isEmpty ∨ w.scopes = [])
    (base : t.kind = .ident → isBase before after = isBase before' after')
    (define : isDefine t after = isDefine t after')
    (names : isDefine t after' = true → nameList before = nameList before')
    (statement : t.kind = .ident → w.scopes ≠ [] → statementNames after = statementNames after')
    (same : t.kind = .opening .curly → bodies.lookup t.start = w.bodies.lookup t.start) :
    (w.beside used bodies).step before t after =
      (w.step before' t after').beside used (learn bodies t after) := by
  have kept : t.kind ≠ .ident → learn bodies t after = bodies := by
    intro other
    simp [learn, Token.isWord, other]
  obtain ⟨known, -, size, -⟩ := broken_frame w before' t
  rw [step_eq, step_eq, beside_depth, broken_beside used bodies line]
  generalize w.broken before' t = v at known size
  unfold act
  cases kind : t.kind with
  | opening b =>
    rw [kept (by simp [kind])]
    cases b with
    | curly =>
      apply openBlock_beside
      rw [known, same kind]
    | _ => rfl
  | closing b =>
    rw [kept (by simp [kind])]
    cases b <;> rfl
  | semicolon =>
    rw [kept (by simp [kind])]
    apply semicolon_beside
  | ident =>
    apply word_beside _ _ _ _ (base kind)
    intro some
    apply statement kind
    intro none
    rw [none] at size
    exact some (List.length_eq_zero_iff.1 size)
  | op =>
    rw [kept (by simp [kind])]
    simp only [define]
    split
    · next defines =>
      rw [names defines]
      rfl
    · rfl
  | _ => rw [kept (by simp [kind])]

end Walk

end GoSplit.Selector
