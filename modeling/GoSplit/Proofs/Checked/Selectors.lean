import GoSplit.Proofs.Checked.Signatures
import GoSplit.Proofs.Selector.Moved

/-!
The walk for package names, by index: the code is read without its comments, and the bodies of
functions are kept by the index of their brace. On the tokens of a text, numbered, it does what the
walk over tokens does, step by step; and numbers serve as well as offsets.
-/

namespace GoSplit.Checked.Reading

open Selector (Walk Depth nameList groupedNames statementNames)

variable {ε : Type}

/-! ### Names that a statement declares -/

/-- A turn of going back over names with commas between them, which end in front of an index. -/
def leftTurn (r : Reading) (s : Nat × List Text) :
    Checked ε (Turn (Nat × List Text) (List Text)) := do
  if s.1 = 0 then return .finished s.2
  else
    let name ← r.token (← minus s.1 1)
    if name.kind == .ident then
      if 2 ≤ s.1 then
        let comma ← r.token (← minus s.1 2)
        if comma.kind == .comma then return .again (← minus s.1 2, s.2 ++ [name.text])
        else return .finished (s.2 ++ [name.text])
      else return .finished (s.2 ++ [name.text])
    else return .finished s.2

/-- The names on the left of a definition. -/
def definedNames (r : Reading) (k : Nat) : Checked ε (List Text) :=
  loop r.leftTurn (r.size + 1) (k, [])

def rightTurn (r : Reading) (s : Nat × List Text) :
    Checked ε (Turn (Nat × List Text) (List Text)) := do
  if r.isKind s.1 .ident then
    let name ← r.token s.1
    if r.isKind (s.1 + 1) .comma then return .again (s.1 + 2, s.2 ++ [name.text])
    else return .finished (s.2 ++ [name.text])
  else return .finished s.2

/-- The names with commas between them from an index on. -/
def listedNames (r : Reading) (i : Nat) : Checked ε (List Text) :=
  loop r.rightTurn (r.size + 1) (i, [])

/-- Whether the line break in front of the token at an index starts an entry of a group. -/
def startsEntry (r : Reading) (opening depth i : Nat) : Checked ε Bool :=
  if opening < i ∧ depth = 1 then r.newlineBefore i else pure false

/-- The names of the entries of a group that opens at an index, from the `i`th token on. -/
def entryNames (r : Reading) (opening depth : Nat) (atStart : Bool) (i : Nat) (names : List Text) :
    List Token.Kind → Checked ε (List Text)
  | [] => pure names
  | kind :: kinds => do
    let starts := atStart || (← r.startsEntry opening depth i)
    match kind with
    | .opening _ => r.entryNames opening (depth + 1) starts (i + 1) names kinds
    | .closing _ =>
      if depth - 1 = 0 then return names
        else r.entryNames opening (depth - 1) starts (i + 1) names kinds
    | .semicolon => r.entryNames opening depth (depth == 1) (i + 1) names kinds
    | .ident =>
      if starts && depth == 1 then do
        r.entryNames opening depth false (i + 1) (names ++ (← r.listedNames i)) kinds
      else r.entryNames opening depth false (i + 1) names kinds
    | _ => r.entryNames opening depth false (i + 1) names kinds

/-- The names that the statement with its keyword at an index declares. -/
def statementNames (r : Reading) (k : Nat) : Checked ε (List Text) :=
  if r.isKind (k + 1) (.opening .paren)
    then r.entryNames (k + 1) 0 true (k + 1) [] (r.kinds.drop (k + 1))
  else r.listedNames (k + 1)

/-! ### The walk -/

/-- Whether the token at an index and the one behind it make the operator of a definition. -/
def defines (r : Reading) (k : Nat) : Checked ε Bool := do
  match ← r.token? k with
  | none => return false
  | some colon =>
    match ← r.token? (k + 1) with
    | none => return false
    | some equals =>
      return colon.text == [':'] && equals.kind == .op && equals.text == ['='] && colon.stop ==
        equals.start

/-- Whether the name at an index is selected from. -/
def isBase (r : Reading) (k : Nat) : Checked ε Bool :=
  if r.isKind (k + 1) .dot && r.isKind (k + 2) .ident then
    if k = 0 then pure true else do return (← r.token (← minus k 1)).kind != .dot
  else pure false

def word (r : Reading) (w : Walk) (d : Depth) (k : Nat) : Checked ε Walk := do
  let t ← r.token k
  if t.isWord "func" then
    match ← r.bindings k with
    | some body => return { w with bodies := body :: w.bodies }
    | none => return w
  else if t.isWord "if" || t.isWord "for" || t.isWord "switch" || t.isWord "select" then
    return { w with header := some d, headerNames := [] }
  else if (t.isWord "var" || t.isWord "const") && !w.scopes.isEmpty then
    return { w with pending := w.pending ++ [⟨← r.statementNames k, d, false⟩] }
  else if (← r.isBase k) && !w.binds t.text then return { w with used := w.used ++ [t.text] }
  else return w

/-- What a line break in front of the token at an index does. -/
def breakLine (r : Reading) (w : Walk) (k : Nat) : Checked ε Walk := do
  if k = 0 then return w
  else if ← r.newlineBefore k then return w.endStatement w.depth
  else return w

/-- The token of a kind at an index. -/
def step (r : Reading) (w : Walk) (k : Nat) (kind : Token.Kind) : Checked ε Walk := do
  let d := w.depth
  let w ← r.breakLine w k
  match kind with
  | .opening .curly => return w.openBlock d ⟨kind, [], [], k⟩
  | .closing .curly => return w.closeBlock
  | .opening _ => return { w with parens := w.parens + 1 }
  | .closing _ => return { w with parens := w.parens - 1 }
  | .semicolon => return w.semicolon d
  | .ident => r.word w d k
  | .op =>
    if ← r.defines k then
      return { w with pending := w.pending ++ [⟨← r.definedNames k, d, w.header == some d⟩] }
    else return w
  | _ => return w

def walk (r : Reading) (w : Walk) (k : Nat) : List Token.Kind → Checked ε Walk
  | [] => pure w
  | kind :: kinds => do r.walk (← r.step w k kind) (k + 1) kinds

/-- The names used as `x.Sel` where nothing binds `x`. -/
def selectors (r : Reading) : Checked ε (List Text) := do
  return (← r.walk .start 0 r.kinds).used

/-! ### Steps on numbered tokens -/

namespace Numbered

variable {r : Reading} {code before us : List Token} {t : Token}

theorem token_eq (h : Numbered r code) {front rest : List Token} (cut : code = front ++ t :: rest) :
    ∃ start, ∀ ε, (r.token front.length : Checked ε Token) = pure ⟨t.kind, [], t.text, start⟩ := by
  have counts := h.counts
  rw [cut] at counts
  obtain ⟨start, read⟩ := h.read t (by simp [cut])
  rw [counts.start, Nat.zero_add] at read
  exact ⟨start, read⟩

theorem size_eq (h : Numbered r code) : r.size = code.length := by
  have same := congrArg List.length h.kinds
  rwa [Reading.kinds, List.length_map, List.length_map] at same

/-- A token in front of an index. -/
theorem token_before (h : Numbered r code) {rest : List Token}
    (cut : code = (t :: rest).reverse ++ us) (n : Nat) :
    ∃ start, ∀ ε, (minus (rest.length + n) n >>= r.token : Checked ε Token) =
      pure ⟨t.kind, [], t.text, start⟩ := by
  obtain ⟨start, read⟩ := @token_eq r code t h rest.reverse us (by simp [cut])
  rw [List.length_reverse] at read
  refine ⟨start, fun ε => ?_⟩
  rw [minus_of_le (Nat.le_add_left n _), pure_bind, Nat.add_sub_cancel, read]

section

variable {rest : List Token} (h : Numbered r code) (names : List Text)
include h

theorem leftTurn_other (cut : code = (t :: rest).reverse ++ us) (other : t.kind ≠ .ident) :
    (r.leftTurn (rest.length + 1, names) : Checked ε _) = pure (.finished names) := by
  obtain ⟨start, read⟩ := h.token_before cut 1
  rw [leftTurn, if_neg (Nat.succ_ne_zero _), ← bind_assoc, read, pure_bind,
    if_neg (by simpa using other)]

theorem leftTurn_name (cut : code = (t :: rest).reverse ++ us) (name : t.kind = .ident) :
    (r.leftTurn (rest.length + 1, names) : Checked ε _) =
      if 2 ≤ rest.length + 1 then do
        let comma ← r.token (← minus (rest.length + 1) 2)
        if comma.kind == .comma then return .again (← minus (rest.length + 1) 2, names ++ [t.text])
        else return .finished (names ++ [t.text])
      else return .finished (names ++ [t.text]) := by
  obtain ⟨start, read⟩ := h.token_before cut 1
  rw [leftTurn, if_neg (Nat.succ_ne_zero _), ← bind_assoc, read, pure_bind,
    if_pos (beq_iff_eq.2 name)]

theorem leftTurn_pair {next : Token} (cut : code = (t :: next :: rest).reverse ++ us)
    (name : t.kind = .ident) :
    (r.leftTurn ((t :: next :: rest).length, names) : Checked ε _) =
      pure (if next.kind == .comma then .again (rest.length, names ++ [t.text])
        else .finished (names ++ [t.text])) := by
  obtain ⟨start, read⟩ := @token_before r code (t :: us) next h rest (by simp [cut]) 2
  rw [List.length_cons, h.leftTurn_name names cut name, List.length_cons, if_pos (by omega),
    ← bind_assoc, read, pure_bind, minus_of_le (by omega), pure_bind]
  cases next.kind == .comma <;> rfl

end

theorem leftNames_eq (h : Numbered r code) (cut : code = before.reverse ++ us) (names : List Text)
    {turns : Nat} (enough : before.length < turns) :
    (loop r.leftTurn turns (before.length, names) : Checked ε _) =
      pure (names ++ nameList before) := by
  obtain ⟨turns, rfl⟩ : ∃ n, turns = n + 1 := ⟨turns - 1, by omega⟩
  induction before using Selector.nameList.induct generalizing us names turns with
  | case1 =>
    have done : (r.leftTurn (0, names) : Checked ε _) = pure (.finished names) := rfl
    simpa [nameList] using loop_finished done turns
  | case2 t name =>
    simpa [nameList, name] using loop_finished (h.leftTurn_name names cut (beq_iff_eq.1 name)) turns
  | case3 t other =>
    simpa [nameList, other] using loop_finished
      (h.leftTurn_other names cut (by simpa using other)) turns
  | case4 t next rest name ih =>
    have turn := @leftTurn_pair ε r code us t rest h names next cut (beq_iff_eq.1 name)
    by_cases comma : next.kind = .comma
    · obtain ⟨turns, rfl⟩ : ∃ n, turns = n + 1 :=
        ⟨turns - 1, by rw [List.length_cons] at enough; omega⟩
      have others := @ih (next :: t :: us) (by simp [cut]) (names ++ [t.text]) turns
        (by rw [List.length_cons, List.length_cons] at enough; omega)
      rw [if_pos (beq_iff_eq.2 comma)] at turn
      rw [loop_again turn, others]
      simp [nameList, name, comma]
    · rw [if_neg (by simpa using comma)] at turn
      rw [loop_finished turn]
      simp [nameList, name, comma]
  | case5 t next rest other =>
    simpa [nameList, other] using loop_finished
      (h.leftTurn_other names cut (by simpa using other)) turns

/-- The names on the left of the token behind these. -/
theorem definedNames_eq (h : Numbered r code) (cut : code = before.reverse ++ us) :
    (r.definedNames before.length : Checked ε _) = pure (nameList before) := by
  have names := @leftNames_eq ε r code before us h cut [] (r.size + 1) (by
    rw [h.size_eq, cut, List.length_append, List.length_reverse]
    omega)
  exact names

theorem kind_here (h : Numbered r code) {front : List Token} (cut : code = front ++ us)
    (kind : Token.Kind) :
    r.isKind front.length kind = us.head?.any fun t => t.kind == kind := by
  have here := h.isKind_eq cut 0 kind
  rwa [Nat.add_zero, ← List.head?_eq_getElem?] at here

theorem kind_next (h : Numbered r code) {front : List Token} (cut : code = front ++ t :: us)
    (kind : Token.Kind) :
    r.isKind (front.length + 1) kind = us.head?.any fun t => t.kind == kind := by
  have next := h.isKind_eq cut 1 kind
  rwa [List.getElem?_cons_succ, ← List.head?_eq_getElem?] at next

theorem rightTurn_name (h : Numbered r code) {front : List Token} (cut : code = front ++ t :: us)
    (name : t.kind = .ident) (names : List Text) :
    (r.rightTurn (front.length, names) : Checked ε _) =
      pure (if us.head?.any fun t => t.kind == .comma
        then .again (front.length + 2, names ++ [t.text])
        else .finished (names ++ [t.text])) := by
  obtain ⟨start, read⟩ := h.token_eq cut
  have here : ((t :: us).head?.any fun t => t.kind == .ident) = true := beq_iff_eq.2 name
  rw [rightTurn]
  dsimp only
  rw [h.kind_here cut, if_pos here, read, pure_bind, h.kind_next cut]
  split <;> rfl

theorem rightTurn_other (h : Numbered r code) {front : List Token} (cut : code = front ++ us)
    (other : ∀ t ∈ us.head?, t.kind ≠ .ident) (names : List Text) :
    (r.rightTurn (front.length, names) : Checked ε _) = pure (.finished names) := by
  have here : ¬ (us.head?.any fun t => t.kind == .ident) = true := by
    cases us with
    | nil => exact Bool.false_ne_true
    | cons t us => simpa using other
  rw [rightTurn]
  dsimp only
  rw [h.kind_here cut, if_neg here]

theorem rightNames_eq (h : Numbered r code) {front : List Token} (cut : code = front ++ us)
    (names : List Text) {turns : Nat} (enough : us.length < turns) :
    (loop r.rightTurn turns (front.length, names) : Checked ε _) = pure (names ++ nameList us) := by
  obtain ⟨turns, rfl⟩ : ∃ n, turns = n + 1 := ⟨turns - 1, by omega⟩
  induction us using Selector.nameList.induct generalizing front names turns with
  | case1 =>
    rw [loop_finished (h.rightTurn_other cut (by simp) names)]
    simp [nameList]
  | case2 t name =>
    rw [loop_finished (h.rightTurn_name cut (beq_iff_eq.1 name) names)]
    simp [nameList, name]
  | case3 t other =>
    rw [loop_finished (h.rightTurn_other cut (by simpa using other) names)]
    simp [nameList, other]
  | case4 t next rest name ih =>
    have turn := @rightTurn_name ε r code (next :: rest) t h front cut (beq_iff_eq.1 name) names
    rw [List.head?_cons, Option.any_some] at turn
    by_cases comma : next.kind = .comma
    · obtain ⟨turns, rfl⟩ : ∃ n, turns = n + 1 :=
        ⟨turns - 1, by rw [List.length_cons] at enough; omega⟩
      have others := @ih (front ++ [t, next]) (by simp [cut]) (names ++ [t.text]) turns
        (by rw [List.length_cons, List.length_cons] at enough; omega)
      rw [List.length_append] at others
      rw [if_pos (beq_iff_eq.2 comma)] at turn
      rw [loop_again turn]
      refine others.trans ?_
      simp [nameList, name, comma]
    · rw [if_neg (by simpa using comma)] at turn
      rw [loop_finished turn]
      simp [nameList, name, comma]
  | case5 t next rest other =>
    rw [loop_finished (h.rightTurn_other cut (by simpa using other) names)]
    simp [nameList, other]

theorem listedNames_eq (h : Numbered r code) {front : List Token} (cut : code = front ++ us) :
    (r.listedNames front.length : Checked ε _) = pure (nameList us) := by
  have names := @rightNames_eq ε r code us h front cut [] (r.size + 1) (by
    rw [h.size_eq, cut, List.length_append]
    omega)
  exact names

theorem startsEntry_eq (h : Numbered r code) {front rest : List Token} {p : Token}
    (cut : code = front ++ p :: t :: rest) {opening : Nat} (behind : opening ≤ front.length)
    (inner : Nat) :
    (r.startsEntry opening (inner + 1) (front.length + 1) : Checked ε Bool) =
      pure (inner == 0 && t.onNewLine) := by
  cases inner with
  | zero =>
    rw [startsEntry, if_pos ⟨Nat.lt_succ_of_le behind, rfl⟩]
    exact h.line front p t rest cut ε
  | succ outer =>
    rw [startsEntry, if_neg fun both => Nat.succ_ne_zero outer (Nat.succ.inj both.2)]; rfl

theorem entryNames_eq (h : Numbered r code) {front : List Token} {p : Token}
    (cut : code = front ++ p :: us) {opening : Nat} (behind : opening ≤ front.length) (inner : Nat)
    (atStart : Bool) (names : List Text) :
    (r.entryNames opening (inner + 1) atStart (front.length + 1) names
      (us.map (·.kind)) : Checked ε _) =
      pure (names ++ groupedNames inner atStart us) := by
  induction us generalizing front p inner atStart names with
  | nil => simp [Reading.entryNames, groupedNames]
  | cons t us ih =>
    have next : ∀ d starts names, (r.entryNames opening (d + 1) starts (front.length + 1 + 1) names
        (us.map (·.kind)) : Checked ε _) = pure (names ++ groupedNames d starts us) := by
      intro d starts names
      have inner := @ih (front ++ [p]) t (by simp [cut]) (by simpa using Nat.le_succ_of_le behind) d
        starts names
      rwa [List.length_append, List.length_singleton] at inner
    have listed := @listedNames_eq ε r code (t :: us) h (front ++ [p]) (by simp [cut])
    rw [List.length_append, List.length_singleton] at listed
    rw [List.map_cons, Reading.entryNames.eq_def]
    dsimp only
    have outside : (inner + 1 == 1) = (inner == 0) := by cases inner <;> rfl
    rw [h.startsEntry_eq cut behind, pure_bind, groupedNames.eq_def]
    dsimp only
    rw [outside]
    cases kind : t.kind with
    | closing bracket =>
      cases inner with
      | zero => simp
      | succ outer => exact next outer _ names
    | ident =>
      dsimp only
      by_cases start : ((atStart || (inner == 0 && t.onNewLine)) && inner == 0) = true
      · rw [if_pos start, if_pos start, listed, pure_bind, next, List.append_assoc]
      · rw [if_neg start, if_neg start, next]
    | semicolon => exact next inner (inner == 0) names
    | _ => exact next _ _ names

theorem statementNames_eq (h : Numbered r code) {front : List Token}
    (cut : code = front ++ t :: us) :
    (r.statementNames front.length : Checked ε _) = pure (Selector.statementNames us) := by
  have cut' : code = (front ++ [t]) ++ us := by simp [cut]
  have listed := @listedNames_eq ε r code us h (front ++ [t]) cut'
  rw [List.length_append, List.length_singleton] at listed
  rw [Reading.statementNames, h.kind_next cut]
  cases us with
  | nil => exact listed
  | cons p us =>
    rw [List.head?_cons, Option.any_some, Selector.statementNames]
    by_cases group : p.kind = .opening .paren
    · have ahead : r.kinds.drop (front.length + 1) = .opening .paren :: us.map (·.kind) := by
        rw [h.kinds, cut', List.map_append, List.drop_left' (by simp), List.map_cons, group]
      have names := @entryNames_eq ε r code us h (front ++ [t]) p cut' (front.length + 1) (by simp)
        0 true []
      rw [List.length_append, List.length_singleton] at names
      have first : (r.startsEntry (front.length + 1) 0 (front.length + 1) : Checked ε Bool) =
          pure false :=
        if_neg fun both => Nat.lt_irrefl _ both.1
      rw [if_pos (beq_iff_eq.2 group), if_pos group, ahead, Reading.entryNames.eq_def]
      dsimp only
      rw [first, pure_bind]
      exact names
    · rw [if_neg (by simpa using group), if_neg group, listed]

/-! ### The walk -/

theorem defines_eq (h : Numbered r code) {front : List Token} (cut : code = front ++ t :: us) :
    (r.defines front.length : Checked ε Bool) = pure (Selector.isDefine t us) := by
  have size := h.size_eq
  rw [cut, List.length_append, List.length_cons] at size
  cases us with
  | nil =>
    obtain ⟨start, read⟩ := h.token_eq cut
    rw [List.length_nil] at size
    rw [defines, token?, if_pos (by omega), read, pure_bind, pure_bind]
    dsimp only
    rw [token?, if_neg (by omega), pure_bind]
    rfl
  | cons next us =>
    obtain ⟨start, both⟩ := h.beside front t next us cut
    obtain ⟨here, behind⟩ := both ε
    rw [List.length_cons] at size
    rw [defines, token?, if_pos (by omega), here, pure_bind, pure_bind]
    dsimp only
    rw [token?, if_pos (by omega), behind, pure_bind, pure_bind]
    dsimp only
    have tight :
        ((⟨t.kind, [], t.text, start⟩ : Token).stop == start + t.text.byteLength +
          next.gap.byteLength) =
          next.gap.isEmpty := by
      rw [Bool.eq_iff_iff, beq_iff_eq, Token.stop, List.isEmpty_iff]
      cases next.gap with
      | nil => simp
      | cons c cs =>
        have wide := Char.utf8Size_pos c
        simp only [Text.byteLength_cons, reduceCtorEq, iff_false]
        omega
    rw [tight]
    rfl

theorem isBase_eq (h : Numbered r code) (cut : code = before.reverse ++ t :: us) :
    (r.isBase before.length : Checked ε Bool) = pure (Selector.isBase before us) := by
  have dot := @isKind_eq r code before.reverse (t :: us) h cut 1 .dot
  have name := @isKind_eq r code before.reverse (t :: us) h cut 2 .ident
  rw [List.length_reverse] at dot name
  rw [isBase, dot, name]
  have selects :
      (((t :: us)[1]?.any fun t => t.kind == .dot) && (t :: us)[2]?.any fun t => t.kind == .ident) =
        Selector.isBase [] us := by
    rcases us with _ | ⟨dot, _ | ⟨name, rest⟩⟩ <;> simp [Selector.isBase]
  rw [selects]
  cases before with
  | nil =>
    cases Selector.isBase [] us <;> rfl
  | cons previous before =>
    obtain ⟨start, read⟩ := h.token_before cut 1
    have both : Selector.isBase (previous :: before) us =
        (Selector.isBase [] us && previous.kind != .dot) := by
      simp [Selector.isBase]
    rw [both, List.length_cons, if_neg (Nat.succ_ne_zero _), ← bind_assoc, read, pure_bind]
    cases Selector.isBase [] us <;> rfl

theorem word_eq (h : Numbered r code) (cut : code = before.reverse ++ t :: us) (w : Walk)
    (d : Depth) :
    (r.word w d before.length : Checked ε Walk) = pure (w.word d before t us) := by
  obtain ⟨start, read⟩ := h.token_eq cut
  have bindings := @bindings_eq ε r code before.reverse us t h cut
  have statement := @statementNames_eq ε r code us t h before.reverse cut
  have here := read ε
  rw [List.length_reverse] at bindings statement here
  have word : ∀ text, (⟨t.kind, [], t.text, start⟩ : Token).isWord text = t.isWord text :=
    fun _ => rfl
  rw [Reading.word, here, pure_bind]
  simp only [word, bindings, statement, h.isBase_eq cut, pure_bind, Walk.word]
  cases Signature.bindings us <;> split_ifs <;> rfl

theorem breakLine_eq (h : Numbered r code) (cut : code = before.reverse ++ t :: us) (w : Walk) :
    (r.breakLine w before.length : Checked ε Walk) = pure (w.broken before t) := by
  cases before with
  | nil => rfl
  | cons p before =>
    have line := h.line before.reverse p t us (by simp [cut]) ε
    rw [List.length_reverse] at line
    rw [breakLine, List.length_cons, if_neg (Nat.succ_ne_zero _), line, pure_bind, Walk.broken]
    cases t.onNewLine <;> rfl

theorem step_eq (h : Numbered r code) (cut : code = before.reverse ++ t :: us) (w : Walk) :
    (r.step w before.length t.kind : Checked ε Walk) = pure (w.step before t us) := by
  have counts := h.counts
  rw [cut] at counts
  have start := counts.start
  rw [Nat.zero_add, List.length_reverse] at start
  have define := @defines_eq ε r code us t h before.reverse cut
  rw [List.length_reverse] at define
  rw [Reading.step, h.breakLine_eq cut, pure_bind, Walk.step_eq, Walk.act]
  cases kind : t.kind with
  | opening bracket =>
    cases bracket with
    | curly => rw [← start]; rfl
    | _ => rfl
  | closing bracket => cases bracket <;> rfl
  | ident => exact h.word_eq cut _ _
  | op =>
    dsimp only
    rw [define, pure_bind, h.definedNames_eq cut]
    cases Selector.isDefine t us <;> rfl
  | _ => rfl

theorem walk_eq (h : Numbered r code) (cut : code = before.reverse ++ us) (w : Walk) :
    (r.walk w before.length (us.map (·.kind)) : Checked ε Walk) = pure (w.run before us) := by
  induction us generalizing before w with
  | nil => rfl
  | cons t us ih =>
    have behind := @ih (t :: before) (by simp [cut]) (w.step before t us)
    rw [List.map_cons, walk, h.step_eq cut, pure_bind, Walk.run]
    exact behind

theorem selectors_eq (h : Numbered r code) :
    (r.selectors : Checked ε _) = pure (packageSelectors code) := by
  have walked := @walk_eq ε r code [] code h rfl .start
  rw [selectors, h.kinds]
  exact congrArg (· >>= _) walked

end Numbered

/-! ### Numbers in the place of offsets -/

theorem Counts.le_start {k : Nat} {ts : List Token} (counts : Counts k ts) :
    ∀ t ∈ ts, k ≤ t.start := by
  induction ts generalizing k with
  | nil => simp
  | cons t ts ih =>
    obtain ⟨start, later⟩ := counts
    refine List.forall_mem_cons.2 ⟨Nat.le_of_eq start.symm, fun u mem => ?_⟩
    exact Nat.le_of_succ_le (ih later u mem)

theorem Counts.nodup {k : Nat} {ts : List Token} (counts : Counts k ts) :
    (ts.map Token.start).Nodup := by
  induction ts generalizing k with
  | nil => exact .nil
  | cons t ts ih =>
    obtain ⟨start, later⟩ := counts
    refine List.nodup_cons.2 ⟨fun mem => ?_, ih later⟩
    obtain ⟨u, mem, same⟩ := List.mem_map.1 mem
    have behind := later.le_start u mem
    omega

theorem akin_number (k : Nat) (ts : List Token) : List.Forall₂ Token.Akin (number k ts) ts := by
  induction ts generalizing k with
  | nil => exact .nil
  | cons t ts ih => exact .cons ⟨rfl, rfl, rfl, rfl⟩ (ih (k + 1))

namespace Of

variable {r : Reading} {before : Text} {toks : List Token}

theorem start_lt_stop (h : r.Of before toks) {t : Token} (mem : t ∈ toks) : t.start < t.stop := by
  obtain ⟨rest, reads⟩ := h.reads t mem
  obtain ⟨c, text, some⟩ := List.exists_cons_of_ne_nil reads.text_ne_nil
  have wide := c.utf8Size_pos
  rw [Token.stop, some, Text.byteLength_cons]
  omega

theorem nodup_starts (h : r.Of before toks) : (toks.map Token.start).Nodup := by
  have apart := Token.pairwise_place before.byteLength toks
  rw [h.placed] at apart
  refine List.pairwise_map.2 (apart.imp_of_mem fun mem _ le => ?_)
  have wide := h.start_lt_stop mem
  omega

/-- Read by index, code uses the packages that its tokens use. -/
theorem selectors_eq (h : r.Of before toks) :
    (r.selectors : Checked ε _) = pure (packageSelectors toks) := by
  rw [h.numbered.selectors_eq,
    packageSelectors_akin (akin_number 0 toks) (counts_number 0 toks).nodup h.nodup_starts]

end Of

end GoSplit.Checked.Reading
