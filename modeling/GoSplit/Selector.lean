import GoSplit.Selector.Signature

/-!
The package names a piece of Go code refers to. `x.Sel` refers to an imported
package when no enclosing function binds `x`: as receiver, parameter or result, on
the left of `:=`, in a `var` or `const` statement, or as a range variable. The walk
keeps one scope per block. A statement's names become visible after it; the names of
an `if`, `for` or `switch` header are visible in the rest of the header and in the
block it opens.
-/

namespace GoSplit

namespace Selector

/-- How many blocks and how many parentheses or brackets are open. -/
structure Depth where
  blocks : Nat
  parens : Nat
  deriving DecidableEq, Repr

/-- Names declared by a statement that has not ended yet. -/
structure Pending where
  names : List Text
  depth : Depth
  /-- Declared in a statement header. -/
  inHeader : Bool
  deriving DecidableEq, Repr

structure Walk where
  /-- Bases of selectors that nothing binds. -/
  used : List Text
  /-- Names bound in the open blocks, the innermost first. -/
  scopes : List (List Text)
  parens : Nat
  /-- Names bound in the function bodies ahead, by the offset of the opening brace. -/
  bodies : List (Nat × List Text)
  pending : List Pending
  /-- Depth of the statement header being read. -/
  header : Option Depth
  /-- Names the header has bound so far. -/
  headerNames : List Text
  deriving DecidableEq, Repr

/-- Names separated by commas at the head of the tokens. -/
def nameList : List Token → List Text
  | [] => []
  | [t] => if t.kind == .ident then [t.text] else []
  | t :: next :: rest =>
    if t.kind == .ident then t.text :: (if next.kind == .comma then nameList rest else [])
    else []

/-- The names of a parenthesised `var` or `const` statement behind the parenthesis:
each entry starts a line or follows a semicolon. -/
def groupedNames (inner : Nat) (atStart : Bool) : List Token → List Text
  | [] => []
  | t :: ts =>
    let starts := atStart || (inner == 0 && t.onNewLine)
    match t.kind with
    | .opening _ => groupedNames (inner + 1) starts ts
    | .closing _ =>
      match inner with
      | 0 => []
      | outer + 1 => groupedNames outer starts ts
    | .semicolon => groupedNames inner (inner == 0) ts
    | .ident =>
      if starts && inner == 0 then nameList (t :: ts) ++ groupedNames inner false ts
      else groupedNames inner false ts
    | _ => groupedNames inner false ts

/-- The names declared by a `var` or `const` statement, from the tokens after the
keyword. -/
def statementNames : List Token → List Text
  | [] => []
  | t :: ts => if t.kind = .opening .paren then groupedNames 0 true ts else nameList (t :: ts)

/-- Whether `t` and the tokens after it make the operator `:=`. -/
def isDefine (t : Token) : List Token → Bool
  | next :: _ =>
    t.text == [':'] && next.kind == .op && next.text == ['='] && next.gap.isEmpty
  | [] => false

/-- Whether the identifier between `before`, reversed, and `after` is selected from. -/
def isBase (before after : List Token) : Bool :=
  (match after with
    | dot :: name :: _ => dot.kind == .dot && name.kind == .ident
    | _ => false)
  && before.head?.all fun previous => previous.kind != .dot

namespace Walk

def start : Walk := ⟨[], [], 0, [], [], none, []⟩

def depth (w : Walk) : Depth := ⟨w.scopes.length, w.parens⟩

def binds (w : Walk) (name : Text) : Bool :=
  w.headerNames.contains name || w.scopes.any fun scope => scope.contains name

/-- Moves the names of the statements that end at depth `d` into the innermost
scope. -/
def endStatement (w : Walk) (d : Depth) : Walk :=
  match w.scopes with
  | [] => w
  | scope :: outer =>
    let (ended, kept) := w.pending.partition fun p => !p.inHeader && p.depth == d
    { w with scopes := (scope ++ ended.flatMap (·.names)) :: outer, pending := kept }

/-- Takes out the names that headers at depth `d` have declared. -/
def takeHeader (w : Walk) (d : Depth) : List Text × Walk :=
  let (header, kept) := w.pending.partition fun p => p.inHeader && p.depth == d
  (header.flatMap (·.names), { w with pending := kept })

/-- A brace opens a block that knows the names of the function whose body it is, or
those of the header it ends. -/
def openBlock (w : Walk) (d : Depth) (brace : Token) : Walk :=
  let names := (w.bodies.lookup brace.start).getD []
  if w.header == some d then
    let (declared, w) := w.takeHeader d
    { w with
      scopes := (names ++ declared ++ w.headerNames) :: w.scopes
      header := none
      headerNames := [] }
  else { w with scopes := names :: w.scopes }

def closeBlock (w : Walk) : Walk :=
  let scopes := w.scopes.tail
  { w with scopes, pending := w.pending.filter fun p => p.depth.blocks ≤ scopes.length }

/-- A semicolon makes the names a header has declared so far visible in its rest. -/
def semicolon (w : Walk) (d : Depth) : Walk :=
  let w :=
    if w.header == some d then
      let (declared, w) := w.takeHeader d
      { w with headerNames := w.headerNames ++ declared }
    else w
  w.endStatement d

def word (w : Walk) (d : Depth) (before : List Token) (t : Token) (after : List Token) : Walk :=
  if t.isWord "func" then
    match Signature.bindings after with
    | some body => { w with bodies := body :: w.bodies }
    | none => w
  else if t.isWord "if" || t.isWord "for" || t.isWord "switch" || t.isWord "select" then
    { w with header := some d, headerNames := [] }
  else if (t.isWord "var" || t.isWord "const") && !w.scopes.isEmpty then
    { w with pending := w.pending ++ [⟨statementNames after, d, false⟩] }
  else if isBase before after && !w.binds t.text then { w with used := w.used ++ [t.text] }
  else w

/-- One token. `before` are the tokens in front of it, the nearest first. -/
def step (w : Walk) (before : List Token) (t : Token) (after : List Token) : Walk :=
  let d := w.depth
  let w := if !before.isEmpty && t.onNewLine then w.endStatement d else w
  match t.kind with
  | .opening .curly => w.openBlock d t
  | .closing .curly => w.closeBlock
  | .opening _ => { w with parens := w.parens + 1 }
  | .closing _ => { w with parens := w.parens - 1 }
  | .semicolon => w.semicolon d
  | .ident => w.word d before t after
  | .op =>
    if isDefine t after then
      { w with pending := w.pending ++ [⟨nameList before, d, w.header == some d⟩] }
    else w
  | _ => w

def run (w : Walk) (before : List Token) : List Token → Walk
  | [] => w
  | t :: ts => run (w.step before t ts) (t :: before) ts

end Walk

end Selector

/-- The names used as `x.Sel` where nothing binds `x`. The tokens are those of whole
declarations, without comments. -/
def packageSelectors (ts : List Token) : List Text := (Selector.Walk.start.run [] ts).used

end GoSplit
