import GoSplit.SourceFile
import GoSplit.SourceFile.Fault

/-!
What a declaration declares, read from the tokens after its keyword: the name and
receiver of a function, or the names of a type, variable or constant declaration.
-/

namespace GoSplit

/-- Splits behind an opening delimiter at the one that closes it. `inner` counts the
delimiters opened since. -/
def splitAtClose (inner : Nat) : List Token → Option (List Token × List Token)
  | [] => none
  | t :: ts =>
    let deeper (n : Nat) := (splitAtClose n ts).map fun (inside, after) => (t :: inside, after)
    match t.kind with
    | .opening _ => deeper (inner + 1)
    | .closing _ =>
      match inner with
      | 0 => some ([], ts)
      | n + 1 => deeper n
    | _ => deeper inner

namespace Receiver

/-- Whether a receiver starts with a name: two identifiers, or one and a star. -/
def named : List Token → Bool
  | first :: second :: _ => first.kind == .ident && (second.kind == .ident || second.isStar)
  | _ => false

def ofType (name : Option Text) : List Token → Option Receiver
  | [] => none
  | t :: ts =>
    if t.isStar then
      match ts with
      | base :: _ => if base.kind = .ident then some ⟨name, base.text, true⟩ else none
      | [] => none
    else if t.kind = .ident then some ⟨name, t.text, false⟩
    else none

/-- Reads the tokens between the parentheses of a receiver. Only identifiers, stars
and the bracket that opens type parameters matter. -/
def ofTokens (inner : List Token) : Option Receiver :=
  let relevant := inner.filter fun t =>
    t.kind == .ident || t.kind == .opening .square || t.isStar
  match relevant with
  | first :: rest => if named relevant then ofType (some first.text) rest else ofType none relevant
  | [] => none

end Receiver

namespace Heading

/-- The function name is missing where `found` stands instead, or at the end of the
keyword when nothing stands there. -/
def missingName (keyword : Token) (found : Option Token) : ParseFault :=
  ⟨.unexpectedToken ((found.map (·.text)).getD []) .functionName,
    (found.map (·.start)).getD keyword.stop⟩

/-- The heading of a function: its name, with a receiver in front for a method.
`body` are the tokens of the declaration after the keyword, `after` those behind it. -/
def ofFunc (keyword : Token) (body after : List Token) : Except ParseFault Heading :=
  match Token.withoutComments body with
  | [] => .error (missingName keyword (body ++ after).head?)
  | first :: rest =>
    if first.kind = .opening .paren then
      match splitAtClose 0 rest with
      | none => .error ⟨.malformedReceiver, first.start⟩
      | some (inner, behind) =>
        match Receiver.ofTokens inner with
        | none => .error ⟨.malformedReceiver, first.start⟩
        | some receiver =>
          match behind with
          | name :: _ =>
            if name.kind = .ident then .ok ⟨.method, [name.text], some receiver⟩
            else .error (missingName keyword (some name))
          | [] =>
            let comments := (body.reverse.takeWhile Token.isComment).reverse
            .error (missingName keyword (comments ++ after).head?)
    else if first.kind = .ident then .ok ⟨.func, [first.text], none⟩
    else .error (missingName keyword (some first))

/-- Where the scan for declared names stands. -/
structure Scan where
  depth : Nat
  /-- A new entry starts here. -/
  atStart : Bool
  /-- Further names of the entry may follow. -/
  collecting : Bool
  afterComma : Bool
  deriving DecidableEq, Repr

/-- The names declared by the tokens that follow. In a parenthesised list a line
break or semicolon outside delimiters starts a new entry; when `several`, an entry
may declare a list of names. -/
def namesFrom (grouped several : Bool) (scan : Scan) : List Token → List Text
  | [] => []
  | t :: ts =>
    let starts := scan.atStart || (grouped && scan.depth == 0 && t.onNewLine)
    let go (depth : Nat) (atStart collecting : Bool) : List Text :=
      namesFrom grouped several ⟨depth, atStart, collecting, t.kind == .comma⟩ ts
    let more (atStart collecting : Bool) : List Text :=
      if !grouped && !atStart && !collecting then [] else go scan.depth atStart collecting
    match t.kind with
    | .opening _ => go (scan.depth + 1) starts false
    | .closing _ =>
      match scan.depth with
      | 0 => []
      | outer + 1 => go outer starts scan.collecting
    | kind =>
      if scan.depth != 0 then go scan.depth starts scan.collecting
      else if kind == .semicolon then go 0 true scan.collecting
      else if starts && kind == .ident then t.text :: more false several
      else if scan.collecting && kind == .comma then
        more starts ((ts.head?.map (·.kind)) == some .ident)
      else if scan.collecting && kind == .ident then
        if scan.afterComma then t.text :: more starts true else more starts false
      else more false false

/-- The names a type, variable or constant declaration declares. -/
def declaredNames (several : Bool) (body : List Token) : List Text :=
  match Token.withoutComments body with
  | [] => []
  | first :: rest =>
    let start : Scan := ⟨0, true, false, false⟩
    if first.kind = .opening .paren then namesFrom true several start rest
    else namesFrom false several start (first :: rest)

/-- The heading of a declaration other than an import. -/
def read (keyword : Token) (body after : List Token) : Except ParseFault Heading :=
  if keyword.isWord "func" then ofFunc keyword body after
  else if keyword.isWord "type" then .ok ⟨.type, declaredNames false body, none⟩
  else if keyword.isWord "var" then .ok ⟨.var, declaredNames true body, none⟩
  else .ok ⟨.const, declaredNames true body, none⟩

end Heading

end GoSplit
