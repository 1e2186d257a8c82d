import GoSplit.SourceFile
import GoSplit.SourceFile.Fault

/-!
Import declarations. A single entry takes the comments above the declaration as its
own; in a parenthesised list each entry takes the comments above it that no empty
line cuts off, and the first comment behind it on its line.
-/

namespace GoSplit.ImportSpec

/-- The path between the quotes of a literal. -/
def pathOf (literal : Token) : Except ParseFault Text :=
  match literal.kind with
  | .string | .rawString =>
    match literal.text.tail.dropLast with
    | [] => .error ⟨.malformedImport .emptyPath, literal.start⟩
    | path => .ok path
  | _ => .error ⟨.malformedImport (.notAPath literal.text), literal.start⟩

def ofLiteral (localName : Option Text) (literal : Token) : Except ParseFault ImportSpec :=
  match pathOf literal with
  | .error fault => .error fault
  | .ok path => .ok ⟨localName, path, literal.span, none, none⟩

/-- Reads an entry that starts with `first`; also gives the number of tokens of
`rest` that belong to it. Comments between name and path are passed over. -/
def read (first : Token) (rest : List Token) : Except ParseFault (ImportSpec × Nat) :=
  match first.kind with
  | .ident | .dot =>
    match rest.dropWhile Token.isComment with
    | [] => .error ⟨.malformedImport .missingPath, first.start⟩
    | literal :: _ =>
      (ofLiteral (some first.text) literal).map
        fun spec => (spec, (rest.takeWhile Token.isComment).length + 1)
  | _ => (ofLiteral none first).map fun spec => (spec, 0)

/-- The comment that stands first, unless it is on a later line. -/
def trailingComment : List Token → Option Text
  | t :: _ => if t.isComment && !t.onNewLine then some t.text else none
  | [] => none

/-- The comments collected above the entry that starts with `first`. -/
def docAbove (doc : List Token) (first : Token) : Option Text :=
  if doc.isEmpty || first.gap.hasBlankLine then none else some (Token.spell doc)

/-- The entries of a parenthesised list. `doc` holds the comments collected since
the last entry and `since` the line breaks passed since the last comment or entry. -/
def readList (doc : List Token) (since : Nat) (tokens : List Token) :
    Except ParseFault (List ImportSpec) :=
  match tokens with
  | [] => .ok []
  | t :: rest =>
    if t.isComment then
      let apart := 2 ≤ since + t.gap.newlines
      readList (if apart then [t] else doc ++ [t]) 0 rest
    else if t.kind == .semicolon then
      readList [] (since + t.gap.newlines) rest
    else
      match read t rest with
      | .error fault => .error fault
      | .ok (spec, n) =>
        let after := rest.drop n
        let comment := trailingComment after
        match readList [] 0 (after.drop (if comment.isSome then 1 else 0)) with
        | .error fault => .error fault
        | .ok others => .ok ({ spec with doc := docAbove doc t, comment } :: others)
termination_by tokens.length

end GoSplit.ImportSpec

namespace GoSplit.ImportDecl

/-- The entries of a declaration, and whether they stand in parentheses. `leading`
are the comments above it, which an empty line before the keyword detaches, `body`
its tokens after the keyword and `after` the tokens behind it. -/
def readSpecs (keyword : Token) (leading : List Token) (detached : Bool)
    (body after : List Token) : Except ParseFault (Bool × List ImportSpec) :=
  match body.dropWhile Token.isComment with
  | [] => .error ⟨.malformedImport .missingPath, keyword.stop⟩
  | first :: rest =>
    if first.kind = .opening .paren then
      (ImportSpec.readList [] 0 rest.dropLast).map fun specs => (true, specs)
    else
      match ImportSpec.read first rest with
      | .error fault => .error fault
      | .ok (spec, _) =>
        let doc := if leading.isEmpty || detached then none else some (Token.spell leading)
        .ok (false, [{ spec with doc, comment := ImportSpec.trailingComment after }])

end GoSplit.ImportDecl
