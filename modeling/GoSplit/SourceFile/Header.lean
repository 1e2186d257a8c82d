import GoSplit.SourceFile

/-!
The header of a file, read from the comments in front of the package clause. The
comments fall into groups at empty lines. A group of build constraints only is kept
as constraints; the last group is the package comment when no empty line separates
it from the clause; every other group stands on its own.
-/

namespace GoSplit.Header

/-- A line that says when a file takes part in a build, in its current or its older
form. The keyword needs white space after it. -/
def isBuildConstraint (comment : Text) : Bool :=
  match comment with
  | '/' :: '/' :: rest =>
    follows "go:build".toList rest || follows "+build".toList (Text.trimStart rest)
  | _ => false
where
  follows (word rest : Text) : Bool :=
    match word.isPrefixOf? rest with
    | some (c :: _) => Text.isBlank c
    | _ => false

/-- Splits comments where an empty line separates them. -/
def groups : List Token → List (List Token)
  | [] => []
  | t :: ts =>
    match ts, groups ts with
    | next :: _, group :: others =>
      if next.gap.hasBlankLine then [t] :: group :: others else (t :: group) :: others
    | _, _ => [[t]]

/-- Adds a group to the header of the groups after it. Only the last group can be
the package comment, when `attached`. -/
def addGroup (attached : Bool) (group : List Token) (isLast : Bool) (header : Header) : Header :=
  if group.all fun t => isBuildConstraint t.text then
    { header with
      buildConstraints := group.map (fun t => t.text.trimEnd) ++ header.buildConstraints }
  else if isLast && attached then
    { header with packageDoc := some (Token.spell group) }
  else
    { header with comments := Token.spell group :: header.comments }

def ofGroups (attached : Bool) : List (List Token) → Header
  | [] => Header.empty
  | group :: others => addGroup attached group others.isEmpty (ofGroups attached others)

/-- The header made of the comments in front of the token `next`. -/
def ofComments (comments : List Token) (next : Token) : Header :=
  ofGroups (!next.gap.hasBlankLine) (groups comments)

end GoSplit.Header
