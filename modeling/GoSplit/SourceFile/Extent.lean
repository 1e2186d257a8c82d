import GoSplit.SourceFile.Fault

/-!
Where a declaration ends. Read from its first token, it runs to the first point
outside all delimiters that is a semicolon or a line break behind a token that ends
a statement; the end of the input ends it as well. Delimiters have to nest.
-/

namespace GoSplit

/-- Whether the next token that is no comment is missing or stands on a later line;
a line break inside a comment on the way counts. -/
def breaksBeforeNext : List Token → Bool
  | [] => true
  | t :: ts => t.onNewLine || (t.isComment && (t.text.hasNewline || breaksBeforeNext ts))

/-- How many tokens a declaration has, and whether a semicolon follows as its end. -/
structure Extent where
  size : Nat
  terminated : Bool
  deriving DecidableEq, Repr

def Extent.succ (e : Extent) : Extent := { e with size := e.size + 1 }

/-- What a token does to the stack of open delimiters, the innermost first. -/
def nest (stack : List Token) (t : Token) : Except ParseFault (List Token) :=
  match t.kind with
  | .opening _ => .ok (t :: stack)
  | .closing close =>
    match stack with
    | [] => .error ⟨.unbalancedDelimiter t.text, t.start⟩
    | opener :: outer =>
      if opener.kind = .opening close then .ok outer
      else .error ⟨.mismatchedDelimiter opener.text t.text, t.start⟩
  | _ => .ok stack

/-- The extent of the declaration that goes on with the given tokens while the
delimiters of `stack` are open. -/
def extentFrom (stack : List Token) : List Token → Except ParseFault Extent
  | [] =>
    match stack.getLast? with
    | some outermost => .error ⟨.unclosedDelimiter outermost.text, outermost.start⟩
    | none => .ok ⟨0, false⟩
  | t :: ts =>
    if t.isComment then (extentFrom stack ts).map Extent.succ
    else if t.kind == .semicolon && stack.isEmpty then .ok ⟨0, true⟩
    else
      match nest stack t with
      | .error fault => .error fault
      | .ok inside =>
        if inside.isEmpty && t.endsStatement && breaksBeforeNext ts then .ok ⟨1, false⟩
        else (extentFrom inside ts).map Extent.succ

def declExtent (ts : List Token) : Except ParseFault Extent := extentFrom [] ts

end GoSplit
