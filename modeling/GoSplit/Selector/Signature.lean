import GoSplit.SourceFile.Heading

/-!
The names a function signature binds in its body, read from the tokens after the
keyword `func`, comments left out. Receiver, type parameters, parameters and results
are lists of entries; a list names its entries when at least one of them surely
starts with a name, and a list of type parameters always does.
-/

namespace GoSplit.Signature

/-- The entries of a list behind its opening delimiter, and the tokens behind the
closing one. `inner` counts the delimiters opened since. -/
def splitEntries (inner : Nat) : List Token → Option (List (List Token) × List Token)
  | [] => none
  | t :: ts =>
    let keep (n : Nat) := (splitEntries n ts).map fun (entries, after) =>
      (match entries with
        | [] => [[t]]
        | entry :: others => (t :: entry) :: others, after)
    match t.kind with
    | .opening _ => keep (inner + 1)
    | .closing _ =>
      match inner with
      | 0 => some ([[]], ts)
      | n + 1 => keep n
    | .comma =>
      if inner = 0 then (splitEntries 0 ts).map fun (entries, after) => ([] :: entries, after)
      else keep inner
    | _ => keep inner

/-- Whether an entry surely starts with a name. What follows a name decides: a dot
makes it a qualified type, a bracket pair with nothing behind it a generic one. -/
def startsWithName : List Token → Bool
  | first :: second :: rest =>
    first.isName &&
      match second.kind with
      | .dot => false
      | .opening .square =>
        match splitAtClose 0 rest with
        | some (_, after) => !after.isEmpty
        | none => false
      | _ => true
  | _ => false

/-- The names a list of entries declares. -/
def entryNames (always : Bool) (entries : List (List Token)) : List Text :=
  let entries := entries.filter fun entry => !entry.isEmpty
  if always || entries.any startsWithName then
    (entries.filterMap List.head?).filterMap fun t => if t.isName then some t.text else none
  else []

/-- The names declared in the list behind an opening delimiter, and what follows it. -/
def listNames (always : Bool) (ts : List Token) : Option (List Text × List Token) :=
  (splitEntries 0 ts).map fun (entries, after) => (entryNames always entries, after)

/-- The offset of the brace that opens the body behind a result type without
parentheses. Braces of struct and interface types belong to the result. -/
def bodyAfterResult (depth : Nat) (afterTypeWord : Bool) : List Token → Option Nat
  | [] => none
  | t :: ts =>
    let go (d : Nat) := bodyAfterResult d (t.isWord "struct" || t.isWord "interface") ts
    if depth == 0 && t.onNewLine then none
    else match t.kind with
      | .opening .curly => if depth == 0 && !afterTypeWord then some t.start else go (depth + 1)
      | .opening _ => go (depth + 1)
      | .closing _ =>
        match depth with
        | 0 => none
        | outer + 1 => go outer
      | .comma | .semicolon => if depth == 0 then none else go depth
      | .op => if depth == 0 && t.text == ['='] then none else go depth
      | _ => go depth

/-- Results and body behind the parameters: the body's opening brace and the names
of the results. -/
def results (ts : List Token) : Option (Nat × List Text) :=
  match ts with
  | ⟨.opening .paren, gap, _, _⟩ :: rest =>
    if gap.hasNewline then (bodyAfterResult 0 false ts).map fun body => (body, [])
    else match listNames false rest with
      | some (names, body :: _) =>
        if body.kind = .opening .curly ∧ !body.onNewLine then some (body.start, names) else none
      | _ => none
  | _ => (bodyAfterResult 0 false ts).map fun body => (body, [])

/-- Type parameters, parameters, results and body. -/
def parameters (ts : List Token) : Option (Nat × List Text) :=
  let typed : Option (List Text × List Token) :=
    match ts with
    | ⟨.opening .square, _, _, _⟩ :: rest => listNames true rest
    | _ => some ([], ts)
  match typed with
  | some (typeNames, ⟨.opening .paren, _, _, _⟩ :: rest) =>
    match listNames false rest with
    | some (names, after) =>
      (results after).map fun (body, more) => (body, typeNames ++ names ++ more)
    | none => none
  | _ => none

/-- Whether a name follows that starts a method's own signature. -/
def namesMethod : List Token → Bool
  | name :: next :: _ =>
    name.kind == .ident && (next.kind == .opening .paren || next.kind == .opening .square)
  | _ => false

/-- For the tokens after a `func` keyword with a body: the offset of the brace that
opens the body, and the names bound in it. -/
def bindings (ts : List Token) : Option (Nat × List Text) :=
  match ts with
  | ⟨.opening .paren, _, _, _⟩ :: rest =>
    match listNames false rest with
    | none => none
    | some (names, after) =>
      let tail := if namesMethod after then parameters after.tail else results after
      tail.map fun (body, more) => (body, names ++ more)
  | ⟨.ident, _, _, _⟩ :: rest => parameters rest
  | _ => parameters ts

end GoSplit.Signature
