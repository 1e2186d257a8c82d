import GoSplit.Toml.Scalar

/-!
TOML documents. Keys and headers build up a tree of tables in which nothing is
defined twice: a header opens a table that only headers below it have mentioned so
far, and dotted keys extend only tables that dotted keys have made.
-/

namespace GoSplit.Toml

/-- How a table came about. -/
inductive Origin where
  /-- Mentioned on the way to another table by a header. -/
  | implied
  /-- Opened by its own header. -/
  | opened
  /-- Made by dotted keys. -/
  | dotted
  deriving DecidableEq, Repr

/-- A document while it is being read. -/
inductive Node where
  | value (v : Value)
  | table (origin : Origin) (entries : List (Text × Node))
  /-- An array of tables, the one opened last first. -/
  | tables (items : List (List (Text × Node)))

abbrev Entries := List (Text × Node)

def setEntry (key : Text) (node : Node) : Entries → Entries
  | [] => [(key, node)]
  | (k, old) :: rest => if k = key then (k, node) :: rest else (k, old) :: setEntry key node rest

/-- Enters a value under dotted keys. The flag tells whether a key may be added to
these entries themselves: after a dot, only to a table made by dotted keys. -/
def addValue (v : Value) (accepts : Bool) (entries : Entries) : List Text → Option Entries
  | [] => none
  | [key] =>
    match entries.lookup key with
    | some _ => none
    | none => if accepts then some (entries ++ [(key, .value v)]) else none
  | key :: keys =>
    match entries.lookup key with
    | none => (addValue v true [] keys).map fun made => entries ++ [(key, .table .dotted made)]
    | some (.table .dotted inner) =>
      (addValue v true inner keys).map fun made => setEntry key (.table .dotted made) entries
    | some (.table .implied inner) =>
      (addValue v false inner keys).map fun made => setEntry key (.table .implied made) entries
    | some (.tables (last :: earlier)) =>
      (addValue v false last keys).map fun made => setEntry key (.tables (made :: earlier)) entries
    | some _ => none

/-- Applies a change to the table that a header's keys lead to. -/
def atTable (change : Entries → Option Entries) (entries : Entries) : List Text → Option Entries
  | [] => change entries
  | key :: keys =>
    match entries.lookup key with
    | none => (atTable change [] keys).map fun made => entries ++ [(key, .table .implied made)]
    | some (.table origin inner) =>
      (atTable change inner keys).map fun made => setEntry key (.table origin made) entries
    | some (.tables (last :: earlier)) =>
      (atTable change last keys).map fun made => setEntry key (.tables (made :: earlier)) entries
    | some _ => none

/-- Opens the table `key` of a parent table. -/
def openTable (key : Text) (entries : Entries) : Option Entries :=
  match entries.lookup key with
  | none => some (entries ++ [(key, .table .opened [])])
  | some (.table .implied inner) => some (setEntry key (.table .opened inner) entries)
  | some _ => none

/-- Adds a table to the array `key` of a parent table. -/
def openItem (key : Text) (entries : Entries) : Option Entries :=
  match entries.lookup key with
  | none => some (entries ++ [(key, .tables [[]])])
  | some (.tables items) => some (setEntry key (.tables ([] :: items)) entries)
  | some _ => none

mutual

def Node.finish : Node → Value
  | .value v => v
  | .table _ entries => .table (finishEntries entries)
  | .tables items => .array (finishItems items).reverse

def finishEntries : List (Text × Node) → List (Text × Value)
  | [] => []
  | (key, node) :: rest => (key, node.finish) :: finishEntries rest

def finishItems : List (List (Text × Node)) → List Value
  | [] => []
  | entries :: rest => .table (finishEntries entries) :: finishItems rest

end

/-- Passes over blanks, comments and line breaks. -/
def skipTrivia (fuel : Nat) (t : Text) : Text :=
  match fuel with
  | 0 => t
  | n + 1 =>
    let rest := skipComment (skipBlanks t)
    match newline? rest with
    | some after => skipTrivia n after
    | none => rest

/-- The items of an array behind its bracket, read with `item?`. -/
def arrayItems (item? : Text → Option (Value × Text)) (fuel : Nat) (t : Text) :
    Option (List Value × Text) :=
  match fuel with
  | 0 => none
  | n + 1 =>
    match skipTrivia t.length t with
    | ']' :: rest => some ([], rest)
    | start =>
      match item? start with
      | none => none
      | some (v, after) =>
        match skipTrivia after.length after with
        | ']' :: rest => some ([v], rest)
        | ',' :: rest => (arrayItems item? n rest).map fun (vs, tail) => (v :: vs, tail)
        | _ => none

/-- How deep arrays and inline tables may nest, and how many parts a dotted key may have. -/
def maxDepth : Nat := 79

/-- The keys and the value of an assignment. -/
def assignment? (value? : Text → Option (Value × Text)) (t : Text) :
    Option (List Text × Value × Text) :=
  match key? maxDepth t with
  | some (keys, '=' :: rest) =>
    (value? (skipBlanks rest)).map fun (v, tail) => (keys, v, tail)
  | _ => none

/-- The entries of an inline table behind its brace, added to those read so far. -/
def inlineEntries (value? : Text → Option (Value × Text)) (fuel : Nat) (entries : Entries)
    (t : Text) : Option (Entries × Text) :=
  match fuel with
  | 0 => none
  | n + 1 =>
    match assignment? value? t with
    | none => none
    | some (keys, v, after) =>
      match addValue v (keys.length == 1) entries keys with
      | none => none
      | some entries =>
        match skipBlanks after with
        | '\x7d' :: rest => some (entries, rest)
        | ',' :: rest => inlineEntries value? n entries rest
        | _ => none

/-- A value; `depth` bounds how deep arrays and inline tables may nest. -/
def value? : (depth : Nat) → Text → Option (Value × Text)
  | 0, t =>
    match t with
    | '[' :: _ | '\x7b' :: _ => none
    | _ => scalar? t
  | depth + 1, t =>
    match t with
    | '[' :: rest =>
      (arrayItems (value? depth) (t.length + 1) rest).map fun (vs, tail) => (.array vs, tail)
    | '\x7b' :: rest =>
      match skipBlanks rest with
      | '\x7d' :: tail => some (.table [], tail)
      | inner =>
        (inlineEntries (value? depth) (t.length + 1) [] inner).map
          fun (entries, tail) => (.table (finishEntries entries), tail)
    | _ => scalar? t

/-- What a line of a document says. -/
inductive Statement where
  | header (keys : List Text)
  | item (keys : List Text)
  | assign (keys : List Text) (v : Value)

def statement? (t : Text) : Option (Statement × Text) :=
  match t with
  | '[' :: '[' :: rest =>
    match key? maxDepth rest with
    | some (keys, ']' :: ']' :: after) => some (.item keys, after)
    | _ => none
  | '[' :: rest =>
    match key? maxDepth rest with
    | some (keys, ']' :: after) => some (.header keys, after)
    | _ => none
  | _ => (assignment? (value? maxDepth) t).map fun (keys, v, tail) => (.assign keys v, tail)

/-- A document and the header its next assignments belong to. -/
structure Reading where
  root : Entries
  current : List Text

def Reading.apply (r : Reading) : Statement → Option Reading
  | .header keys =>
    (atTable (openTable (keys.getLastD [])) r.root keys.dropLast).map fun root => ⟨root, keys⟩
  | .item keys =>
    (atTable (openItem (keys.getLastD [])) r.root keys.dropLast).map fun root => ⟨root, keys⟩
  | .assign keys v =>
    (atTable (fun entries => addValue v (keys.length == 1) entries keys) r.root r.current).map
      fun root => { r with root }

/-- A statement ends at a line break or at the end of the text, after blanks and a
comment. -/
def endLine? (t : Text) : Option Text :=
  match skipComment (skipBlanks t) with
  | [] => some []
  | rest => newline? rest

def readStatements (fuel : Nat) (r : Reading) (t : Text) : Option Entries :=
  match fuel with
  | 0 => none
  | n + 1 =>
    match skipTrivia t.length t with
    | [] => some r.root
    | start =>
      match statement? start with
      | none => none
      | some (statement, after) =>
        match r.apply statement, endLine? after with
        | some r, some rest => readStatements n r rest
        | _, _ => none

/-- Reads a document; a byte order mark in front is passed over. -/
def parse? (t : Text) : Option Value :=
  let body := match t with
    | '\uFEFF' :: rest => rest
    | _ => t
  (readStatements (body.length + 1) ⟨[], []⟩ body).map fun entries => .table (finishEntries entries)

end GoSplit.Toml
