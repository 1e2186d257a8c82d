import GoSplit.ImportPath

/-!
File paths as they are written. Joining and taking apart keep the text, so a path
shows in messages the way it was built; components see through doubled slashes and
inner dots.
-/

namespace GoSplit

structure Path where
  text : Text
  deriving DecidableEq, Repr

namespace Path

def ofString (s : String) : Path := ⟨s.toList⟩

def str (p : Path) : String := p.text.str

def hasZero (p : Path) : Bool := p.text.hasZero

def isAbsolute (p : Path) : Bool := p.text.head? == some '/'

/-- An absolute right side replaces the left one; otherwise a slash separates them
unless the left side is empty or ends in one. -/
def join (p : Path) (rel : Text) : Path :=
  if rel.head? = some '/' then ⟨rel⟩
  else if p.text.isEmpty || p.text.getLast? == some '/' then ⟨p.text ++ rel⟩
  else ⟨p.text ++ '/' :: rel⟩

/-- The directory of an import path below `p`. -/
def below (p : Path) (importPath : Text) : Path :=
  p.join (Text.joinWith ['/'] (ImportPath.directories importPath))

/-- The elements of a path. A dot counts only at the head of a relative path. -/
def components (p : Path) : List Text :=
  let names := Text.pieces '/' p.text
  let plain := names.filter fun s => !s.isEmpty && s != ['.']
  if p.isAbsolute then ['/'] :: plain
  else if names.head? == some ['.'] then ['.'] :: plain
  else plain

/-- The path up to its last element; none for a root or the empty path. -/
def parent (p : Path) : Option Path :=
  let trimmed := trimTail p.text.reverse
  match trimmed with
  | [] => none
  | '/' :: [] => none
  | _ =>
    let rest := trimmed.dropWhile (· != '/')
    if rest.isEmpty then some ⟨[]⟩
    else
      let kept := trimTail rest
      some ⟨if kept.isEmpty then ['/'] else kept.reverse⟩
where
  /-- Drops slashes and lone dots from the end of a path written backwards. -/
  trimTail : Text → Text
    | '/' :: [] => ['/']
    | '/' :: rest => trimTail rest
    | '.' :: '/' :: rest => trimTail ('/' :: rest)
    | t => t

/-- The last element, unless the path ends in `..` or has none. -/
def fileName (p : Path) : Option Text :=
  match p.components.getLast? with
  | some name => if name = ['.', '.'] || name = ['.'] || name = ['/'] then none else some name
  | none => none

/-- A file name cut at its last dot; a dot at its head does not count. -/
def splitExtension (name : Text) : Text × Option Text :=
  let tail := name.reverse.takeWhile (· != '.')
  match name.reverse.dropWhile (· != '.') with
  | [] => (name, none)
  | _ :: [] => (name, none)
  | _ :: stem => (stem.reverse, some tail.reverse)

/-- The file name without its extension. -/
def stem (p : Path) : Option Text := p.fileName.map fun name => (splitExtension name).1

def isGoFile (p : Path) : Bool :=
  match p.fileName with
  | some name => (splitExtension name).2 == some "go".toList
  | none => false

/-- Paths in order of their elements. -/
def le (p q : Path) : Bool := go p.components q.components
where
  go : List Text → List Text → Bool
    | [], _ => true
    | _ :: _, [] => false
    | a :: as, b :: bs => if a = b then go as bs else Text.le a b

end Path

end GoSplit
