import GoSplit.Text.Letter

/-!
Import paths. The toolchain takes a path whose first element contains a dot for a
hosted module and everything else for the standard library or the main module; a
classifier can know further roots. Relative to a private namespace a path is internal,
external as it was written, or already shaded.
-/

namespace GoSplit

namespace ImportPath

/-- The path equals `root` or lies below it, element by element. Nothing lies below
the empty path. -/
def isUnder (path root : Text) : Bool :=
  !root.isEmpty &&
    match root.isPrefixOf? path with
    | some [] => true
    | some (c :: _) => c == '/'
    | none => false

/-- Puts a path below a namespace, with a single slash between them. -/
def join (space path : Text) : Text :=
  Text.dropEndWhile (· == '/') space ++ '/' :: path.dropWhile (· == '/')

def segments (path : Text) : List Text := Text.pieces '/' path

/-- The first element contains a dot. -/
def isDotted (path : Text) : Bool :=
  match segments path with
  | first :: _ => first.contains '.'
  | [] => false

def quote (path : Text) : Text := '"' :: path ++ ['"']

/-- A major version element: `v` and digits. -/
def isMajorVersion : Text → Bool
  | 'v' :: digit :: more => (digit :: more).all Char.isDigit
  | _ => false

/-- The element that names the package: the last one, or the one before a major
version. -/
def namingElement (path : Text) : Text :=
  match (segments path).reverse with
  | [] => []
  | [last] => last
  | last :: parent :: _ => if isMajorVersion last then parent else last

/-- The package name a path is taken to declare: its naming element without a
leading `go-`, cut where a name cannot go on. -/
def assumedName (path : Text) : Text :=
  let element := namingElement path
  let bare := (("go-".toList).isPrefixOf? element).getD element
  bare.takeWhile Text.isNamePart

def lastElement (path : Text) : Text := (segments path).getLastD []

/-- The names an import without a local name may be used by. A major version at the
end may itself be the package name. -/
def candidateNames (path : Text) : List Text :=
  let name := assumedName path
  let last := lastElement path
  if isMajorVersion last && name != last then [name, last] else [name]

/-- The path as a list of directory names below a root: empty, `.` and `..` elements
are left out. -/
def directories (path : Text) : List Text :=
  (segments path).filter fun s => !s.isEmpty && s != ['.'] && s != ['.', '.']

end ImportPath

inductive ImportClass where
  /-- Standard library or main module; never rewritten. -/
  | internal
  /-- Hosted elsewhere and not yet under the private namespace. -/
  | externalCanonical
  /-- Under the private namespace. -/
  | externalShaded
  deriving DecidableEq, Repr

/-- Decides which paths are hosted outside the module. -/
structure Classifier where
  isExternal : Text → Bool

namespace Classifier

def dotted : Classifier := ⟨ImportPath.isDotted⟩

/-- Knows further roots of hosted modules, whose paths need no dot. -/
def ofRoots (roots : List Text) : Classifier :=
  ⟨fun path => roots.any (ImportPath.isUnder path) || ImportPath.isDotted path⟩

/-- The class of a path relative to the private namespace `space`. -/
def classify (classifier : Classifier) (path space : Text) : ImportClass :=
  if ImportPath.isUnder path space then .externalShaded
  else if classifier.isExternal path then .externalCanonical
  else .internal

end Classifier

end GoSplit
