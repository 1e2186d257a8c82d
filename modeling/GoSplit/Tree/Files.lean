import GoSplit.Tree

/-!
What a program can do to a tree through paths. A path is followed name by name; every
name on the way has to be a directory, and neither a name nor the path may be too long.
Each operation either changes the tree or fails with the error the operating system
reports.
-/

namespace GoSplit

/-- Actions on a tree that may fail; what was done before a failure stays done. -/
abbrev FileM (ε α : Type) := ExceptT ε (StateM Tree) α

namespace FileM

/-- Runs an action on a tree. -/
def on {ε α : Type} (action : FileM ε α) (tree : Tree) : Except ε α × Tree :=
  (ExceptT.run action).run tree

/-- An action that may change the tree or fail. -/
def change {ε : Type} (f : Tree → Except ε Tree) : FileM ε Unit := do
  match f (← get) with
  | .ok tree => set tree
  | .error e => throw e

/-- An action that only looks. -/
def look {ε α : Type} (f : Tree → Except ε α) : FileM ε α := do
  match f (← get) with
  | .ok a => pure a
  | .error e => throw e

def mapError {ε δ α : Type} (f : ε → δ) (action : FileM ε α) : FileM δ α :=
  ExceptT.mk (do return (← action.run).mapError f)

end FileM

namespace Path

/-- A path has fewer bytes than this. -/
def byteLimit : Nat := 4096

def endsInSlash (p : Path) : Bool := p.text.getLast? == some '/'

end Path

namespace Tree

/-- Whether a name is one that every directory has. -/
def isDots (name : Text) : Bool := name = ['.'] || name = ['.', '.']

/-- Where a name leads from a directory: nowhere for an empty name or a dot, one level up
for two dots, and otherwise to the entry of that name, which has at most 255 bytes. -/
def step (loc : Location) (name : Text) : Except IoError Location :=
  if name = [] ∨ name = ['.'] then .ok loc
  else if name = ['.', '.'] then .ok loc.dropLast
  else if 255 < name.byteLength then .error .nameTooLong
  else .ok (loc ++ [name])

/-- What keeps a name from being looked up at a location. -/
def notADirectory (tree : Tree) (loc : Location) : Option IoError :=
  match tree.find? loc with
  | none => some .notFound
  | some (.file _) => some .notDirectory
  | some .directory => none

/-- Follows names from `current`, each of which has to lead on from a directory. The
entry reached in the end need not exist. -/
def follow (tree : Tree) (current : Location) : List Text → Except IoError Location
  | [] => .ok current
  | name :: rest =>
    match tree.notADirectory current with
    | some e => .error e
    | none =>
      match step current name with
      | .error e => .error e
      | .ok next => tree.follow next rest

/-- Whether names only lead up. -/
def onlyUp (names : List Text) : Bool := names.all fun name => name.isEmpty || isDots name

/-- Whether names that start `depth` levels below the root lead to an entry outside it. -/
def leadsOut (depth : Nat) : List Text → Bool
  | [] => false
  | name :: rest =>
    if name = [] ∨ name = ['.'] then leadsOut depth rest
    else if name = ['.', '.'] then
      match depth with
      | 0 => !onlyUp rest
      | depth + 1 => leadsOut depth rest
    else leadsOut (depth + 1) rest

/-- The names of a path below the root; none for the empty path and for paths that lead
elsewhere. The directories above the root show no other entries than the root does. -/
def names? (tree : Tree) (path : Path) : Option (List Text) :=
  if path.text.isEmpty then none
  else if path.isAbsolute then
    match tree.base.isPrefixOf? path.text with
    | some [] => some []
    | some ('/' :: rest) => inside (Text.pieces '/' rest)
    | _ => if onlyUp (Text.pieces '/' path.text) then some [] else none
  else inside (Text.pieces '/' path.text)
where
  inside (names : List Text) : Option (List Text) := if leadsOut 0 names then none else some names

/-- The names to follow. Nothing is looked up when the path has the character zero in it
or is too long. -/
def namesOf (tree : Tree) (path : Path) : Except IoError (List Text) :=
  if path.hasZero then .error .zeroInName
  else if Path.byteLimit ≤ path.text.byteLength then .error .nameTooLong
  else match tree.names? path with
    | some names => .ok names
    | none => .error .notFound

/-- Where a path leads. -/
def locate (tree : Tree) (path : Path) : Except IoError Location :=
  (tree.namesOf path).bind (tree.follow [])

/-- The directory in which the last name of a path is looked up, and that name. Slashes
at the end do not count. -/
def enter (tree : Tree) (path : Path) : Except IoError (Location × Text) := do
  let names := ((← tree.namesOf path).reverse.dropWhile List.isEmpty).reverse
  let dir ← tree.follow [] names.dropLast
  match tree.notADirectory dir with
  | some e => throw e
  | none => return (dir, names.getLastD [])

def lookup (tree : Tree) (path : Path) : Except IoError (Location × Node) :=
  match tree.locate path with
  | .error e => .error e
  | .ok loc =>
    match tree.find? loc with
    | some node => .ok (loc, node)
    | none => .error .notFound

def exists? (tree : Tree) (path : Path) : Bool := (tree.lookup path).isOk

def isFile (tree : Tree) (path : Path) : Bool :=
  match tree.lookup path with
  | .ok (_, .file _) => true
  | _ => false

def isDir (tree : Tree) (path : Path) : Bool :=
  match tree.lookup path with
  | .ok (_, .directory) => true
  | _ => false

def readBytes (tree : Tree) (path : Path) : Except IoError Content :=
  match tree.lookup path with
  | .error e => .error e
  | .ok (_, .directory) => .error .isDirectory
  | .ok (_, .file content) => .ok content

def readText (tree : Tree) (path : Path) : Except IoError Text :=
  match tree.readBytes path with
  | .error e => .error e
  | .ok content =>
    match content.text? with
    | some text => .ok text
    | none => .error .invalidText

/-- Enters a node unless the operating system refuses. -/
def create (tree : Tree) (loc : Location) (node : Node) : Except IoError Tree :=
  match tree.refuses loc with
  | some e => .error e
  | none => .ok (tree.put loc node)

/-- Creates a file or replaces its contents. -/
def writeBytes (tree : Tree) (path : Path) (content : Content) : Except IoError Tree := do
  let (dir, name) ← tree.enter path
  if path.endsInSlash then throw .isDirectory
  let loc ← step dir name
  if tree.find? loc = some .directory then throw .isDirectory
  tree.create loc (.file content)

def writeText (tree : Tree) (path : Path) (text : Text) : Except IoError Tree :=
  tree.writeBytes path (Content.ofText text)

def makeDir (tree : Tree) (path : Path) : Except IoError Tree := do
  let (dir, name) ← tree.enter path
  let loc ← step dir name
  if (tree.find? loc).isSome then throw .alreadyExists
  tree.create loc .directory

/-- Creates a directory, or says why not; an existing directory is fine. -/
def ensureDir (tree : Tree) (path : Path) : Except IoError Tree :=
  match tree.makeDir path with
  | .ok made => .ok made
  | .error e => if tree.isDir path then .ok tree else .error e

/-- Creates a directory and the missing ones above it. The counter bounds how many
levels up to go. -/
def makeDirsFrom (tree : Tree) (path : Path) : Nat → Except IoError Unit × Tree
  | 0 => (.ok (), tree)
  | levels + 1 =>
    if path.text.isEmpty then (.ok (), tree)
    else match tree.ensureDir path with
      | .ok made => (.ok (), made)
      | .error .notFound =>
        match path.parent with
        | none => (.error .notFound, tree)
        | some parent =>
          match tree.makeDirsFrom parent levels with
          | (.error e, tree) => (.error e, tree)
          | (.ok (), tree) =>
            match tree.ensureDir path with
            | .ok made => (.ok (), made)
            | .error e => (.error e, tree)
      | .error e => (.error e, tree)

def makeDirs (path : Path) : FileM IoError Unit := ExceptT.mk fun tree =>
  tree.makeDirsFrom path (path.text.length + 1)

def removeFile (tree : Tree) (path : Path) : Except IoError Tree :=
  match tree.lookup path with
  | .error e => .error e
  | .ok (_, .directory) => .error .isDirectory
  | .ok (loc, .file _) => .ok (tree.remove loc)

/-- Removes a directory with all its contents. It loses the contents first, and then is
looked up again: one named by dots cannot be removed itself, and one whose path went
through its own contents cannot be found any more and stays. -/
def removeDirs (path : Path) : FileM IoError Unit := do
  match (← get).lookup path with
  | .error e => throw e
  | .ok (_, .file _) => throw .notDirectory
  | .ok (loc, .directory) =>
    modify fun tree => tree.clear loc
    match (← get).enter path with
    | .error .notFound => pure ()
    | .error e => throw e
    | .ok (_, name) =>
      if name = ['.'] then throw .invalidArgument
      else if name = ['.', '.'] then throw .notEmpty
      else modify fun tree => tree.remove loc

/-- What keeps an entry from taking over a name that is in use: the other entry has to be
of the same kind, and a directory has to be empty. -/
def obstacle (tree : Tree) (node : Node) (loc : Location) : Option IoError :=
  match node, tree.find? loc with
  | .directory, some (.file _) => some .notDirectory
  | .file _, some .directory => some .isDirectory
  | .directory, some .directory =>
    if tree.entries.any fun e => e.1.isBelow loc then some .notEmpty else none
  | _, _ => none

/-- Moves an entry over a name. Nothing moves below itself, or over a directory it lies
in. -/
def takeOver (tree : Tree) (node : Node) (src dst : Location) : Except IoError Tree :=
  if src = dst then .ok tree
  else if dst.isWithin src then .error .invalidArgument
  else if src.isWithin dst then .error .notEmpty
  else match (tree.obstacle node dst).or (tree.refuses dst) with
    | some e => .error e
    | none => .ok ((tree.remove dst).move src dst)

/-- Renames an entry. The directories of both names are entered before the names are
looked up. Nothing moves to another file system, and only a directory has a slash behind
its name. -/
def rename (tree : Tree) (source target : Path) : Except IoError Tree := do
  if source.hasZero || target.hasZero then throw .zeroInName
  let (sourceDir, sourceName) ← tree.enter source
  let (targetDir, targetName) ← tree.enter target
  if tree.device sourceDir ≠ tree.device targetDir then throw .crossDevice
  if isDots sourceName || isDots targetName then throw .busy
  let src ← step sourceDir sourceName
  match tree.find? src with
  | none => throw .notFound
  | some node =>
    let dst ← step targetDir targetName
    if (source.endsInSlash || target.endsInSlash) && node ≠ .directory then throw .notDirectory
    tree.takeOver node src dst

/-- Copies a file. Opening the copy for writing empties it first, so a file copied
onto itself ends up empty. -/
def copyFile (tree : Tree) (source target : Path) : Except IoError Tree :=
  match tree.readBytes source with
  | .error e => .error e
  | .ok content =>
    let same := match tree.locate source, tree.locate target with
      | .ok a, .ok b => a == b
      | _, _ => false
    tree.writeBytes target (if same then ByteArray.empty else content)

end Tree

end GoSplit
