import GoSplit.Tree.Files

/-!
Copying, moving and listing whole directories. Moving renames where it can and
otherwise copies and removes; a copy that fails half way is taken back.
-/

namespace GoSplit

inductive FileOpError where
  | createDir (path : Path) (cause : IoError)
  | readDir (path : Path) (cause : IoError)
  | copyFile (path : Path) (cause : IoError)
  | destinationExists (path : Path)
  | move (path : Path) (cause : IoError)
  /-- Renaming failed and so did copying in its place. -/
  | copyInstead (path : Path) (cause : IoError) (copy : FileOpError)
  | removeCopied (path : Path) (cause : IoError)
  /-- Listing what is below `dir` failed at a path. -/
  | walk (dir path : Path) (cause : IoError)
  | readFile (path : Path) (cause : IoError)
  deriving DecidableEq, Repr

def FileOpError.message : FileOpError → String
  | .createDir path cause => s!"Failed to create dir {path.str}: {cause.message}"
  | .readDir path cause => s!"Failed to read dir {path.str}: {cause.message}"
  | .copyFile path cause => s!"Failed to copy {path.str}: {cause.message}"
  | .destinationExists path => s!"Destination {path.str} already exists"
  | .move path cause => s!"Failed to move {path.str}: {cause.message}"
  | .copyInstead path cause copy =>
    s!"Failed to move {path.str} ({cause.message}); copy fallback: {copy.message}"
  | .removeCopied path cause =>
    s!"Copied {path.str} but failed to remove it: {cause.message}"
  | .walk dir path cause =>
    s!"Failed to walk {dir.str}: IO error for operation on {path.str}: {cause.message}"
  | .readFile path cause => s!"Failed to read {path.str}: {cause.message}"

namespace Tree

/-- The path of an entry at a location relative to `dir`. -/
def pathIn (dir : Path) (rel : Location) : Path :=
  if rel.isEmpty then dir else dir.join (Location.text rel)

def ensureDirs (path : Path) : FileM FileOpError Unit := do
  if !(← get).exists? path then FileM.mapError (.createDir path) (makeDirs path)

/-- The names in the directory at a path, in order. -/
def namesAt (tree : Tree) (path : Path) : Except IoError (List Text) :=
  match tree.lookup path with
  | .error e => .error e
  | .ok (_, .file _) => .error .notDirectory
  | .ok (loc, .directory) => .ok (tree.namesIn loc)

/-- Copies the entries of one directory to another, those that are directories by
`copyDir`. -/
def copyEntries (copyDir : Path → Path → FileM FileOpError Unit) (source target : Path) :
    List Text → FileM FileOpError Unit
  | [] => pure ()
  | name :: rest => do
    let entry := source.join name
    if (← get).isDir entry then copyDir entry (target.join name)
    else FileM.change fun tree =>
      (tree.copyFile entry (target.join name)).mapError (.copyFile entry)
    copyEntries copyDir source target rest

/-- Copies a directory and the given number of levels below it. The target is there
before the directory is read, so a directory copied into itself is copied over and over
again. -/
def copyLevels : Nat → Path → Path → FileM FileOpError Unit
  | 0, _, _ => pure ()
  | levels + 1, source, target => do
    ensureDirs target
    let names ← FileM.look fun tree => (tree.namesAt source).mapError (.readDir source)
    copyEntries (copyLevels levels) source target names

/-- Copies a directory with everything in it; the target may exist already. The path
grows from level to level, so that there are no more levels than bytes in a path. -/
def copyDir (source target : Path) : FileM FileOpError Unit :=
  copyLevels Path.byteLimit source target

/-- Moves by copying and then removing the source. -/
def copyAway (source target : Path) (cause : IoError) : FileM FileOpError Unit := do
  let tree ← get
  if !tree.isDir source then throw (.move source cause)
  match (copyDir source target).on tree with
  | (.error e, copied) =>
    set ((removeDirs target).on copied).2
    throw (.copyInstead source cause e)
  | (.ok (), copied) =>
    set copied
    FileM.mapError (.removeCopied source) (removeDirs source)

/-- Moves a directory to a place that is not taken yet. -/
def moveDir (source target : Path) : FileM FileOpError Unit := do
  if (← get).exists? target then throw (.destinationExists target)
  match target.parent with
  | some parent => FileM.mapError (.createDir parent) (makeDirs parent)
  | none => pure ()
  let tree ← get
  match tree.rename source target with
  | .ok moved => set moved
  | .error cause => copyAway source target cause

/-- The places of the files among entries below `dir`. Every directory has to be read. -/
def filesAmong (tree : Tree) (dir : Path) :
    List (Location × Node) → Except FileOpError (List Location)
  | [] => .ok []
  | (rel, .file _) :: rest => (tree.filesAmong dir rest).map (rel :: ·)
  | (rel, .directory) :: rest =>
    match tree.lookup (pathIn dir rel) with
    | .error e => .error (.walk dir (pathIn dir rel) e)
    | .ok _ => tree.filesAmong dir rest

/-- The places of the files at or below a path, relative to it, in order. -/
def walk (tree : Tree) (dir : Path) : Except FileOpError (List Location) :=
  match tree.lookup dir with
  | .error e => .error (.walk dir dir e)
  | .ok (loc, _) => tree.filesAmong dir (tree.subtree loc)

/-- The locations of the Go files at or below a path, relative to it, in order. -/
def goFilesIn (tree : Tree) (dir : Path) : Except FileOpError (List Location) :=
  (tree.walk dir).map fun files => files.filter fun rel => (pathIn dir rel).isGoFile

/-- The Go files at or below a path. -/
def goFiles (tree : Tree) (dir : Path) : Except FileOpError (List Path) :=
  (tree.goFilesIn dir).map fun files => files.map (pathIn dir)

end Tree

end GoSplit
