import GoSplit.CommandLine.Run

/-!
The program. It takes the working directory as its tree, runs the command line on it,
and carries the changes back. It has no other programs to start: a run that asks for
one is told that there is none.
-/

namespace GoSplit.WorkingDirectory

/-- The files and directories below the working directory. -/
def read : IO Tree := do
  let root ← IO.currentDir
  let above := root.components.length
  let mut tree := Tree.empty root.toString.toList
  for path in ← root.walkDir do
    let loc : Location := (path.components.drop above).map String.toList
    let node ←
      if ← path.isDir then pure Node.directory
      else pure (Node.file (← IO.FS.readBinFile path))
    tree := tree.place loc node
  return tree

/-- Makes the working directory, which is as `before`, look like `after`. -/
def write (before after : Tree) : IO Unit := do
  let root ← IO.currentDir
  let place (loc : Location) := loc.foldl (fun path name => path / name.str) root
  let changed := after.changedSince before
  let replaced := (changed.map (·.1)).filter fun loc => (before.find? loc).isSome
  for loc in after.removedSince before ++ replaced do
    let path := place loc
    if ← path.isDir then IO.FS.removeDirAll path
    else if ← path.pathExists then IO.FS.removeFile path
  for (loc, node) in changed do
    match node with
    | .directory => IO.FS.createDirAll (place loc)
    | .file content =>
      IO.FS.createDirAll (place loc.dropLast)
      IO.FS.writeBinFile (place loc) content

/-- Six letters that no other run is likely to have. -/
def randomSuffix : IO Text :=
  (List.range 6).mapM fun _ => do return Char.ofNat ('a'.toNat + (← IO.rand 0 25))

/-- Runs the command line in the working directory. -/
def run (args : List String) : IO UInt32 := do
  let before ← read
  let log ← IO.getEnv "GO_SPLITTER_DEBUG_LOG"
  let env : CommandLine.Environment :=
    ⟨Programs.none, log.map Path.ofString, ← randomSuffix, 0⟩
  let outcome := CommandLine.run env (args.map String.toList) before
  write before outcome.tree
  IO.print outcome.output.str
  IO.eprint outcome.errors.str
  return outcome.status.toUInt32

end GoSplit.WorkingDirectory

def main (args : List String) : IO UInt32 := GoSplit.WorkingDirectory.run args
