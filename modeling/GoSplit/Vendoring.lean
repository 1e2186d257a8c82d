import GoSplit.Manifest.File
import GoSplit.Relocation
import GoSplit.Toolchain

/-!
Vendoring: the toolchain copies the dependencies into a workspace, and from there they
are moved to the private subtree. The workspace is removed however this ends.
-/

namespace GoSplit

/-- A directory for the time of vendoring. -/
structure Workspace where
  dir : Path
  deriving DecidableEq, Repr

namespace Workspace

def vendored (workspace : Workspace) : Path := workspace.dir.join "vendor".toList

def manifestPath (workspace : Workspace) : Path := workspace.vendored.join Manifest.fileName

/-- An error with the path it arose at. -/
def atPath (path : Path) (e : IoError) : IoError :=
  .other s!"{e.message} at path {(Text.Quoted.encode path.text).str}"

/-- The absolute path of a workspace in a directory; `suffix` sets it apart from other
workspaces. -/
def pathIn (base : Text) (workDir : Path) (suffix : Text) : Path :=
  ((Path.mk base).join workDir.text).join (".go-splitter-vendor-".toList ++ suffix)

def create (workDir : Path) (suffix : Text) : RunM Workspace := do
  let base ← SiteM.look Tree.base
  let dir := pathIn base workDir suffix
  SiteM.files (FileM.mapError (fun e => .io workDir (atPath dir e))
    (FileM.change fun tree => tree.makeDir dir))
  SiteM.note s!"vendor workspace at {dir.str}"
  return ⟨dir⟩

/-- Removes the workspace. -/
def close (workspace : Workspace) : RunM Unit :=
  SiteM.files (FileM.mapError (fun e => .io workspace.dir (atPath workspace.dir e))
    (Tree.removeDirs workspace.dir))

end Workspace

/-- Vendors into a workspace and moves the modules from there. -/
def vendorFrom (toolchain : Toolchain) (workspace : Workspace) (workDir thirdParty : Path) :
    RunM RelocationReport := do
  toolchain.vendor workDir workspace.vendored
  let manifest ← SiteM.lift (← SiteM.look fun tree => Manifest.load tree workspace.manifestPath)
  SiteM.note
    s!"manifest lists {manifest.modules.length} modules, {manifest.packages.length} packages"
  relocate manifest workspace.vendored thirdParty

/-- Moves the dependencies of the module in `workDir` to the private subtree. A
workspace that cannot be removed matters only when all else went well. -/
def vendorDependencies (toolchain : Toolchain) (suffix : Text) (workDir thirdParty : Path) :
    RunM RelocationReport := do
  let workspace ← Workspace.create workDir suffix
  match ← SiteM.attempt (vendorFrom toolchain workspace workDir thirdParty) with
  | .ok report =>
    workspace.close
    return report
  | .error e =>
    let _ ← SiteM.attempt workspace.close
    throw e

end GoSplit
