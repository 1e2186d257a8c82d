import GoSplit.Config
import GoSplit.Shading
import GoSplit.Site
import GoSplit.Tree.Move

/-!
Shading every Go file of a tree in place. The files at the top come first. A file
without an external import is left alone; a file that cannot be shaded is left as it is
and ends the walk or not, as the policy says. What the files then import from the
private namespace has to be there.
-/

namespace GoSplit

inductive FileShadeError where
  | read (cause : IoError)
  | source (error : ShadeError)
  | write (cause : IoError)
  deriving DecidableEq, Repr

def FileShadeError.message : FileShadeError → String
  | .read cause => s!"cannot read: {cause.message}"
  | .source error => error.message
  | .write cause => s!"cannot write: {cause.message}"

structure ShadeReport where
  filesVisited : Nat
  filesRewritten : Nat
  importsRewritten : Nat
  failures : List ShadeFailure
  /-- The walk ended at a failure. -/
  aborted : Bool
  rewrittenFiles : List Path
  deriving DecidableEq, Repr

namespace ShadeReport

def empty : ShadeReport := ⟨0, 0, 0, [], false, []⟩

/-- Adds the outcome for one file. -/
def record (report : ShadeReport) (path : Path) :
    Except FileShadeError (Option Nat) → ShadeReport
  | .ok none => { report with filesVisited := report.filesVisited + 1 }
  | .ok (some count) =>
    { report with
      filesVisited := report.filesVisited + 1
      filesRewritten := report.filesRewritten + 1
      importsRewritten := report.importsRewritten + count
      rewrittenFiles := report.rewrittenFiles ++ [path] }
  | .error e =>
    { report with
      filesVisited := report.filesVisited + 1
      failures := report.failures ++ [⟨path, e.message⟩] }

/-- The report itself when every file could be shaded. -/
def result (report : ShadeReport) : Except SplitError ShadeReport :=
  if report.failures.isEmpty then .ok report else .error (.shading report.failures)

end ShadeReport

/-- A shaded import whose package is not in the private subtree. -/
structure MissingPackage where
  importer : Path
  importPath : Text
  deriving DecidableEq, Repr

namespace MissingPackage

/-- By importer, then by import path. -/
def le (a b : MissingPackage) : Bool :=
  if a.importer = b.importer then Text.le a.importPath b.importPath else a.importer.le b.importer

end MissingPackage

/-- The Go files of a tree, those at the top first. -/
def Tree.filesToShade (tree : Tree) (root : Path) : Except SplitError (List Path) :=
  match tree.goFilesIn root with
  | .error e => .error (.io root (.other e.message))
  | .ok files =>
    let (top, nested) := files.partition fun rel => rel.length == 1
    .ok ((top ++ nested).map (Tree.pathIn root))

namespace Shader

/-- Shades a file in place and gives the number of imports moved, none if there are
none to move. -/
def shadeFile (shader : Shader) (path : Path) : SiteM FileShadeError (Option Nat) := do
  let src ← SiteM.lift (← SiteM.look fun tree => (tree.readText path).mapError .read)
  match ← SiteM.lift ((shader.shadeSource path.text src).mapError .source) with
  | none => return none
  | some shaded =>
    SiteM.files (FileM.mapError .write (FileM.change fun tree => tree.writeText path shaded.text))
    SiteM.note s!"shaded {shaded.rewritten} import(s) in {path.str}"
    return some shaded.rewritten

/-- Shades files in order and adds their outcomes to a report. -/
def shadeFiles (shader : Shader) (policy : ShadePolicy) (report : ShadeReport) :
    List Path → RunM ShadeReport
  | [] => pure report
  | path :: rest => do
    let outcome ← SiteM.attempt (shader.shadeFile path)
    let report := report.record path outcome
    if policy = .abort ∧ !outcome.isOk then return { report with aborted := true }
    else shader.shadeFiles policy report rest

def shadeTree (shader : Shader) (policy : ShadePolicy) (root : Path) : RunM ShadeReport := do
  let files ← SiteM.lift (← SiteM.look fun tree => tree.filesToShade root)
  let report ← shader.shadeFiles policy .empty files
  SiteM.note (s!"shading {root.str}: {report.filesVisited} visited, "
    ++ s!"{report.filesRewritten} rewritten, {report.failures.length} failed")
  return report

/-- Whether a path of the private namespace has its package in the private subtree. -/
def isVendored (shader : Shader) (tree : Tree) (thirdParty : Path) (path : Text) : Bool :=
  let rel := ((shader.space ++ ['/']).isPrefixOf? path).getD []
  !rel.isEmpty && tree.isDir (thirdParty.below rel)

def missingIn (shader : Shader) (tree : Tree) (thirdParty path : Path) :
    Except SplitError (List MissingPackage) := do
  let src ← (tree.readText path).mapError (.io path)
  let file ← (SourceFile.parse path.text src).mapError .parse
  let shaded := (file.importSpecs.map (·.path)).filter fun p => ImportPath.isUnder p shader.space
  return (shaded.filter fun p => !shader.isVendored tree thirdParty p).map (MissingPackage.mk path)

/-- The shaded imports of a tree whose packages are missing, each once and in order. -/
def missingPackages (shader : Shader) (tree : Tree) (root thirdParty : Path) :
    Except SplitError (List MissingPackage) := do
  let files ← tree.filesToShade root
  let missing ← files.mapM (shader.missingIn tree thirdParty)
  return (missing.flatten.mergeSort MissingPackage.le).eraseDups

end Shader

end GoSplit
