import GoSplit.Manifest
import GoSplit.Site
import GoSplit.Text.Quoted
import GoSplit.Tree.Move

/-!
Moving vendored modules into the private subtree. The old subtree is dropped first.
Modules are moved in order of their depth, so that a module takes along the modules
nested in it, and afterwards every listed package has to have left the one tree and to
be in the other.
-/

namespace GoSplit

inductive RelocationOutcome where
  | moved
  /-- Carried along with an enclosing module. -/
  | alreadyRelocated
  /-- Listed without packages, so nothing was vendored. -/
  | notMaterialized
  /-- Listed with packages but in neither tree. -/
  | missing
  | failed (cause : FileOpError)
  deriving DecidableEq, Repr

def RelocationOutcome.text : RelocationOutcome → String
  | .moved => "Moved"
  | .alreadyRelocated => "AlreadyRelocated"
  | .notMaterialized => "NotMaterialized"
  | .missing => "Missing"
  | .failed cause => s!"Failed({(Text.Quoted.encode cause.message.toList).str})"

structure RelocatedModule where
  path : Text
  outcome : RelocationOutcome
  deriving DecidableEq, Repr

structure RelocationReport where
  modules : List RelocatedModule
  /-- Pairs of a nested module and its parent that the manifest lists in this order. -/
  orderingViolations : List (Text × Text)
  deriving DecidableEq, Repr

def RelocationReport.moved (report : RelocationReport) : Nat :=
  report.modules.countP fun m => m.outcome = .moved

namespace Relocation

/-- Moves one module. -/
def moveModule (vendored thirdParty : Path) (m : Manifest.Module) : RunM RelocationOutcome := do
  let source := vendored.below m.path
  let target := thirdParty.below m.path
  if ← SiteM.look fun tree => tree.isDir source then
    match ← SiteM.attempt (SiteM.files (Tree.moveDir source target)) with
    | .ok () => return .moved
    | .error cause => return .failed cause
  else if ← SiteM.look fun tree => tree.isDir target then return .alreadyRelocated
  else if !m.isMaterialized then return .notMaterialized
  else return .missing

def moveModules (vendored thirdParty : Path) :
    List Manifest.Module → RunM (List RelocatedModule)
  | [] => pure []
  | m :: rest => do
    let outcome ← moveModule vendored thirdParty m
    SiteM.note s!"relocate {m.path.str}: {outcome.text}"
    return ⟨m.path, outcome⟩ :: (← moveModules vendored thirdParty rest)

def failureOf (m : RelocatedModule) : Option String :=
  match m.outcome with
  | .failed cause => some s!"{m.path.str}: {cause.message}"
  | _ => none

/-- What is wrong with a package after the moves. -/
def packageProblems (tree : Tree) (vendored thirdParty : Path) (package : Text) : List String :=
  (if tree.isDir (vendored.below package) then [s!"{package.str} left in vendor directory"] else [])
    ++ (if tree.isDir (thirdParty.below package) then []
        else [s!"{package.str} missing from {thirdParty.str}"])

def dropOld (thirdParty : Path) : RunM Unit := do
  if ← SiteM.look fun tree => tree.exists? thirdParty then
    SiteM.note s!"replacing stale {thirdParty.str}"
    Site.removeDirs thirdParty

def noteViolations : List (Text × Text) → RunM Unit
  | [] => pure ()
  | (child, parent) :: rest => do
    SiteM.note s!"manifest lists {child.str} before its parent {parent.str}"
    noteViolations rest

end Relocation

/-- Moves every module of a manifest from the vendored tree to the private subtree. -/
def relocate (manifest : Manifest) (vendored thirdParty : Path) : RunM RelocationReport := do
  Relocation.dropOld thirdParty
  Site.makeDirs thirdParty
  Relocation.noteViolations manifest.orderingViolations
  let modules ← Relocation.moveModules vendored thirdParty manifest.relocationOrder
  let tree ← SiteM.look id
  let problems := modules.filterMap Relocation.failureOf
    ++ manifest.packages.flatMap (Relocation.packageProblems tree vendored thirdParty)
  if problems.isEmpty then return ⟨modules, manifest.orderingViolations⟩
  else throw (.relocation problems)

end GoSplit
