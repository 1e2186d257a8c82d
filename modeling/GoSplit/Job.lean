import GoSplit.Bucket.Writer
import GoSplit.Config.File
import GoSplit.Shading.Tree
import GoSplit.Vendoring

/-!
A whole run. A source is read, split into its buckets and written as a module of its
own; its dependencies are vendored into the private subtree; every external import is
shaded; and the toolchain tidies the result. Nothing is written before the source has
been parsed. What goes wrong in the end with a complete tree is only a warning.
-/

namespace GoSplit

structure SplitReport where
  input : Path
  package : Text
  layout : Layout
  buckets : List WrittenBucket
  /-- None when the source imports nothing external. -/
  relocation : Option RelocationReport
  shading : ShadeReport
  missingPackages : List MissingPackage
  warnings : List String
  deriving DecidableEq, Repr

/-- What a run works with. -/
structure Job where
  config : Config
  toolchain : Toolchain
  pruner : Pruner
  /-- Sets the workspace of this run apart from others. -/
  suffix : Text

/-- The pruner that the settings choose. -/
def Config.prunerFrom (config : Config) (programs : Programs) : Pruner :=
  match config.pruner with
  | .usage => Pruner.usage config.classifier
  | .goimports => Pruner.goimports programs config.goimportsBinary

namespace Job

def classifier (job : Job) : Classifier := job.config.classifier

def sayIfVerbose (job : Job) (line : String) : RunM Unit := do
  if job.config.verbose then SiteM.say line

def sayEach (job : Job) : List String → RunM Unit
  | [] => pure ()
  | line :: rest => do
    job.sayIfVerbose line
    job.sayEach rest

/-- A source that parses, with the layout its package gives. -/
structure Source where
  package : Text
  layout : Layout
  file : SourceFile

def census (file : SourceFile) : String :=
  let count (bucket : Bucket) : Nat := (bucket.members file).length
  s!"{count .types} types, {count .functions} functions, {count .methods} methods, "
    ++ s!"{file.importSpecs.length} imports"

/-- Reads and parses the input. -/
def readSource (job : Job) (input : Path) : RunM Source := do
  let src ← SiteM.lift (← SiteM.look fun tree => (tree.readText input).mapError (.input input))
  let package ← SiteM.lift ((SourceFile.parsePackageName input.text src).mapError .parse)
  let layout := job.config.layout package
  job.sayIfVerbose s!"🚀 Splitting {input.str} into {layout.projectName.str}"
  let file ← SiteM.lift ((SourceFile.parse input.text src).mapError .parse)
  SiteM.note s!"classified {input.str}: {census file}"
  job.sayIfVerbose s!"  📦 {census file}"
  return ⟨package, layout, file⟩

/-- Writes the buckets. -/
def writeBuckets (job : Job) (input : Path) (source : Source) : RunM (List WrittenBucket) := do
  let writer := BucketWriter.forInput job.classifier job.pruner source.layout.root input
  let written ← writer.writeAll source.file
  job.sayEach (written.map fun b =>
    s!"  📝 {b.path.str} ({b.declCount} decls, {b.importsPruned} imports pruned)")
  return written

def needsVendoring (job : Job) (source : Source) : Bool :=
  source.file.importSpecs.any fun spec =>
    job.classifier.classify spec.path source.layout.importPrefix != .internal

/-- Fills the private subtree, or removes an old one that is not needed any more. -/
def vendor (job : Job) (input : Path) (source : Source) : RunM (Option RelocationReport) := do
  let thirdParty := source.layout.thirdParty
  if job.needsVendoring source then
    job.sayIfVerbose s!"  📥 Vendoring dependencies into {thirdParty.str}"
    return some (← vendorDependencies job.toolchain job.suffix job.config.workDir thirdParty)
  else
    SiteM.note s!"{input.str} has no external imports, skipping vendoring"
    if ← SiteM.look fun tree => tree.exists? thirdParty then
      SiteM.note s!"removing stale {thirdParty.str}"
      Site.removeDirs thirdParty
    return none

/-- Shades a tree and stops if a file could not be shaded. -/
def shade (job : Job) (root : Path) (space : Text) : RunM ShadeReport := do
  let shader : Shader := ⟨job.classifier, space⟩
  SiteM.lift (← shader.shadeTree job.config.shadePolicy root).result

def missing (job : Job) (layout : Layout) : RunM (List MissingPackage) := do
  let shader : Shader := ⟨job.classifier, layout.importPrefix⟩
  SiteM.lift (← SiteM.look fun tree => shader.missingPackages tree layout.root layout.thirdParty)

/-- Tidies the module; a failure becomes a warning. -/
def tidy (job : Job) (root : Path) : RunM (List String) := do
  if !job.config.tidy then return []
  match ← SiteM.attempt (job.toolchain.tidy root) with
  | .ok () => return []
  | .error e => return [e.message]

def orderWarning (pair : Text × Text) : String :=
  s!"manifest lists {pair.1.str} before its parent module {pair.2.str}"

def missingWarning (m : MissingPackage) : String :=
  s!"{m.importer.str} imports {m.importPath.str} which is not vendored"

def orderWarnings (relocation : Option RelocationReport) : List String :=
  match relocation with
  | some report => report.orderingViolations.map orderWarning
  | none => []

/-- Splits a source into a module of its own. -/
def split (job : Job) (input : Path) : RunM SplitReport := do
  let source ← job.readSource input
  let layout := source.layout
  let buckets ← job.writeBuckets input source
  job.toolchain.init layout.root layout.projectName
  let relocation ← job.vendor input source
  job.sayIfVerbose s!"  ✏️  Rewriting imports to {layout.importPrefix.str}"
  let shading ← job.shade layout.root layout.importPrefix
  let missingPackages ← job.missing layout
  let untidy ← job.tidy layout.root
  let warnings :=
    orderWarnings relocation ++ missingPackages.map missingWarning ++ untidy
  job.sayEach (warnings.map fun w => s!"  ⚠️  {w}")
  let elapsed := (← get).elapsed
  job.sayIfVerbose (s!"✨ Done: {buckets.length} files, "
    ++ s!"{shading.importsRewritten} imports shaded in {elapsed}ms")
  return { input, package := source.package, layout, buckets, relocation, shading,
           missingPackages, warnings }

end Job

end GoSplit
