import GoSplit.Bucket
import GoSplit.Pruner

/-!
Writing the buckets of a source. Every bucket that holds a declaration becomes a file
with the imports it uses, and only a text that parses is written. The first file
carries the package comment; a file that an earlier run left for a bucket that is empty
now is removed.
-/

namespace GoSplit

structure WrittenBucket where
  bucket : Bucket
  path : Path
  declCount : Nat
  importsKept : Nat
  importsPruned : Nat
  deriving DecidableEq, Repr

structure BucketWriter where
  classifier : Classifier
  pruner : Pruner
  output : Path
  /-- Name of the source file without its extension. -/
  stem : Text

namespace BucketWriter

def forInput (classifier : Classifier) (pruner : Pruner) (output input : Path) : BucketWriter :=
  ⟨classifier, pruner, output, input.stem.getD "split".toList⟩

def fileName (writer : BucketWriter) (bucket : Bucket) : Text := bucket.fileName writer.stem

def path (writer : BucketWriter) (bucket : Bucket) : Path :=
  writer.output.join (writer.fileName bucket)

/-- A text that does not parse cannot be rendered; any other fault is the pruner's. -/
def pruneFault (file : Text) : PruneError → SplitError
  | .parse error => .serialization file error.message
  | .tool tool message => .prune file (PruneError.tool tool message).message

/-- Renders, prunes, checks and writes one file. -/
def write (writer : BucketWriter) (bucket : Bucket) (draft : Draft) : RunM WrittenBucket := do
  let name := writer.fileName bucket
  let path := writer.path bucket
  let text ← SiteM.mapError (pruneFault name)
    (writer.pruner.prune name (draft.render writer.classifier))
  let file ← SiteM.lift
    ((SourceFile.parse name text).mapError fun e => .serialization name e.message)
  let kept := file.importSpecs.length
  let listed := draft.imports.length
  Site.change path fun tree => tree.writeText path text
  SiteM.note
    s!"wrote {path.str} ({draft.decls.length} decls, {kept} of {listed} imports kept)"
  return ⟨bucket, path, draft.decls.length, kept, listed - kept⟩

def writeEach (writer : BucketWriter) (file : SourceFile) (withPackageDoc : Bool) :
    List Bucket → RunM (List WrittenBucket)
  | [] => pure []
  | bucket :: rest => do
    let written ← writer.write bucket (bucket.draft withPackageDoc file)
    return written :: (← writer.writeEach file false rest)

def removeStale (writer : BucketWriter) (file : SourceFile) : List Bucket → RunM Unit
  | [] => pure ()
  | bucket :: rest => do
    let path := writer.path bucket
    if (bucket.members file).isEmpty && (← SiteM.look fun tree => tree.isFile path) then
      SiteM.note s!"removing stale {path.str}"
      Site.change path fun tree => tree.removeFile path
    writer.removeStale file rest

/-- Writes every bucket that holds a declaration. -/
def writeAll (writer : BucketWriter) (file : SourceFile) : RunM (List WrittenBucket) := do
  Site.makeDirs writer.output
  let written ← writer.writeEach file true (Bucket.nonEmpty file)
  writer.removeStale file Bucket.all
  return written

end BucketWriter

end GoSplit
