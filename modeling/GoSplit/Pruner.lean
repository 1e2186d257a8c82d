import GoSplit.Program
import GoSplit.Pruning
import GoSplit.Text.Utf8

/-!
Leaving out unused imports as a step of a run: by the selectors in the file, or by an
external program that reads the file and writes it back.
-/

namespace GoSplit

inductive PruneError where
  | parse (error : ParseError)
  | tool (program : Text) (message : String)
  deriving DecidableEq, Repr

def PruneError.message : PruneError → String
  | .parse error => error.message
  | .tool program message => s!"{program.str}: {message}"

structure Pruner where
  /-- Given a file name and the text of the file, the text with the imports it uses. -/
  prune : Text → Text → SiteM PruneError Text

namespace Pruner

/-- Keeps the imports whose names are used. -/
def usage (classifier : Classifier) : Pruner where
  prune name src := do
    let file ← SiteM.lift ((SourceFile.parse name src).mapError .parse)
    let pruned := file.pruned
    let before := file.importSpecs.length
    let dropped := before - pruned.imports.length
    if dropped ≠ 0 then SiteM.note s!"pruned {dropped} of {before} imports from {name.str}"
    return pruned.render classifier

/-- Asks an external program, which has to answer with UTF-8. -/
def goimports (programs : Programs) (program : Text) : Pruner where
  prune name src := do
    let completion ←
      SiteM.mapError (fun e => .tool program s!"failed to start: {e.message}")
        (programs.launch program (Path.ofString ".") ["-srcdir".toList, name] (Content.ofText src))
    if completion.status ≠ 0 then throw (.tool program completion.errors.trim.str)
    match completion.output.text? with
    | some text => return text
    | none =>
      let fault := (Utf8.fault? completion.output).getD ⟨0, none⟩
      throw (.tool program s!"non UTF-8 output: {fault.message}")

end Pruner

end GoSplit
