import GoSplit.SourceFile.Fault
import GoSplit.Tree

/-!
Why a run stops. An error says which step failed and on what; the exit status follows
from the step, and so does whether the output may have been written in part.
-/

namespace GoSplit

/-- A file that could not be shaded. -/
structure ShadeFailure where
  path : Path
  message : String
  deriving DecidableEq, Repr

def ShadeFailure.text (f : ShadeFailure) : String := s!"{f.path.str}: {f.message}"

inductive SplitError where
  /-- The input cannot be read. -/
  | input (path : Path) (cause : IoError)
  /-- A source does not parse. -/
  | parse (error : ParseError)
  /-- A generated file is no valid source. -/
  | serialization (file : Text) (message : String)
  /-- Unused imports could not be found. -/
  | prune (file : Text) (message : String)
  | manifest (message : String)
  /-- A command of the toolchain failed. -/
  | toolchain (command : Text) (message : String)
  /-- Modules were left behind or went missing. -/
  | relocation (problems : List String)
  | shading (failures : List ShadeFailure)
  | io (path : Path) (cause : IoError)
  | config (message : String)
  deriving DecidableEq, Repr

namespace SplitError

def separated (parts : List String) : String := "; ".intercalate parts

/-- The first three failures and how many more there are. -/
def summary (failures : List ShadeFailure) : String :=
  let shown := (failures.take 3).map ShadeFailure.text
  let more := failures.length - 3
  separated (if more = 0 then shown else shown ++ [s!"and {more} more"])

def message : SplitError → String
  | .input path cause => s!"cannot read input {path.str}: {cause.message}"
  | .parse error => s!"parse error: {error.message}"
  | .serialization file message => s!"cannot render {file.str}: {message}"
  | .prune file message => s!"cannot prune imports of {file.str}: {message}"
  | .manifest message => s!"vendor manifest error: {message}"
  | .toolchain command message => s!"`{command.str}` failed: {message}"
  | .relocation problems => s!"dependency relocation incomplete: {separated problems}"
  | .shading failures =>
    s!"import shading failed for {failures.length} file(s): {summary failures}"
  | .io path cause => s!"I/O error on {path.str}: {cause.message}"
  | .config message => s!"configuration error: {message}"

/-- Two for bad input or settings, three for output that cannot be generated, four
for dependencies, five for a tree that is shaded in part, one for the file system. -/
def exitStatus : SplitError → Nat
  | .input _ _ | .parse _ | .config _ => 2
  | .serialization _ _ | .prune _ _ => 3
  | .manifest _ | .toolchain _ _ | .relocation _ => 4
  | .shading _ => 5
  | .io _ _ => 1

/-- Whether the output may have been written in part. -/
def leavesPartialOutput : SplitError → Bool
  | .input _ _ | .parse _ | .config _ => false
  | _ => true

end SplitError

end GoSplit
