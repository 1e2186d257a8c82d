import GoSplit.Config
import GoSplit.Error
import GoSplit.Tree.Files

/-!
Reading settings from a tree: from a file that was named, or from the one with the
usual name if a directory has it.
-/

namespace GoSplit.Config

def fileName : Text := "go-splitter.toml".toList

/-- The settings in a file; both a file that cannot be read and one that is invalid are
named in the error. -/
def load (tree : Tree) (path : Path) : Except SplitError Config :=
  match tree.readText path with
  | .error e => .error (.config s!"cannot read {path.str}: {e.message}")
  | .ok text => (ofToml text).mapError fun e => .config s!"{path.str}: {e.message}"

/-- The settings file of a directory, if it has one. -/
def discover (tree : Tree) (dir : Path) : Except SplitError (Option Config) :=
  let path := dir.join fileName
  if tree.isFile path then (load tree path).map some else .ok none

end GoSplit.Config
