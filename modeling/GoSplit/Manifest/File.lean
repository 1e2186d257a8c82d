import GoSplit.Error
import GoSplit.Manifest
import GoSplit.Tree.Files

/-!
Reading a manifest from a tree.
-/

namespace GoSplit.Manifest

def fileName : Text := "modules.txt".toList

/-- The manifest in a file; both a file that cannot be read and one that is malformed
are named in the error. -/
def load (tree : Tree) (path : Path) : Except SplitError Manifest :=
  match tree.readText path with
  | .error e => .error (.manifest s!"cannot read {path.str}: {e.message}")
  | .ok text => (parse text).mapError fun e => .manifest s!"{path.str}: {e.message}"

end GoSplit.Manifest
