import GoSplit.Tree.Files

/-!
The debug log: a file that is open during a whole run and gets a line, stamped with the
time, for every note. Lines reach the file at once, wherever it is by then.
-/

namespace GoSplit.Log

/-- A number right-aligned in a field. -/
def alignRight (width : Nat) (fill : Char) (t : Text) : Text :=
  List.replicate (width - t.length) fill ++ t

/-- Milliseconds as seconds with three places. -/
def seconds (elapsed : Nat) : Text :=
  Text.ofNat (elapsed / 1000) ++ '.' :: alignRight 3 '0' (Text.ofNat (elapsed % 1000))

/-- The line for a note. -/
def line (elapsed : Nat) (note : Text) : Text :=
  '[' :: '+' :: alignRight 9 ' ' (seconds elapsed) ++ "s] ".toList ++ note ++ ['\n']

/-- Opens a file for appending, and creates it if need be. -/
def start (tree : Tree) (path : Path) : Except IoError Tree := do
  let tree ← match tree.lookup path with
    | .ok (_, .file _) => pure tree
    | _ => tree.writeBytes path ByteArray.empty
  return { tree with opened := some (← tree.locate path) }

/-- Closes the file. -/
def close (tree : Tree) : Tree := { tree with opened := none }

end GoSplit.Log
