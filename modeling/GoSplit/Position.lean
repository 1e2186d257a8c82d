import GoSplit.Text

/-!
Line and column positions. A file set keeps, for every file added to it, the name
and the offsets at which its lines start; a handle stays valid while other files
are added. Lines and columns count from one, columns in bytes.
-/

namespace GoSplit

structure Position where
  filename : Text
  line : Nat
  column : Nat
  deriving DecidableEq, Repr

def Position.message (p : Position) : String :=
  s!"{p.filename.str}:{p.line}:{p.column}"

/-- Offsets right after the line breaks of a text that stands at byte `offset`. -/
def lineStartsFrom (offset : Nat) : Text → List Nat
  | [] => []
  | c :: cs =>
    if c = '\n' then (offset + 1) :: lineStartsFrom (offset + 1) cs
    else lineStartsFrom (offset + c.utf8Size) cs

namespace FileSet

structure Entry where
  name : Text
  size : Nat
  /-- Offset at which each line starts, the first at zero. -/
  lineStarts : List Nat
  deriving DecidableEq, Repr

def Entry.ofSource (name src : Text) : Entry :=
  ⟨name, src.byteLength, 0 :: lineStartsFrom 0 src⟩

/-- An offset past the end counts as the end. The line is the last one that starts
at or before the offset. -/
def Entry.position (entry : Entry) (offset : Nat) : Position :=
  let offset := min offset entry.size
  let started := entry.lineStarts.takeWhile (· ≤ offset)
  ⟨entry.name, started.length, offset - started.getLastD 0 + 1⟩

/-- Handle of a file in the set it was added to. -/
structure Handle where
  index : Nat
  deriving DecidableEq, Repr

end FileSet

structure FileSet where
  files : List FileSet.Entry
  deriving DecidableEq, Repr

namespace FileSet

def empty : FileSet := ⟨[]⟩

def size (set : FileSet) : Nat := set.files.length

def add (set : FileSet) (name src : Text) : Handle × FileSet :=
  (⟨set.files.length⟩, ⟨set.files ++ [Entry.ofSource name src]⟩)

def name? (set : FileSet) (file : Handle) : Option Text :=
  set.files[file.index]?.map (·.name)

/-- The position of an offset; a handle that names no file of the set gives the
position nothing has. -/
def position (set : FileSet) (file : Handle) (offset : Nat) : Position :=
  match set.files[file.index]? with
  | some entry => entry.position offset
  | none => ⟨"<unknown>".toList, 0, 0⟩

end FileSet

/-- The position of an offset in a text on its own. -/
def Position.locate (name src : Text) (offset : Nat) : Position :=
  (FileSet.Entry.ofSource name src).position offset

end GoSplit
