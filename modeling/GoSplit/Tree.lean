import GoSplit.Path

/-!
File trees. A tree is a finite map from locations below its root to files and
directories; the root itself is always a directory. The operating system's part of
the picture is small: the absolute name of the root, the places where other file
systems are mounted, the places where it refuses to create or change an entry, and the
one file that is open.
-/

namespace GoSplit

inductive IoError where
  | notFound
  | alreadyExists
  | notDirectory
  | isDirectory
  | invalidArgument
  | notEmpty
  | busy
  | crossDevice
  | permissionDenied
  | nameTooLong
  /-- A name with the character zero in it. -/
  | zeroInName
  /-- The character zero in the name, an argument or the directory of a program. -/
  | zeroInCommand
  /-- Bytes that are no UTF-8 where text was wanted. -/
  | invalidText
  | other (message : String)
  deriving DecidableEq, Repr

def IoError.message : IoError → String
  | .notFound => "No such file or directory (os error 2)"
  | .alreadyExists => "File exists (os error 17)"
  | .notDirectory => "Not a directory (os error 20)"
  | .isDirectory => "Is a directory (os error 21)"
  | .invalidArgument => "Invalid argument (os error 22)"
  | .notEmpty => "Directory not empty (os error 39)"
  | .busy => "Device or resource busy (os error 16)"
  | .crossDevice => "Invalid cross-device link (os error 18)"
  | .permissionDenied => "Permission denied (os error 13)"
  | .nameTooLong => "File name too long (os error 36)"
  | .zeroInName => "file name contained an unexpected NUL byte"
  | .zeroInCommand => "nul byte found in provided data"
  | .invalidText => "stream did not contain valid UTF-8"
  | .other message => message

/-- The bytes of a file. -/
abbrev Content := ByteArray

namespace Content

def ofText (t : Text) : Content := t.str.toUTF8

/-- The text of a file, when its bytes are UTF-8. -/
def text? (content : Content) : Option Text := (String.fromUTF8? content).map String.toList

theorem text?_ofText (t : Text) : text? (ofText t) = some t := by
  have decoded : String.fromUTF8? (ofText t) = some (Text.str t) := by
    simp only [String.fromUTF8?, ofText, String.toUTF8_eq_toByteArray, dif_pos t.str.isValidUTF8]
    rfl
  simp [text?, decoded, Text.str]

end Content

/-- Names from the root of a tree down to an entry. -/
abbrev Location := List Text

namespace Location

/-- Order by names, a directory before what lies in it. -/
def le : Location → Location → Bool
  | [], _ => true
  | _ :: _, [] => false
  | a :: as, b :: bs => if a = b then le as bs else Text.le a b

def text (loc : Location) : Text := Text.joinWith ['/'] loc

/-- Whether two locations are the same. Most that differ do so in length. -/
def same (a b : Location) : Bool := a.length == b.length && a == b

@[simp] theorem same_eq_true {a b : Location} : a.same b = true ↔ a = b := by
  constructor
  · intro h
    simp only [same, Bool.and_eq_true, beq_iff_eq] at h
    exact h.2
  · rintro rfl
    simp [same]

/-- Whether a location is at or below another. -/
def isWithin (loc top : Location) : Bool := top.isPrefixOf loc

/-- Whether a location is properly below another. -/
def isBelow (loc top : Location) : Bool := loc.isWithin top && !loc.same top

/-- Where a location comes to be when `source` moves to `target` with all below it. -/
def moved (source target loc : Location) : Location :=
  match source.isPrefixOf? loc with
  | some rest => target ++ rest
  | none => loc

end Location

inductive Node where
  | directory
  | file (content : Content)

instance : DecidableEq Node
  | .directory, .directory => .isTrue rfl
  | .directory, .file _ => .isFalse nofun
  | .file _, .directory => .isFalse nofun
  | .file a, .file b =>
    if h : a.data = b.data then .isTrue (congrArg Node.file (ByteArray.ext h))
    else .isFalse fun e => h (congrArg ByteArray.data (Node.file.inj e))

structure Tree where
  entries : List (Location × Node)
  /-- Absolute name of the root. -/
  base : Text
  /-- Directories on file systems of their own. -/
  mounts : List Location
  /-- Where the operating system refuses to create or change an entry, and why. -/
  refuses : Location → Option IoError
  /-- The file that is open for appending: it stays so where it moves, until it is
  removed. -/
  opened : Option Location

namespace Tree

def empty (base : Text) : Tree := ⟨[], base, [], fun _ => none, none⟩

def find? (tree : Tree) (loc : Location) : Option Node :=
  if loc = [] then some .directory
  else (tree.entries.find? fun e => e.1.same loc).map (·.2)

/-- Enters or replaces a single entry; a file that is replaced stays the same file. -/
def put (tree : Tree) (loc : Location) (node : Node) : Tree :=
  { tree with entries := (loc, node) :: tree.entries.filter fun e => !e.1.same loc }

/-- Takes away an entry and everything below it. -/
def remove (tree : Tree) (loc : Location) : Tree :=
  { tree with
    entries := tree.entries.filter fun e => !e.1.isWithin loc
    opened := tree.opened.filter fun file => !file.isWithin loc }

/-- Takes away everything below an entry and keeps the entry. -/
def clear (tree : Tree) (loc : Location) : Tree :=
  { tree with
    entries := tree.entries.filter fun e => !e.1.isBelow loc
    opened := tree.opened.filter fun file => !file.isBelow loc }

/-- Moves an entry with everything below it. -/
def move (tree : Tree) (source target : Location) : Tree :=
  { tree with
    entries := tree.entries.map fun (loc, node) => (Location.moved source target loc, node)
    opened := tree.opened.map (Location.moved source target) }

/-- An entry and what lies below it, by location relative to it, each directory
before its contents and names in order. -/
def subtree (tree : Tree) (loc : Location) : List (Location × Node) :=
  let found := tree.entries.filterMap fun (key, node) =>
    (loc.isPrefixOf? key).map fun rest => (rest, node)
  found.mergeSort fun a b => Location.le a.1 b.1

/-- The names in a directory, in order. -/
def namesIn (tree : Tree) (loc : Location) : List Text :=
  let names := tree.entries.filterMap fun (key, _) =>
    match loc.isPrefixOf? key with
    | some [name] => some name
    | _ => none
  names.mergeSort Text.le

/-- Adds to the file that is open, if there is one. -/
def append (tree : Tree) (addition : Text) : Tree :=
  match tree.opened with
  | none => tree
  | some loc =>
    match tree.find? loc with
    | some (.file content) => tree.put loc (.file (content ++ Content.ofText addition))
    | _ => tree

/-- Enters an entry together with the directories above it. -/
def place (tree : Tree) (loc : Location) (node : Node) : Tree :=
  let tree := (List.range loc.length).foldl (fun tree n =>
    let parent := loc.take n
    if (tree.find? parent).isSome then tree else tree.put parent .directory) tree
  match node, tree.find? loc with
  | .directory, some .directory => tree
  | _, _ => tree.put loc node

/-- The file system a location lies on, by the mount nearest above it. -/
def device (tree : Tree) (loc : Location) : Location :=
  (tree.mounts.filter fun mount => mount.isPrefixOf loc).foldl
    (fun nearest mount => if nearest.length < mount.length then mount else nearest) []

/-- The entries that are new or different compared with an earlier tree. -/
def changedSince (tree earlier : Tree) : List (Location × Node) :=
  tree.entries.filter fun (loc, node) => earlier.find? loc != some node

/-- The locations of an earlier tree that are gone, in the order of their text. -/
def removedSince (tree earlier : Tree) : List Location :=
  ((earlier.entries.map (·.1)).filter fun loc => (tree.find? loc).isNone).mergeSort
    fun a b => Text.le a.text b.text

end Tree

end GoSplit
