import GoSplit.Site

/-!
Other programs, as far as a run can see them: started in a directory with arguments and
input, a program may change the tree, writes output and error text, and ends with a
status.
-/

namespace GoSplit

structure Completion where
  status : Nat
  output : Content
  errors : Text

abbrev Program := Path → List Text → Content → StateM Tree Completion

/-- The programs that can be started, by name. -/
structure Programs where
  find? : Text → Option Program

namespace Programs

def none : Programs := ⟨fun _ => Option.none⟩

/-- Why a program cannot be started that is not among those that can. A name with a slash
in it is a path from the directory; no file of a tree can be started, nor can a
directory. Other names are looked for where programs are, and have at most 255 bytes. -/
def refusal (tree : Tree) (dir : Path) (name : Text) : IoError :=
  if name.contains '/' then
    match tree.lookup (dir.join name) with
    | .error e => e
    | .ok _ => .permissionDenied
  else if Tree.isDots name then .permissionDenied
  else if 255 < name.byteLength then .nameTooLong
  else .notFound

/-- Starts a program in a directory and waits for it. The directory is entered before
the program is looked for, and nothing is tried with the character zero in a word. -/
def launch (programs : Programs) (name : Text) (dir : Path) (args : List Text) (input : Content) :
    SiteM IoError Completion := do
  if (name :: dir.text :: args).any Text.hasZero then throw .zeroInCommand
  match ← SiteM.look fun tree => tree.lookup dir with
  | .error e => throw e
  | .ok (_, .file _) => throw .notDirectory
  | .ok (_, .directory) =>
    match programs.find? name with
    | Option.none => throw (← SiteM.look fun tree => refusal tree dir name)
    | some program =>
      SiteM.files (ExceptT.mk (do return .ok (← program dir args input)))

end Programs

end GoSplit
