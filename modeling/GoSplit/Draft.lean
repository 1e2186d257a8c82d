import GoSplit.ImportPath
import GoSplit.SourceFile

/-!
Files put together from the parts of a parsed one, and their text. Declarations are
written as they stood in the source; header, package clause and imports are laid out
anew. An empty line separates the parts, and the text ends with one line break.
-/

namespace GoSplit

structure Draft where
  header : Header
  /-- Whether the package comment is written. -/
  withPackageDoc : Bool
  package : Text
  imports : List ImportSpec
  /-- Declaration texts with the comments in front of them. -/
  decls : List Text
  deriving DecidableEq, Repr

namespace Draft

/-- The whole of a parsed file. -/
def ofSourceFile (file : SourceFile) : Draft :=
  ⟨file.header, true, file.package.name, file.importSpecs, file.decls.map Decl.text⟩

/-- An entry without the comments above it. -/
def specLine (spec : ImportSpec) : Text :=
  let name := match spec.localName with
    | some name => name ++ [' ']
    | none => []
  let comment := match spec.comment with
    | some comment => ' ' :: comment
    | none => []
  name ++ ImportPath.quote spec.path ++ comment

/-- The comments above an entry, line by line behind `indent`. -/
def docLines (indent : Text) (doc : Option Text) : Text :=
  match doc with
  | some doc => (Text.lines doc).flatMap fun line => indent ++ Text.trim line ++ ['\n']
  | none => []

/-- An import declaration of its own for one entry. -/
def singleImport (spec : ImportSpec) : Text :=
  docLines [] spec.doc ++ "import ".toList ++ specLine spec

/-- By path, then by local name, where none comes first. -/
def specLe (a b : ImportSpec) : Bool :=
  if a.path = b.path then
    match a.localName, b.localName with
    | none, _ => true
    | some _, none => false
    | some x, some y => Text.le x y
  else Text.le a.path b.path

def importGroup (specs : List ImportSpec) : Text :=
  (specs.mergeSort specLe).flatMap fun spec =>
    docLines ['\t'] spec.doc ++ '\t' :: specLine spec ++ ['\n']

/-- The imports other than those of C: one stands alone, several stand in a
parenthesised list with the internal ones first. -/
def importBlock (classifier : Classifier) : List ImportSpec → Option Text
  | [] => none
  | [spec] => some (singleImport spec)
  | specs =>
    let (external, internal) := specs.partition fun spec => classifier.isExternal spec.path
    let groups := ([internal, external].filter fun group => !group.isEmpty).map importGroup
    some ("import (\n".toList ++ Text.joinWith ['\n'] groups ++ [')'])

def packageClause (draft : Draft) : Text :=
  let doc := match draft.withPackageDoc, draft.header.packageDoc with
    | true, some doc => doc ++ ['\n']
    | _, _ => []
  doc ++ "package ".toList ++ draft.package

/-- The parts of the text in order. -/
def sections (classifier : Classifier) (draft : Draft) : List Text :=
  let constraints := draft.header.buildConstraints
  let (cgo, regular) := draft.imports.partition ImportSpec.isCgo
  draft.header.comments
    ++ (if constraints.isEmpty then [] else [Text.joinWith ['\n'] constraints])
    ++ [draft.packageClause]
    ++ cgo.map singleImport
    ++ (importBlock classifier regular).toList
    ++ draft.decls.map Text.trimEnd

def render (classifier : Classifier) (draft : Draft) : Text :=
  Text.joinWith ['\n', '\n'] (sections classifier draft) ++ ['\n']

end Draft

end GoSplit
