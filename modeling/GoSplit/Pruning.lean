import GoSplit.Draft
import GoSplit.Selector
import GoSplit.SourceFile.Parser

/-!
Leaving out the imports a file does not use. An import stays when it is used for its
effects, merged into the file, the import of C, or when one of the names it may go by
is the base of a selector that nothing in the declarations binds.
-/

namespace GoSplit

/-- Whether an import is needed where `used` are the package names in use. -/
def ImportSpec.isUsed (spec : ImportSpec) (used : List Text) : Bool :=
  spec.isBlank || spec.isDot || spec.isCgo ||
    match spec.localName with
    | some name => used.contains name
    | none => (ImportPath.candidateNames spec.path).any used.contains

namespace SourceFile

/-- Where the imports, or without any the package clause, end. -/
def bodyStart (file : SourceFile) : Nat :=
  match file.imports.getLast? with
  | some decl => decl.span.stop
  | none => file.package.span.stop

/-- The package names used behind the imports. -/
def usedPackages (file : SourceFile) : List Text :=
  packageSelectors
    (Token.withoutComments (file.tokens.filter fun t => file.bodyStart ≤ t.start))

/-- The file with the imports it uses. -/
def pruned (file : SourceFile) : Draft :=
  let used := file.usedPackages
  let draft := Draft.ofSourceFile file
  { draft with imports := draft.imports.filter fun spec => spec.isUsed used }

end SourceFile

/-- The text of a source with the imports it uses; refused when it does not parse. -/
def pruneSource (classifier : Classifier) (name src : Text) : Except ParseError Text :=
  (SourceFile.parse name src).map fun file => file.pruned.render classifier

end GoSplit
