import GoSplit.Edit
import GoSplit.ImportPath
import GoSplit.SourceFile.Parser

/-!
Shading: moving the external imports of a source into a private namespace. Only the
path literals change, and only those of imports that are external as written.
-/

namespace GoSplit

/-- Which imports are external, and the namespace they are moved to. -/
structure Shader where
  classifier : Classifier
  space : Text

/-- A source with its external imports moved. -/
structure Shaded where
  text : Text
  rewritten : Nat
  deriving DecidableEq, Repr

inductive ShadeError where
  | parse (error : ParseError)
  | edit (error : EditError)
  deriving DecidableEq, Repr

def ShadeError.message : ShadeError → String
  | .parse error => error.message
  | .edit error => error.message

namespace Shader

def moves (shader : Shader) (spec : ImportSpec) : Bool :=
  shader.classifier.classify spec.path shader.space == .externalCanonical

def edit (shader : Shader) (spec : ImportSpec) : Edit :=
  ⟨spec.literal, ImportPath.quote (ImportPath.join shader.space spec.path)⟩

/-- The shaded text of a source; none when there is nothing to move. -/
def shadeSource (shader : Shader) (name src : Text) : Except ShadeError (Option Shaded) :=
  match SourceFile.parse name src with
  | .error error => .error (.parse error)
  | .ok file =>
    match (file.importSpecs.filter shader.moves).map shader.edit with
    | [] => .ok none
    | edits =>
      match Edit.applyAll src edits with
      | .error error => .error (.edit error)
      | .ok text => .ok (some ⟨text, edits.length⟩)

end Shader

end GoSplit
