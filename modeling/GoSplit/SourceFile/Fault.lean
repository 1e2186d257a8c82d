import GoSplit.Position
import GoSplit.Token.Lexer

/-!
Why a source text is refused. A fault knows the byte it was found at; an error is
the fault together with the position of that byte in a named file.
-/

namespace GoSplit

namespace ParseFault

/-- What a token was expected to be. -/
inductive Expected where
  | declaration
  | packageName
  | functionName
  deriving DecidableEq, Repr

def Expected.message : Expected → String
  | .declaration => "declaration"
  | .packageName => "package name"
  | .functionName => "function name"

inductive ImportDefect where
  | missingPath
  | notAPath (found : Text)
  | emptyPath
  deriving DecidableEq, Repr

def ImportDefect.message : ImportDefect → String
  | .missingPath => "missing import path"
  | .notAPath found => s!"expected import path, found '{found.str}'"
  | .emptyPath => "empty import path"

inductive Cause where
  | lex (cause : LexError.Cause)
  | missingPackageClause
  | unexpectedToken (found : Text) (expected : Expected)
  | unbalancedDelimiter (found : Text)
  | mismatchedDelimiter (opened closed : Text)
  | unclosedDelimiter (opened : Text)
  | malformedImport (defect : ImportDefect)
  | malformedReceiver
  deriving DecidableEq, Repr

def Cause.message : Cause → String
  | .lex cause => cause.message
  | .missingPackageClause => "expected 'package' clause"
  | .unexpectedToken found expected => s!"expected {expected.message}, found '{found.str}'"
  | .unbalancedDelimiter found =>
    s!"unexpected '{found.str}' without matching opening delimiter"
  | .mismatchedDelimiter opened closed => s!"'{opened.str}' closed by '{closed.str}'"
  | .unclosedDelimiter opened => s!"'{opened.str}' is never closed"
  | .malformedImport defect => s!"malformed import: {defect.message}"
  | .malformedReceiver => "malformed method receiver"

end ParseFault

structure ParseFault where
  cause : ParseFault.Cause
  offset : Nat
  deriving DecidableEq, Repr

def ParseFault.ofLex (e : LexError) : ParseFault := ⟨.lex e.cause, e.offset⟩

structure ParseError where
  cause : ParseFault.Cause
  position : Position
  deriving DecidableEq, Repr

def ParseError.message (e : ParseError) : String :=
  s!"{e.position.message}: {e.cause.message}"

/-- The fault as it shows in the file `name` with source `src`. -/
def ParseFault.locate (fault : ParseFault) (name src : Text) : ParseError :=
  ⟨fault.cause, Position.locate name src fault.offset⟩

end GoSplit
