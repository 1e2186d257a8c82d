import GoSplit.Token

/-!
What is known of a Go file at the level of its declarations: the comments above the
package clause, the clause, the imports and the other top-level declarations. A
declaration keeps its tokens, so its text comes out again as it went in.
-/

namespace GoSplit

/-- The comments above the package clause. -/
structure Header where
  /-- Comment groups that are neither build constraints nor the package comment. -/
  comments : List Text
  buildConstraints : List Text
  /-- The comment group attached to the package clause. -/
  packageDoc : Option Text
  deriving DecidableEq, Repr

def Header.empty : Header := ⟨[], [], none⟩

structure PackageClause where
  name : Text
  span : Span
  deriving DecidableEq, Repr

structure ImportSpec where
  /-- Local name, an underscore or a dot. -/
  localName : Option Text
  path : Text
  /-- Where the quoted path stands in the source. -/
  literal : Span
  /-- The comments right above the entry. -/
  doc : Option Text
  /-- The comment behind the entry on its line. -/
  comment : Option Text
  deriving DecidableEq, Repr

namespace ImportSpec

/-- The import that switches on calls to C and carries its preamble as a comment. -/
def isCgo (spec : ImportSpec) : Bool := spec.path == ['C']

def isBlank (spec : ImportSpec) : Bool := spec.localName == some ['_']

def isDot (spec : ImportSpec) : Bool := spec.localName == some ['.']

end ImportSpec

structure ImportDecl where
  span : Span
  grouped : Bool
  specs : List ImportSpec
  deriving DecidableEq, Repr

inductive DeclKind where
  | type
  | var
  | const
  | func
  | method
  deriving DecidableEq, Repr

namespace DeclKind

def keyword : DeclKind → Text
  | .type => "type".toList
  | .var => "var".toList
  | .const => "const".toList
  | .func | .method => "func".toList

def isCallable : DeclKind → Bool
  | .func | .method => true
  | _ => false

end DeclKind

structure Receiver where
  name : Option Text
  /-- The base type, without pointer or type parameters. -/
  typeName : Text
  pointer : Bool
  deriving DecidableEq, Repr

/-- What a declaration declares. -/
structure Heading where
  kind : DeclKind
  names : List Text
  receiver : Option Receiver
  deriving DecidableEq, Repr

structure Decl where
  heading : Heading
  /-- Comments in front of the keyword, with the semicolons among them. -/
  leading : List Token
  keyword : Token
  /-- The tokens after the keyword, a comment behind the last line included. -/
  body : List Token
  deriving DecidableEq, Repr

namespace Decl

def kind (d : Decl) : DeclKind := d.heading.kind

def span (d : Decl) : Span := ⟨d.keyword.start, (d.body.getLastD d.keyword).stop⟩

def leadingStart (d : Decl) : Option Nat := d.leading.head?.map (·.start)

def fullSpan (d : Decl) : Span := ⟨d.leadingStart.getD d.span.start, d.span.stop⟩

def tokens (d : Decl) : List Token := d.leading ++ d.keyword :: d.body

def text (d : Decl) : Text := Token.spell d.tokens

/-- The name a report shows. -/
def displayName (d : Decl) : Text :=
  match d.heading.receiver, d.heading.names.head? with
  | some receiver, some name => ['('] ++ receiver.typeName ++ [')', '.'] ++ name
  | none, some name => name
  | _, none => ['<'] ++ d.kind.keyword ++ ['>']

end Decl

structure SourceFile where
  header : Header
  package : PackageClause
  imports : List ImportDecl
  decls : List Decl
  /-- All tokens of the source. -/
  tokens : List Token
  deriving DecidableEq, Repr

namespace SourceFile

/-- The import entries in source order. -/
def importSpecs (file : SourceFile) : List ImportSpec := file.imports.flatMap (·.specs)

end SourceFile

end GoSplit
