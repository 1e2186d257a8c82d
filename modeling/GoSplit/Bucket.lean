import GoSplit.Draft

/-!
The three files a source is split into: types with variables and constants, functions,
and methods. Every declaration goes to the bucket of its kind and keeps its place
among the others of that bucket.
-/

namespace GoSplit

inductive Bucket where
  | types
  | functions
  | methods
  deriving DecidableEq, Repr

namespace Bucket

def all : List Bucket := [.types, .functions, .methods]

def ofKind : DeclKind → Bucket
  | .method => .methods
  | .func => .functions
  | .type | .var | .const => .types

def suffix : Bucket → Text
  | .types => "_types".toList
  | .functions => "_funcs".toList
  | .methods => "_methods".toList

/-- The word for the bucket in reports. -/
def label : Bucket → Text
  | .types => "types".toList
  | .functions => "functions".toList
  | .methods => "methods".toList

/-- The name of the bucket's file, made from the name of the source file without its
extension. -/
def fileName (stem : Text) (bucket : Bucket) : Text := stem ++ bucket.suffix ++ ".go".toList

/-- The declarations of a bucket with their places in the file, in order. -/
def members (bucket : Bucket) (file : SourceFile) : List (Nat × Decl) :=
  (file.decls.zipIdx.map fun (decl, index) => (index, decl)).filter
    fun (_, decl) => ofKind decl.kind == bucket

/-- The buckets with at least one declaration. -/
def nonEmpty (file : SourceFile) : List Bucket :=
  all.filter fun bucket => !(bucket.members file).isEmpty

/-- The bucket's file before imports are pruned: the declarations of the bucket under
the header, package and imports of the source. -/
def draft (bucket : Bucket) (withPackageDoc : Bool) (file : SourceFile) : Draft :=
  ⟨file.header, withPackageDoc, file.package.name, file.importSpecs,
    (bucket.members file).map fun (_, decl) => decl.text⟩

end Bucket

end GoSplit
