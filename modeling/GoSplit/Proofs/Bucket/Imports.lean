import GoSplit.Proofs.Bucket.Writing
import GoSplit.Proofs.Selector.Lines
import Mathlib.Data.List.Flatten

/-!
The imports of the buckets. A bucket's file imports what the declarations of the bucket need of
the imports of the source, each as often as the source does, and the counts in the report say so.
-/

namespace GoSplit

open SourceFile (StartsLine)
open Token (withoutComments)

namespace ImportSpec

/-- The import is there for its effects, for its names or for C, or it may go by a name in use. -/
def Needed (used : List Text) (spec : ImportSpec) : Prop :=
  spec.localName = some ['_'] ∨ spec.localName = some ['.'] ∨ spec.path = ['C'] ∨
    match spec.localName with
    | some name => name ∈ used
    | none => ∃ name ∈ ImportPath.candidateNames spec.path, name ∈ used

instance (used : List Text) (spec : ImportSpec) : Decidable (spec.Needed used) := by
  unfold Needed
  cases spec.localName <;> infer_instance

theorem isUsed_eq_needed (spec : ImportSpec) (used : List Text) :
    spec.isUsed used = decide (spec.Needed used) := by
  rw [Bool.eq_iff_iff, decide_eq_true_iff, isUsed, Needed, isBlank, isDot, isCgo]
  cases spec.localName <;> simp [or_assoc]

/-- What is needed of the same imports is the same. -/
theorem filter_needed_perm {specs specs' : List ImportSpec}
    (perm : (specs.map key).Perm (specs'.map key)) (used : List Text) :
    ((specs.filter fun spec => decide (spec.Needed used)).map key).Perm
      ((specs'.filter fun spec => decide (spec.Needed used)).map key) := by
  have onKeys : ∀ specs : List ImportSpec,
      (specs.filter fun spec => decide (spec.Needed used)).map key =
        (specs.map key).filter fun k => decide (Needed used ⟨k.1, k.2, ⟨0, 0⟩, none, none⟩) := by
    intro specs
    rw [List.filter_map]
    rfl
  rw [onKeys, onKeys]
  exact perm.filter _

end ImportSpec

namespace SourceFile

/-- The tokens of the declarations stand in the file in the same order. -/
theorem tokens_decls_sublist {src : Text} {file : SourceFile} (parsed : ofSource src = .ok file) :
    (file.decls.flatMap Decl.tokens).Sublist file.tokens := by
  obtain ⟨ts, tokens, found⟩ := ofSource_eq_ok_iff.1 parsed
  obtain ⟨package, rest, items, trailing, clause, itemsOf, rfl⟩ := ofTokens_eq_ok_iff.1 found
  have suffix : rest <:+ ts := (suffix_of_readPackage clause).trans (List.dropWhile_suffix _)
  have inside := tokens_declsOf_sublist trailing items
  rw [itemsOf.tokens_append] at inside
  exact inside.trans suffix.sublist

/-- The declarations of a bucket, in place. -/
theorem bucket_inPlace {src : Text} {file : SourceFile} (parsed : ofSource src = .ok file)
    (bucket : Bucket) :
    (∀ d ∈ bucket.decls file, Token.InPlace d.tokens ∧ ∃ after, Token.Chained d.tokens after) ∧
      ((withoutComments ((bucket.decls file).flatMap Decl.tokens)).map Token.start).Nodup := by
  rw [Bucket.decls_eq_filter]
  constructor
  · exact fun d mem => decl_inPlace parsed (List.mem_filter.1 mem).1
  · exact nodup_starts (tokens_of_parsed parsed)
      ((List.filter_sublist.flatMap Decl.tokens).trans (tokens_decls_sublist parsed))

end SourceFile

namespace BucketWriter

variable {writer : BucketWriter} {c : Classifier} {src : Text} {file : SourceFile}

/-- What is stored for a bucket imports what its declarations need. -/
theorem Stored.imports (parsed : SourceFile.ofSource src = .ok file)
    (complete : ∀ d ∈ file.decls, d.isComplete = true) {tree : Tree} {w : WrittenBucket}
    (stored : writer.Stored c file tree w) :
    ∃ text kept, tree.readText (writer.path w.bucket) = .ok text ∧
      SourceFile.parse (writer.fileName w.bucket) text = .ok kept ∧
      (kept.importSpecs.map ImportSpec.key).Perm ((file.importSpecs.filter fun spec =>
        decide (spec.Needed (packageSelectors (Decl.lines (w.bucket.decls file))))).map
          ImportSpec.key) ∧
      w.importsKept = kept.importSpecs.length ∧
      w.importsKept + w.importsPruned = file.importSpecs.length := by
  obtain ⟨withPackageDoc, drafted, kept, holds, parsedDraft, parsedKept, read, read', isKept,
    isPruned⟩ :=
    stored
  obtain ⟨placed, distinct⟩ := SourceFile.bucket_inPlace parsed w.bucket
  have used : drafted.usedPackages = packageSelectors (Decl.lines (w.bucket.decls file)) := by
    refine read.usedPackages_eq parsedDraft placed ?_ (by rwa [Decl.starts_lines])
    rw [Bucket.decls_eq_filter]
    exact fun d mem => complete d (List.mem_filter.1 mem).1
  have perm : (kept.importSpecs.map ImportSpec.key).Perm ((file.importSpecs.filter fun spec =>
      decide (spec.Needed drafted.usedPackages)).map ImportSpec.key) := by
    refine read'.imports.trans ?_
    have pruned : drafted.pruned.imports =
        drafted.importSpecs.filter fun spec => decide (spec.Needed drafted.usedPackages) :=
      List.filter_congr fun spec _ => spec.isUsed_eq_needed drafted.usedPackages
    rw [pruned]
    exact ImportSpec.filter_needed_perm read.imports drafted.usedPackages
  rw [used] at perm
  refine ⟨_, kept, holds.readText, SourceFile.parse_eq_ok_iff.2 parsedKept, perm, isKept, ?_⟩
  have fewer : kept.importSpecs.length ≤ file.importSpecs.length := by
    have size := perm.length_eq
    rw [List.length_map, List.length_map] at size
    rw [size]
    exact List.length_filter_le ..
  omega

/-- A bucket's file imports what the declarations of the bucket need, where each declaration is
read on a line of its own, and the counts of the report are right. Where the source has each
declaration but the first on a line of its own, the declarations are read as they stand. -/
theorem writeAll_imports_needed {name : Text} (parsed : SourceFile.parse name src = .ok file)
    (first : file.ImportsFirst) (complete : ∀ d ∈ file.decls, d.isComplete = true)
    (plain : file.PlainImports) (pruner : writer.pruner = Pruner.usage c) (site : Site)
    (works : writer.Works file site.tree) (log : writer.LogElsewhere site.tree) :
    ∃ written after, (writer.writeAll file).on site = (.ok written, after) ∧
      written.map (·.bucket) = Bucket.nonEmpty file ∧
      ∀ w ∈ written,
        (∃ text kept, after.tree.readText (writer.path w.bucket) = .ok text ∧
          SourceFile.parse (writer.fileName w.bucket) text = .ok kept ∧
          (kept.importSpecs.map ImportSpec.key).Perm ((file.importSpecs.filter fun spec =>
            decide (spec.Needed (packageSelectors (Decl.lines (w.bucket.decls file))))).map
              ImportSpec.key) ∧
          w.importsKept = kept.importSpecs.length ∧
          w.importsKept + w.importsPruned = file.importSpecs.length) ∧
        ((∀ d ∈ (w.bucket.decls file).tail, StartsLine d.tokens) →
          packageSelectors (Decl.lines (w.bucket.decls file)) =
            packageSelectors (withoutComments ((w.bucket.decls file).flatMap Decl.tokens))) := by
  rw [SourceFile.parse_eq_ok_iff] at parsed
  have printable := SourceFile.printable_of_source parsed first complete plain
  obtain ⟨written, after, ran, areBuckets, stored⟩ :=
    exists_writeAll pruner printable site works log
  refine ⟨written, after, ran, areBuckets,
    fun w mem => ⟨(stored w mem).imports parsed complete, ?_⟩⟩
  exact fun starts => Decl.packageSelectors_lines starts
    (SourceFile.bucket_inPlace parsed w.bucket).2

/-- Imports for C, for effects, for names and for use, one of them twice. -/
def importing : Text :=
  ("package p\n\nimport \"C\"\n\nimport (\n\t_ \"embed\"\n\t\"fmt\" // twice\n\t. \"math\"\n" ++
    "\t\"fmt\"\n\tstr \"strings\"\n\t\"os\"\n)\n\ntype T struct\x7b b str.Builder \x7d\n\n" ++
    "func F() \x7b fmt.Println() \x7d\n").toList

theorem writeAll_imports_sample : ∃ file written after, SourceFile.parse [] importing = .ok file ∧
    (sampleWriter.writeAll file).on (Site.start (Tree.empty ['/', 'w']) 0) = (.ok written, after) ∧
    written.map (fun w => (w.bucket, w.importsKept, w.importsPruned)) =
      [(.types, 4, 3), (.functions, 5, 2)] := by
  have check : (SourceFile.parse [] importing).toOption.any (fun file =>
      decide file.ImportsFirst && decide (∀ d ∈ file.decls, d.isComplete = true) &&
        decide file.PlainImports && decide (Bucket.nonEmpty file = [.types, .functions]) &&
        decide (file.importSpecs.length = 7) &&
        decide ([Bucket.types, .functions].map (fun bucket => (file.importSpecs.filter fun spec =>
          decide (spec.Needed (packageSelectors (Decl.lines (bucket.decls file))))).length) =
            [4, 5])) = true := by
    unfold importing
    rw [String.toList_append, String.toList_append, String.toList_ofList, String.toList_ofList,
      String.toList_ofList]
    decide +kernel
  obtain ⟨file, parsed, passed⟩ := SourceFile.exists_of_toOption_any check
  simp only [Bool.and_eq_true, decide_eq_true_eq] at passed
  obtain ⟨⟨⟨⟨⟨first, complete⟩, plain⟩, buckets⟩, seven⟩, needed⟩ := passed
  obtain ⟨written, after, ran, areBuckets, imports⟩ := writeAll_imports_needed parsed first complete
    plain (c := .dotted) rfl (Site.start (Tree.empty ['/', 'w']) 0) (sampleWriter_works file)
      sampleWriter_logElsewhere
  refine ⟨file, written, after, parsed, ran, ?_⟩
  have counts : ∀ w ∈ written, w.importsKept = (file.importSpecs.filter fun spec =>
      decide (spec.Needed (packageSelectors (Decl.lines (w.bucket.decls file))))).length ∧
      w.importsKept + w.importsPruned = 7 := by
    intro w mem
    obtain ⟨⟨text, kept, -, -, perm, isKept, all⟩, -⟩ := imports w mem
    have size := perm.length_eq
    rw [List.length_map, List.length_map] at size
    exact ⟨isKept.trans size, all.trans seven⟩
  rw [buckets] at areBuckets
  simp only [List.map_eq_cons_iff, List.map_eq_nil_iff] at areBuckets
  obtain ⟨w, -, rfl, isTypes, w', -, rfl, isFunctions, rfl⟩ := areBuckets
  obtain ⟨keptTypes, allTypes⟩ := counts w (by simp)
  obtain ⟨keptFunctions, allFunctions⟩ := counts w' (by simp)
  rw [isTypes] at keptTypes
  rw [isFunctions] at keptFunctions
  simp only [List.map_cons, List.map_nil, List.cons.injEq, and_true] at needed
  have prunedTypes : w.importsPruned = 3 := by omega
  have prunedFunctions : w'.importsPruned = 2 := by omega
  simp only [List.map_cons, List.map_nil, isTypes, isFunctions, keptTypes, keptFunctions, needed,
    prunedTypes, prunedFunctions]

/-- Two types on one line. In the file of their bucket each has a line of its own. -/
def joinedSource : Text :=
  "package p\n\nimport \"a\"\n\ntype F func(a A); type X \x7ba.B\x7d\n".toList

/-- Where declarations share a line, the bucket's file does not import what its declarations need
as they stand in the source: there a parameter hides the package from the next declaration. -/
theorem writeAll_imports_joined :
    ∃ file written after, SourceFile.parse [] joinedSource = .ok file ∧
    file.ImportsFirst ∧ (∀ d ∈ file.decls, d.isComplete = true) ∧ file.PlainImports ∧
    (sampleWriter.writeAll file).on (Site.start (Tree.empty ['/', 'w']) 0) = (.ok written, after) ∧
    ∃ w ∈ written, ∃ text kept, after.tree.readText (sampleWriter.path w.bucket) = .ok text ∧
      SourceFile.parse (sampleWriter.fileName w.bucket) text = .ok kept ∧
      ¬ (kept.importSpecs.map ImportSpec.key).Perm ((file.importSpecs.filter fun spec =>
        decide (spec.Needed (packageSelectors (withoutComments
          ((w.bucket.decls file).flatMap Decl.tokens))))).map ImportSpec.key) := by
  have check : (SourceFile.parse [] joinedSource).toOption.any (fun file =>
      decide file.ImportsFirst && decide (∀ d ∈ file.decls, d.isComplete = true) &&
        decide file.PlainImports && decide (Bucket.nonEmpty file = [.types]) &&
        decide ((file.importSpecs.filter fun spec => decide (spec.Needed
          (packageSelectors (Decl.lines (Bucket.types.decls file))))).length = 1) &&
        decide ((file.importSpecs.filter fun spec => decide (spec.Needed (packageSelectors
          (withoutComments ((Bucket.types.decls file).flatMap Decl.tokens))))).length = 0)) =
            true := by
    unfold joinedSource
    rw [String.toList_ofList]
    decide +kernel
  obtain ⟨file, parsed, passed⟩ := SourceFile.exists_of_toOption_any check
  simp only [Bool.and_eq_true, decide_eq_true_eq] at passed
  obtain ⟨⟨⟨⟨⟨first, complete⟩, plain⟩, buckets⟩, apart⟩, joined⟩ := passed
  have source := SourceFile.parse_eq_ok_iff.1 parsed
  obtain ⟨written, after, ran, areBuckets, stored⟩ := exists_writeAll (c := .dotted) rfl
    (SourceFile.printable_of_source source first complete plain)
    (Site.start (Tree.empty ['/', 'w']) 0) (sampleWriter_works file) sampleWriter_logElsewhere
  rw [buckets] at areBuckets
  simp only [List.map_eq_cons_iff, List.map_eq_nil_iff] at areBuckets
  obtain ⟨w, -, rfl, isTypes, rfl⟩ := areBuckets
  obtain ⟨text, kept, found, parsedKept, perm, -⟩ := (stored w (by simp)).imports source complete
  refine ⟨file, [w], after, parsed, first, complete, plain, ran, w, by simp, text, kept, found,
    parsedKept, fun same => ?_⟩
  have sizes := (perm.symm.trans same).length_eq
  rw [List.length_map, List.length_map, isTypes, apart, joined] at sizes
  exact absurd sizes (by decide)

end BucketWriter

end GoSplit
