import GoSplit.Proofs.Bucket.Writing
import GoSplit.Proofs.Selector.Repeated

/-!
Pruning distributes over the split. The packages a file uses are those its declarations use, each
on its own, so an import stays in the file exactly when it stays in the file of some bucket.
-/

namespace GoSplit

open List (Forall₂)
open Token (withoutComments)

/-! ### Imports in use -/

namespace ImportSpec

theorem isUsed_congr (spec : ImportSpec) {used used' : List Text} (h : ∀ x, x ∈ used ↔ x ∈ used') :
    spec.isUsed used = spec.isUsed used' := by
  have contains : used.contains = used'.contains := by
    funext x
    rw [Bool.eq_iff_iff, List.contains_iff_mem, List.contains_iff_mem]
    exact h x
  rw [isUsed, isUsed, contains]

/-- An import is used by several pieces of code when it is used by one of them. -/
theorem isUsed_flatMap {α : Type} (spec : ImportSpec) {as : List α} (some : as ≠ [])
    (used : α → List Text) :
    spec.isUsed (as.flatMap used) = true ↔ ∃ a ∈ as, spec.isUsed (used a) = true := by
  have member := List.exists_mem_of_ne_nil as some
  simp only [isUsed, Bool.or_eq_true]
  cases spec.localName with
  | some name =>
    simp only [List.contains_iff_mem, List.mem_flatMap]
    grind
  | none =>
    simp only [List.any_eq_true, List.contains_iff_mem, List.mem_flatMap]
    grind

end ImportSpec

/-! ### The files of the buckets -/

namespace Bucket

/-- The import stays in the file of the bucket. -/
def keeps (bucket : Bucket) (withPackageDoc : Bool) (classifier : Classifier) (file : SourceFile)
    (spec : ImportSpec) : Bool :=
  match SourceFile.ofSource ((bucket.draft withPackageDoc file).render classifier) with
  | .ok drafted => spec.isUsed drafted.usedPackages
  | .error _ => false

/-- The file of a bucket uses the packages that its declarations use in the source. -/
theorem exists_usedPackages {src : Text} {file : SourceFile}
    (parsed : SourceFile.ofSource src = .ok file) (printable : file.Printable)
    (form : ∀ d ∈ file.decls, Selector.hasForm d.code = true)
    (binds : ∀ d ∈ file.decls, Selector.bindsInBlocks ⟨0, 0⟩ d.code = true) (bucket : Bucket)
    (withPackageDoc : Bool) (classifier : Classifier) :
    ∃ drafted,
      SourceFile.ofSource ((bucket.draft withPackageDoc file).render classifier) = .ok drafted ∧
      drafted.usedPackages = (bucket.decls file).flatMap fun d => packageSelectors d.code := by
  obtain ⟨drafted, parsed', -, repeats, printable', first⟩ :=
    (printable_draft printable bucket withPackageDoc).parse_render classifier
  have members : ∀ d ∈ bucket.decls file, d ∈ file.decls := by
    rw [decls_eq_filter]
    exact fun d mem => (List.mem_filter.1 mem).1
  obtain ⟨length, pairs⟩ := List.forall₂_iff_zip.1 repeats
  have same : Forall₂ (fun d' d => Selector.hasForm d'.code = true ∧
      Selector.bindsInBlocks ⟨0, 0⟩ d'.code = true ∧
      packageSelectors d'.code = packageSelectors d.code) drafted.decls (bucket.decls file) := by
    refine List.forall₂_iff_zip.2 ⟨length, fun {d' d} mem => ?_⟩
    obtain ⟨mem', memD⟩ := List.of_mem_zip mem
    obtain ⟨placed, after, chained⟩ := SourceFile.decl_inPlace parsed (members d memD)
    obtain ⟨placed', after', chained'⟩ := SourceFile.decl_inPlace parsed' mem'
    obtain ⟨sameForm, sameBinds, sameNames⟩ := (pairs mem).code chained placed
      (printable.decls.isComplete d (members d memD)) chained' placed'
      (printable'.decls.isComplete d' mem')
    exact ⟨sameForm.trans (form d (members d memD)), sameBinds.trans (binds d (members d memD)),
      sameNames⟩
  have all : (∀ d' ∈ drafted.decls, Selector.hasForm d'.code = true ∧
        Selector.bindsInBlocks ⟨0, 0⟩ d'.code = true) ∧
      drafted.decls.flatMap (fun d => packageSelectors d.code) =
        (bucket.decls file).flatMap fun d => packageSelectors d.code := by
    clear repeats pairs length members
    generalize drafted.decls = ds' at same
    generalize bucket.decls file = ds at same
    induction same with
    | nil => simp
    | cons here _ ih =>
      obtain ⟨forms, names⟩ := ih
      refine ⟨List.forall_mem_cons.2 ⟨⟨here.1, here.2.1⟩, forms⟩, ?_⟩
      rw [List.flatMap_cons, List.flatMap_cons, here.2.2, names]
  obtain ⟨forms, names⟩ := all
  refine ⟨drafted, parsed', ?_⟩
  rw [← names]
  exact (SourceFile.usedPackages_eq parsed' first (fun d mem => (forms d mem).1)
    fun d mem => (forms d mem).2).1

theorem nonEmpty_ne_nil {file : SourceFile} (some : file.decls ≠ []) : nonEmpty file ≠ [] := by
  intro none
  have perm := perm_members file
  rw [none, List.flatMap_nil] at perm
  exact some perm.symm.eq_nil

end Bucket

namespace SourceFile

/-- Pruning distributes over the split. Functions have to have their parameters behind their name,
lists of other declarations to end with their parenthesis, other declarations not to start with a
square bracket, and `:=` and headers to stand in blocks, with the block of a header behind it in the
block around it. The buckets have to be files whose declarations stay apart. -/
theorem pruning_distributes {name src : Text} {file : SourceFile}
    (parsed : parse name src = .ok file) (first : file.ImportsFirst)
    (form : ∀ d ∈ file.decls, Selector.hasForm d.code = true)
    (binds : ∀ d ∈ file.decls, Selector.bindsInBlocks ⟨0, 0⟩ d.code = true) :
    (file.usedPackages = file.decls.flatMap fun d => packageSelectors (withoutComments d.tokens)) ∧
      ((∀ d ∈ file.decls, d.isComplete = true) → file.PlainImports → file.decls ≠ [] →
        ∀ (withPackageDoc : Bucket → Bool) (classifier : Classifier), ∀ spec ∈ file.importSpecs,
          (spec.isUsed file.usedPackages = true ↔ ∃ bucket ∈ Bucket.nonEmpty file,
            bucket.keeps (withPackageDoc bucket) classifier file spec = true)) := by
  rw [parse_eq_ok_iff] at parsed
  obtain ⟨whole, alone⟩ := usedPackages_eq parsed first form binds
  constructor
  · rw [whole]
    exact List.flatMap_congr fun d mem => (alone d mem).symm
  · intro complete plain some withPackageDoc classifier spec _
    have printable := printable_of_source parsed first complete plain
    have here : ∀ bucket : Bucket, bucket.keeps (withPackageDoc bucket) classifier file spec =
        spec.isUsed ((bucket.decls file).flatMap fun d => packageSelectors d.code) := by
      intro bucket
      obtain ⟨drafted, parsed', used⟩ :=
        Bucket.exists_usedPackages parsed printable form binds bucket
        (withPackageDoc bucket) classifier
      rw [Bucket.keeps, parsed']
      exact congrArg spec.isUsed used
    have sorted : spec.isUsed file.usedPackages = spec.isUsed ((Bucket.nonEmpty file).flatMap
        fun bucket => (bucket.decls file).flatMap fun d => packageSelectors d.code) := by
      rw [whole]
      apply spec.isUsed_congr
      intro x
      rw [← List.flatMap_assoc]
      exact ((Bucket.perm_members file).flatMap_right _).mem_iff.symm
    simp only [here]
    rw [sorted]
    exact spec.isUsed_flatMap (Bucket.nonEmpty_ne_nil some) _

/-- Three imports: one is used in a type and a method, one is hidden by a parameter, and one is
hidden by a variable in one function and used in another. -/
def shadowedSource : Text :=
  ("package p\n\nimport (\n\t\"fmt\"\n\t\"os\"\n\t\"io\"\n)\n\n" ++
    "type T struct \x7b w io.Writer \x7d\n\n" ++
    "func (t T) M() (err error) \x7b if fmt := t; fmt.ok \x7b io.Copy() \x7d; return \x7d\n\n" ++
    "func F(os T) \x7b os.x(); fmt.Println() \x7d\n").toList

theorem pruning_distributes_shadowed :
    ∃ file, parse [] shadowedSource = .ok file ∧ file.importSpecs.length = 3 ∧
      (file.usedPackages = file.decls.flatMap
        fun d => packageSelectors (withoutComments d.tokens)) ∧
      ∀ spec ∈ file.importSpecs, (spec.isUsed file.usedPackages = true ↔
        ∃ bucket ∈ Bucket.nonEmpty file, bucket.keeps false .dotted file spec = true) := by
  have check : (parse [] shadowedSource).toOption.any (fun file =>
      decide file.ImportsFirst && decide (∀ d ∈ file.decls, Selector.hasForm d.code = true) &&
        decide (∀ d ∈ file.decls, Selector.bindsInBlocks ⟨0, 0⟩ d.code = true) &&
        decide (∀ d ∈ file.decls, d.isComplete = true) && decide file.PlainImports &&
        decide (file.decls ≠ []) && decide (file.importSpecs.length = 3)) = true := by
    unfold shadowedSource
    rw [String.toList_append, String.toList_append, String.toList_append, String.toList_ofList,
      String.toList_ofList, String.toList_ofList, String.toList_ofList]
    decide +kernel
  obtain ⟨file, parsed, passed⟩ := exists_of_toOption_any check
  simp only [Bool.and_eq_true, decide_eq_true_eq] at passed
  obtain ⟨⟨⟨⟨⟨⟨first, form⟩, binds⟩, complete⟩, plain⟩, some⟩, three⟩ := passed
  obtain ⟨union, kept⟩ := pruning_distributes parsed first form binds
  exact ⟨file, parsed, three, union, kept complete plain some (fun _ => false) .dotted⟩

/-- Two type declarations, of which the second is read as the rest of a signature that the first
one ends with. -/
def adjacentSource : Text :=
  "package p\n\nimport \"a\"\n\ntype F func(a int)\n\ntype [b] (c) \x7b a.X \x7d\n".toList

/-- The same two, apart in the file and adjacent in their bucket. -/
def apartSource : Text :=
  ("package p\n\nimport \"a\"\n\ntype F func(a int)\n\n" ++
    "func g() \x7b\x7d\n\ntype [b] (c) \x7b a.X \x7d\n").toList

/-- A header whose next brace behind as many parentheses is in a block further in. -/
def nestedSource : Text :=
  ("package p\n\nimport \"a\"\n\nfunc f() \x7b ( if ) \x7b ( \x7b \x7d ) \x7d \x7d\n\n" ++
    "func g() \x7b (a := 1; b) \x7d\n\nfunc h() \x7b a.X \x7d\n").toList

/-- A declaration that stops short and runs into the next one once it is printed. -/
def shortSource : Text := "package p\n\nimport \"x\"\n\nvar y = x.;\n\nvar z int\n".toList

/-- Without the conditions on the form of declarations, on headers and on the last token of a
declaration, pruning does not distribute. -/
theorem pruning_leaks :
    (∃ file, parse [] adjacentSource = .ok file ∧ file.ImportsFirst ∧
      (∀ d ∈ file.decls, d.kind = .type ∧ d.isComplete = true) ∧
      (∀ d ∈ file.decls, Selector.bindsInBlocks ⟨0, 0⟩ d.code = true) ∧
      file.usedPackages ≠ file.decls.flatMap fun d => packageSelectors (withoutComments d.tokens)) ∧
    (∃ file, parse [] apartSource = .ok file ∧ file.ImportsFirst ∧
      (∀ d ∈ file.decls, (d.kind = .type ∨ d.kind = .func) ∧ d.isComplete = true) ∧
      (∀ d ∈ file.decls, Selector.bindsInBlocks ⟨0, 0⟩ d.code = true) ∧
      ∃ spec ∈ file.importSpecs, spec.isUsed file.usedPackages = true ∧
        ∀ bucket ∈ Bucket.nonEmpty file, bucket.keeps false .dotted file spec = false) ∧
    (∃ file, parse [] nestedSource = .ok file ∧ file.ImportsFirst ∧
      (∀ d ∈ file.decls, Selector.hasForm d.code = true ∧ d.isComplete = true) ∧
      file.usedPackages ≠ file.decls.flatMap fun d => packageSelectors (withoutComments d.tokens)) ∧
    ∃ file, parse [] shortSource = .ok file ∧ file.ImportsFirst ∧
      (∀ d ∈ file.decls, Selector.hasForm d.code = true) ∧
      (∀ d ∈ file.decls, Selector.bindsInBlocks ⟨0, 0⟩ d.code = true) ∧
      ∃ spec ∈ file.importSpecs, spec.isUsed file.usedPackages = false ∧
        ∃ bucket ∈ Bucket.nonEmpty file, bucket.keeps false .dotted file spec = true := by
  have found : ∀ {src : Text} {p : SourceFile → Prop} [DecidablePred p],
      (parse [] src).toOption.any (fun file => decide (p file)) = true →
        ∃ file, parse [] src = .ok file ∧ p file := by
    intro src p _ check
    obtain ⟨file, parsed, passed⟩ := exists_of_toOption_any check
    exact ⟨file, parsed, of_decide_eq_true passed⟩
  refine ⟨found ?_, found ?_, found ?_, found ?_⟩
  · unfold adjacentSource
    rw [String.toList_ofList]
    decide +kernel
  · unfold apartSource
    rw [String.toList_append, String.toList_ofList, String.toList_ofList]
    decide +kernel
  · unfold nestedSource
    rw [String.toList_append, String.toList_ofList, String.toList_ofList]
    decide +kernel
  · unfold shortSource
    rw [String.toList_ofList]
    decide +kernel

end SourceFile

end GoSplit
