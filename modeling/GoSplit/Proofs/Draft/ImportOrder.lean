import GoSplit.Proofs.Draft.FixedPoint
import GoSplit.Proofs.Draft.Imports
import GoSplit.Proofs.Sorted

/-!
The order of the printed imports. Two partitions and two sorts come between the imports of a draft
and their text. They forget the order in which the draft has the imports, but for those of C and
for imports that have path and local name in common, and leave each import once: the internal ones
in front of the external ones, each part in order.
-/

namespace GoSplit

/-! ### Texts in order -/

/-- In front in the order of code points, character by character. -/
def Text.Less (s t : Text) : Prop := List.Lex (fun c d : Char => c.toNat < d.toNat) s t

theorem Text.le_iff_less {s t : Text} : Text.le s t = true ↔ s = t ∨ s.Less t := by
  induction s generalizing t with
  | nil =>
    cases t with
    | nil => simp [le]
    | cons d t => exact iff_of_true rfl (.inr .nil)
  | cons c s ih =>
    cases t with
    | nil =>
      refine iff_of_false (by simp [le]) ?_
      rintro (eq | less)
      · cases eq
      · cases less
    | cons d t =>
      rw [le, Bool.or_eq_true, Bool.and_eq_true, decide_eq_true_eq, beq_iff_eq, ih]
      constructor
      · rintro (less | ⟨rfl, rfl | less⟩)
        · exact .inr (.rel less)
        · exact .inl rfl
        · exact .inr (.cons less)
      · rintro (eq | less)
        · cases eq
          exact .inr ⟨rfl, .inl rfl⟩
        · cases less with
          | rel less => exact .inl less
          | cons less => exact .inr ⟨rfl, .inr less⟩

theorem Text.not_less_self (s : Text) : ¬ s.Less s := by
  intro less
  induction s with
  | nil => cases less
  | cons c s ih =>
    cases less with
    | rel less => exact Nat.lt_irrefl _ less
    | cons less => exact ih less

namespace ImportSpec

/-- By path, and for one path by local name, where none comes first. -/
def Precedes (a b : ImportSpec) : Prop :=
  a.path.Less b.path ∨ a.path = b.path ∧ (a.localName = none ∨
    ∃ x y, a.localName = some x ∧ b.localName = some y ∧ (x = y ∨ x.Less y))

end ImportSpec

namespace Draft

open ImportSpec (Precedes)

theorem specLe_iff_precedes {a b : ImportSpec} : specLe a b = true ↔ a.Precedes b := by
  rw [specLe, Precedes]
  split
  · next path =>
    rw [path, or_iff_right (Text.not_less_self b.path), and_iff_right rfl]
    cases a.localName with
    | none => simp
    | some x =>
      cases b.localName with
      | none => simp
      | some y => simp [Text.le_iff_less]
  · next path => simp [Text.le_iff_less, path]

/-- Only path and local name decide on the place of an import. -/
theorem specLe_both_iff {a b : ImportSpec} : (specLe a b && specLe b a) = (b.key == a.key) := by
  rw [Bool.eq_iff_iff, Bool.and_eq_true, beq_iff_eq, ImportSpec.key, ImportSpec.key, Prod.mk.injEq]
  unfold specLe
  constructor
  · rintro ⟨le, le'⟩
    by_cases path : a.path = b.path
    · rw [if_pos path] at le
      rw [if_pos path.symm] at le'
      refine ⟨?_, path.symm⟩
      cases left : a.localName with
      | none =>
        cases right : b.localName with
        | none => rfl
        | some y => simp [left, right] at le'
      | some x =>
        cases right : b.localName with
        | none => simp [left, right] at le
        | some y =>
          simp only [left, right] at le le'
          rw [Text.le_antisymm le le']
    · rw [if_neg path] at le
      rw [if_neg (Ne.symm path)] at le'
      exact absurd (Text.le_antisymm le le') path
  · rintro ⟨name, path⟩
    have refl : ∀ t : Text, Text.le t t = true := fun t => by simpa using Text.le_total t t
    rw [if_pos path.symm, if_pos path, name]
    cases a.localName <;> simp [refl]

/-! ### Another order of the imports -/

/-- The same imports in another order: those of C keep theirs, and imports that have path and local
name in common keep theirs. -/
structure Reordered (imports imports' : List ImportSpec) : Prop where
  perm : imports'.Perm imports
  cgo : imports'.filter ImportSpec.isCgo = imports.filter ImportSpec.isCgo
  twins : ∀ spec ∈ imports,
    (imports'.filter fun other => other.key == spec.key) =
      imports.filter fun other => other.key == spec.key

theorem Reordered.filter_key {imports imports' : List ImportSpec} (h : Reordered imports imports')
    (key : Option Text × Text) :
    (imports'.filter fun other => other.key == key) =
      imports.filter fun other => other.key == key := by
  by_cases found : ∃ spec ∈ imports, spec.key = key
  · obtain ⟨spec, mem, rfl⟩ := found
    exact h.twins spec mem
  · have none_there : ∀ specs : List ImportSpec, (∀ spec ∈ specs, spec ∈ imports) →
        (specs.filter fun other => other.key == key) = [] := fun specs sub => by
      rw [List.filter_eq_nil_iff]
      exact fun spec mem eq => found ⟨spec, sub spec mem, beq_iff_eq.1 eq⟩
    rw [none_there imports fun _ => id, none_there imports' fun _ mem => h.perm.subset mem]

/-- Each part of the imports is the same in order. -/
theorem Reordered.mergeSort_eq {imports imports' : List ImportSpec} (h : Reordered imports imports')
    (part : ImportSpec → Bool) :
    (imports'.filter part).mergeSort specLe = (imports.filter part).mergeSort specLe := by
  refine mergeSort_eq_of_filter specLe_trans specLe_total fun spec => ?_
  simp only [specLe_both_iff]
  rw [List.filter_comm, h.filter_key, List.filter_comm]

/-! ### The import declarations -/

/-- The imports that the classifier puts on one side, in order. -/
def sortedSide (classifier : Classifier) (isExternal : Bool) (specs : List ImportSpec) :
    List ImportSpec :=
  (specs.filter fun spec => classifier.isExternal spec.path == isExternal).mergeSort specLe

section

variable {classifier : Classifier} {isExternal : Bool} {specs : List ImportSpec}

theorem isExternal_of_mem_sortedSide {spec : ImportSpec}
    (mem : spec ∈ sortedSide classifier isExternal specs) :
    classifier.isExternal spec.path = isExternal := by
  rw [sortedSide, List.mem_mergeSort, List.mem_filter, beq_iff_eq] at mem
  exact mem.2

theorem pairwise_sortedSide : (sortedSide classifier isExternal specs).Pairwise Precedes :=
  (List.pairwise_mergeSort specLe_trans specLe_total _).imp specLe_iff_precedes.1

theorem sortedSide_isEmpty : (sortedSide classifier isExternal specs).isEmpty =
    (specs.filter fun spec => classifier.isExternal spec.path == isExternal).isEmpty :=
  (List.mergeSort_perm ..).isEmpty_eq

end

/-- The two sides have every import once. -/
theorem sortedSide_perm (classifier : Classifier) (specs : List ImportSpec) :
    (sortedSide classifier false specs ++ sortedSide classifier true specs).Perm specs := by
  have sides :=
    List.filter_append_perm (fun spec : ImportSpec => classifier.isExternal spec.path == false)
      specs
  have other : (fun spec : ImportSpec => !(classifier.isExternal spec.path == false)) =
      fun spec => classifier.isExternal spec.path == true := by
    funext spec
    cases classifier.isExternal spec.path <;> rfl
  rw [other] at sides
  exact ((List.mergeSort_perm ..).append (List.mergeSort_perm ..)).trans sides

/-- The entries of a list, each with the comments above it. -/
def entryLines (specs : List ImportSpec) : Text :=
  specs.flatMap fun spec => docLines ['\t'] spec.doc ++ '\t' :: specLine spec ++ ['\n']

/-- The entries of both sides, with an empty line between them where neither is empty. -/
def sideLines (internal external : List ImportSpec) : Text :=
  entryLines internal ++ (if internal.isEmpty || external.isEmpty then [] else ['\n']) ++
    entryLines external

/-- The text for imports in order, the internal and the external ones: a single one stands alone,
several stand in a list. -/
def writtenImports (internal external : List ImportSpec) : Option Text :=
  match internal ++ external with
  | [] => none
  | [spec] => some (singleImport spec)
  | _ => some ("import (\n".toList ++ sideLines internal external ++ [')'])

theorem writtenImports_several {internal external : List ImportSpec}
    (several : 2 ≤ (internal ++ external).length) : writtenImports internal external =
      some ("import (\n".toList ++ sideLines internal external ++ [')']) := by
  rw [writtenImports]
  split
  · next empty => simp [empty] at several
  · next single => simp [single] at several
  · rfl

theorem joinWith_blockGroups (classifier : Classifier) (specs : List ImportSpec) :
    Text.joinWith ['\n'] ((blockGroups classifier specs).map importGroup) =
      sideLines (sortedSide classifier false specs) (sortedSide classifier true specs) := by
  have group : ∀ isExternal, entryLines (sortedSide classifier isExternal specs) =
      importGroup (specs.filter fun spec => classifier.isExternal spec.path == isExternal) :=
    fun _ => rfl
  rw [sideLines, sortedSide_isEmpty, sortedSide_isEmpty, group, group, blockGroups]
  simp only [beq_false, beq_true]
  generalize (specs.filter fun spec => !classifier.isExternal spec.path) = internal
  generalize (specs.filter fun spec => classifier.isExternal spec.path) = external
  cases internal with
  | nil => cases external <;> simp [Text.joinWith, importGroup]
  | cons a internal => cases external <;> simp [Text.joinWith, importGroup]

theorem importBlock_eq_written (classifier : Classifier) (specs : List ImportSpec) :
    importBlock classifier specs =
      writtenImports (sortedSide classifier false specs) (sortedSide classifier true specs) := by
  have perm := sortedSide_perm classifier specs
  match specs with
  | [] => rw [writtenImports, perm.eq_nil]; rfl
  | [spec] => rw [writtenImports, List.perm_singleton.1 perm]; rfl
  | a :: b :: rest =>
    have several : 2 ≤ (a :: b :: rest).length := by simp
    rw [importBlock_several several, writtenImports_several (perm.length_eq ▸ several),
      joinWith_blockGroups]

/-! ### The whole text -/

/-- The imports not of C. -/
def regularImports (draft : Draft) : List ImportSpec := draft.imports.filter fun spec => !spec.isCgo

/-- The parts of a text in front of its imports. -/
def front (draft : Draft) : List Text :=
  draft.header.comments
    ++ (if draft.header.buildConstraints.isEmpty then []
        else [Text.joinWith ['\n'] draft.header.buildConstraints])
    ++ [draft.packageClause]

theorem sections_eq_written (classifier : Classifier) (draft : Draft) :
    sections classifier draft = draft.front ++
      (draft.imports.filter ImportSpec.isCgo).map singleImport ++
      (writtenImports (sortedSide classifier false draft.regularImports)
        (sortedSide classifier true draft.regularImports)).toList ++
      draft.decls.map Text.trimEnd := by
  rw [sections, List.partition_eq_filter_filter, front]
  dsimp only
  rw [importBlock_eq_written]
  rfl

theorem Reordered.sortedSide_eq {imports imports' : List ImportSpec}
    (h : Reordered imports imports') (classifier : Classifier) (isExternal : Bool) :
    sortedSide classifier isExternal (imports'.filter fun spec => !spec.isCgo) =
      sortedSide classifier isExternal (imports.filter fun spec => !spec.isCgo) := by
  rw [sortedSide, sortedSide, List.filter_filter, List.filter_filter]
  exact h.mergeSort_eq _

/-- The text depends on the order of the imports only as far as those of C and those with the same
path and local name go. It has the imports of C as the draft has them, and then all others, each
once: the internal ones in front of the external ones, by path and local name. -/
theorem render_orders_imports (classifier : Classifier) (draft : Draft) :
    (∀ imports', Reordered draft.imports imports' →
      render classifier { draft with imports := imports' } = render classifier draft) ∧
    ∃ internal external : List ImportSpec,
      (internal ++ external).Perm (draft.imports.filter fun spec => !spec.isCgo) ∧
      (∀ spec ∈ internal, classifier.isExternal spec.path = false) ∧
      (∀ spec ∈ external, classifier.isExternal spec.path = true) ∧
      internal.Pairwise Precedes ∧ external.Pairwise Precedes ∧
      render classifier draft = Text.joinWith ['\n', '\n'] (draft.front ++
        (draft.imports.filter ImportSpec.isCgo).map singleImport ++
        (writtenImports internal external).toList ++ draft.decls.map Text.trimEnd) ++ ['\n'] := by
  refine ⟨fun imports' reordered => ?_, sortedSide classifier false draft.regularImports,
    sortedSide classifier true draft.regularImports, sortedSide_perm classifier _,
    fun _ => isExternal_of_mem_sortedSide, fun _ => isExternal_of_mem_sortedSide,
    pairwise_sortedSide, pairwise_sortedSide, ?_⟩
  · have written := sections_eq_written classifier { draft with imports := imports' }
    rw [regularImports, reordered.cgo, reordered.sortedSide_eq, reordered.sortedSide_eq] at written
    rw [render, written, render, sections_eq_written]
    rfl
  · rw [render, sections_eq_written]

/-- Two imports of C, and two with path and local name in common. -/
def unorderedDraft : Draft :=
  let spec (localName : Option Text) (path : String) (comment : String) : ImportSpec :=
    ⟨localName, path.toList, ⟨0, 0⟩, none, some comment.toList⟩
  ⟨.empty, false, "p".toList, [spec none "h.io/z" "// z", spec none "C" "// a",
    spec none "fmt" "// one", spec (some "f".toList) "fmt" "// f", spec none "fmt" "// two",
    spec none "C" "// b"], []⟩

theorem render_orders_sample :
    ∃ imports', Reordered unorderedDraft.imports imports' ∧ imports' ≠ unorderedDraft.imports ∧
      render .dotted { unorderedDraft with imports := imports' } =
        render .dotted unorderedDraft := by
  let imports' := [1, 3, 5, 2, 0, 4].filterMap (unorderedDraft.imports[·]?)
  have reordered : Reordered unorderedDraft.imports imports' := by
    refine ⟨?_, ?_, ?_⟩ <;> decide +kernel
  exact ⟨imports', reordered, by decide +kernel,
    (render_orders_imports .dotted unorderedDraft).1 imports' reordered⟩

end Draft

end GoSplit
