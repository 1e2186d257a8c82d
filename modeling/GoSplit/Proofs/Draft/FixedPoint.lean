import GoSplit.Proofs.Draft.Echoes
import GoSplit.Proofs.Draft.Headers
import GoSplit.Proofs.SourceFile.Twin

/-!
Writing a file that a draft has written. When the imports of a file come first, its
declarations are complete and its comments are read again as they are written, the text of
the file read again is the same text.
-/

namespace GoSplit

open List (Forall₂)
open Token (Chained Covers Fills Layout Reads Same pushGap stack)
open SourceFile (Item ItemsOf SameLine StartsLine)

namespace Draft

/-! ### The order of the imports -/

theorem specLe_total (a b : ImportSpec) : (specLe a b || specLe b a) = true := by
  by_cases path : a.path = b.path
  · rw [specLe, specLe, if_pos path, if_pos path.symm]
    cases a.localName with
    | none => rfl
    | some x =>
      cases b.localName with
      | none => rfl
      | some y => exact Text.le_total x y
  · rw [specLe, specLe, if_neg path, if_neg (Ne.symm path)]
    exact Text.le_total a.path b.path

theorem specLe_trans (a b c : ImportSpec) (h : specLe a b = true) (h' : specLe b c = true) :
    specLe a c = true := by
  unfold specLe at h h' ⊢
  by_cases first : a.path = b.path
  · rw [if_pos first] at h
    by_cases second : b.path = c.path
    · rw [if_pos second] at h'
      rw [if_pos (first.trans second)]
      cases left : a.localName with
      | none => rfl
      | some x =>
        cases middle : b.localName with
        | none => simp [left, middle] at h
        | some y =>
          cases right : c.localName with
          | none => simp [middle, right] at h'
          | some z =>
            simp only [left, middle, right] at h h'
            exact Text.le_trans h h'
    · rw [if_neg second] at h'
      rw [first, if_neg second]
      exact h'
  · rw [if_neg first] at h
    by_cases second : b.path = c.path
    · rw [← second, if_neg first]
      exact h
    · rw [if_neg second] at h'
      have apart : a.path ≠ c.path := by
        intro same
        rw [← same] at h'
        exact first (Text.le_antisymm h h')
      rw [if_neg apart]
      exact Text.le_trans h h'

theorem Echoes.specLe_eq {indent : Text} {a' a b' b : ImportSpec} (ha : Echoes indent a' a)
    (hb : Echoes indent b' b) : specLe a' b' = specLe a b := by
  rw [specLe, specLe, ha.path, hb.path, ha.localName, hb.localName]

theorem pairwise_echoes {indent : Text} {specs' specs : List ImportSpec}
    (h : Forall₂ (Echoes indent) specs' specs)
    (sorted : specs.Pairwise fun a b => specLe a b = true) :
    specs'.Pairwise fun a b => specLe a b = true := by
  have below : ∀ {a' a : ImportSpec} {specs' specs : List ImportSpec}, Echoes indent a' a →
      Forall₂ (Echoes indent) specs' specs → (∀ b ∈ specs, specLe a b = true) →
      ∀ b' ∈ specs', specLe a' b' = true := by
    intro a' a specs' specs echo more all
    induction more with
    | nil => simp
    | cons echo' _ ih =>
      rw [List.forall_mem_cons] at all ⊢
      exact ⟨(echo.specLe_eq echo').trans all.1, ih all.2⟩
  induction h with
  | nil => exact .nil
  | cons echo more ih =>
    rw [List.pairwise_cons] at sorted ⊢
    exact ⟨below echo more sorted.1, ih sorted.2⟩

/-- Imports that are written like sorted ones are written in their order. -/
theorem importGroup_echoes {specs' specs : List ImportSpec}
    (h : Forall₂ (Echoes ['\t']) specs' (specs.mergeSort specLe)) :
    importGroup specs' = importGroup specs := by
  have sorted := pairwise_echoes h (List.pairwise_mergeSort specLe_trans specLe_total specs)
  rw [importGroup, importGroup, List.mergeSort_of_pairwise sorted]
  generalize specs.mergeSort specLe = sortedSpecs at h
  induction h with
  | nil => rfl
  | cons echo _ ih =>
    rw [List.pairwise_cons] at sorted
    rw [List.flatMap_cons, List.flatMap_cons, ih sorted.2, echo.doc, echo.specLine_eq]

/-! ### The block of imports -/

/-- The imports of a list in groups, the internal ones first. -/
def blockGroups (classifier : Classifier) (specs : List ImportSpec) : List (List ImportSpec) :=
  [specs.filter fun spec => !classifier.isExternal spec.path,
    specs.filter fun spec => classifier.isExternal spec.path].filter fun group => !group.isEmpty

theorem importBlock_several {classifier : Classifier} {specs : List ImportSpec}
    (several : 2 ≤ specs.length) :
    importBlock classifier specs = some ("import (\n".toList ++
      Text.joinWith ['\n'] ((blockGroups classifier specs).map importGroup) ++ [')']) := by
  match specs, several with
  | a :: b :: rest, _ =>
    simp [importBlock, blockGroups, List.partition_eq_filter_filter, Function.comp_def]

/-- The imports of a list in the order they are written. -/
theorem flatMap_blockGroups (classifier : Classifier) (specs : List ImportSpec) :
    (blockGroups classifier specs).flatMap (fun group => group.mergeSort specLe) =
      (specs.filter fun spec => !classifier.isExternal spec.path).mergeSort specLe ++
        (specs.filter fun spec => classifier.isExternal spec.path).mergeSort specLe := by
  have filled : ∀ groups : List (List ImportSpec),
      (groups.filter fun group => !group.isEmpty).flatMap (fun group => group.mergeSort specLe) =
        groups.flatMap fun group => group.mergeSort specLe := by
    intro groups
    induction groups with
    | nil => rfl
    | cons group groups ih =>
      cases group with
      | nil => simpa using ih
      | cons spec group => simpa using ih
  rw [blockGroups, filled]
  simp

/-- The groups of a list that has been read again are written like those of the list. -/
theorem blockGroups_echoes {classifier : Classifier} {specs' specs : List ImportSpec}
    (h : Forall₂ (Echoes ['\t']) specs'
      ((blockGroups classifier specs).flatMap fun group => group.mergeSort specLe)) :
    (blockGroups classifier specs').map importGroup =
      (blockGroups classifier specs).map importGroup := by
  rw [flatMap_blockGroups] at h
  generalize internal : (specs.filter fun spec => !classifier.isExternal spec.path) = inside at h
  generalize external : (specs.filter fun spec => classifier.isExternal spec.path) = outside at h
  have isInternal : ∀ spec ∈ inside.mergeSort specLe, classifier.isExternal spec.path = false := by
    intro spec mem
    rw [List.mem_mergeSort, ← internal] at mem
    simpa using (List.mem_filter.1 mem).2
  have isExternal : ∀ spec ∈ outside.mergeSort specLe, classifier.isExternal spec.path = true := by
    intro spec mem
    rw [List.mem_mergeSort, ← external] at mem
    exact (List.mem_filter.1 mem).2
  -- Among the imports read again, each kind stands in the order of its own group.
  have left : Forall₂ (Echoes ['\t']) (specs'.filter fun spec => !classifier.isExternal spec.path)
      (inside.mergeSort specLe) := by
    have cut : (inside.mergeSort specLe ++ outside.mergeSort specLe).filter
        (fun spec => !classifier.isExternal spec.path) = inside.mergeSort specLe := by
      rw [List.filter_append, List.filter_eq_self.2 (fun spec mem => by simp [isInternal spec mem]),
        List.filter_eq_nil_iff.2 (fun spec mem => by simp [isExternal spec mem]), List.append_nil]
    rw [← cut]
    exact List.rel_filter (fun _ _ echo => by simp [echo.path]) h
  have right : Forall₂ (Echoes ['\t']) (specs'.filter fun spec => classifier.isExternal spec.path)
      (outside.mergeSort specLe) := by
    have cut : (inside.mergeSort specLe ++ outside.mergeSort specLe).filter
        (fun spec => classifier.isExternal spec.path) = outside.mergeSort specLe := by
      rw [List.filter_append, List.filter_eq_nil_iff.2
        (fun spec mem => by simp [isInternal spec mem]),
        List.filter_eq_self.2 isExternal, List.nil_append]
    rw [← cut]
    exact List.rel_filter (fun _ _ echo => by simp [echo.path]) h
  have empty : ∀ {specs' specs : List ImportSpec},
      Forall₂ (Echoes ['\t']) specs' (specs.mergeSort specLe) → specs'.isEmpty = specs.isEmpty := by
    intro specs' specs h
    have length := h.length_eq
    rw [List.length_mergeSort] at length
    rw [Bool.eq_iff_iff, List.isEmpty_iff_length_eq_zero, List.isEmpty_iff_length_eq_zero, length]
  have same := importGroup_echoes left
  have same' := importGroup_echoes right
  rw [blockGroups, blockGroups, internal, external]
  simp only [List.filter_cons, List.filter_nil, empty left, empty right]
  split <;> split <;> simp [same, same']

theorem importBlock_echoes {classifier : Classifier} {specs' specs : List ImportSpec}
    (several : 2 ≤ specs.length)
    (h : Forall₂ (Echoes ['\t']) specs'
      ((blockGroups classifier specs).flatMap fun group => group.mergeSort specLe)) :
    importBlock classifier specs' = importBlock classifier specs := by
  have same := blockGroups_echoes h
  have length : specs'.length = specs.length := by
    rw [h.length_eq, flatMap_blockGroups, List.length_append, List.length_mergeSort,
      List.length_mergeSort]
    have both := List.length_eq_length_filter_add (l := specs)
      (fun spec => classifier.isExternal spec.path)
    omega
  rw [importBlock_several several, importBlock_several (length ▸ several), same]

/-! ### All imports -/

/-- The imports of one declaration, and how the comments above them are indented. -/
structure Part where
  indent : Text
  specs : List ImportSpec

namespace Part

/-- The tokens are a declaration of the part, with an empty line above it. -/
def Declared (group : List Token) (part : Part) : Prop :=
  Declares part.indent part.specs (pushGap ['\n', '\n'] group)

def Echoed (specs' : List ImportSpec) (part : Part) : Prop :=
  Forall₂ (Echoes part.indent) specs' part.specs

def ReadFrom (item : Item) (part : Part) : Prop :=
  ∃ grouped specs', item.content = .imports grouped specs' ∧ Echoed specs' part

end Part

/-- Import declarations below each other are read one by one. -/
theorem exists_declared {groups : List (List Token)} {parts : List Part}
    (h : Forall₂ Part.Declared groups parts)
    {next trailing : List Token} {items : List Item} (apart : StartsLine next)
    (rest : ItemsOf next items trailing) :
    ∃ imports, ItemsOf (stack groups ++ next) (imports ++ items) trailing ∧
      Forall₂ Part.ReadFrom imports parts := by
  induction h with
  | nil => exact ⟨[], rest, .nil⟩
  | @cons group part groups parts declares _ ih =>
    obtain ⟨imports, found, echoes⟩ := ih
    have apart' : StartsLine (stack groups ++ next) := by
      have starts := startsLine_of_layout (Token.layout_stack groups)
      cases below : stack groups with
      | nil => exact apart
      | cons t ts =>
        rw [below] at starts
        exact starts
    obtain ⟨item, grouped, specs', content, same, read⟩ := declares _ apart'
    refine ⟨item :: imports, ?_, .cons ⟨grouped, specs', content, same⟩ echoes⟩
    rw [Token.stack_cons, List.append_assoc]
    exact read found

theorem isImport_of_readFrom {imports : List Item} {parts : List Part}
    (h : Forall₂ Part.ReadFrom imports parts) :
    ∀ item ∈ imports, ∃ grouped specs, item.content = .imports grouped specs := by
  induction h with
  | nil => simp
  | cons first _ ih =>
    obtain ⟨grouped, specs', content, -⟩ := first
    exact List.forall_mem_cons.2 ⟨⟨grouped, specs', content⟩, ih⟩

/-- Imports that stand in different places. -/
structure SameText (spec' spec : ImportSpec) : Prop where
  localName : spec'.localName = spec.localName
  path : spec'.path = spec.path
  doc : spec'.doc = spec.doc
  comment : spec'.comment = spec.comment

theorem echoes_of_sameText {indent : Text} {specs'' specs' specs : List ImportSpec}
    (same : Forall₂ SameText specs'' specs') (h : Forall₂ (Echoes indent) specs' specs) :
    Forall₂ (Echoes indent) specs'' specs := by
  induction same generalizing specs with
  | nil => exact h
  | cons first _ ih =>
    cases h with
    | cons echo more =>
      refine .cons ⟨first.localName.trans echo.localName, first.path.trans echo.path,
        first.comment.trans echo.comment, ?_⟩ (ih more)
      rw [first.doc, echo.doc]

theorem exists_echoed {imports : List Item} {parts : List Part}
    (h : Forall₂ Part.ReadFrom imports parts) {specs : List ImportSpec}
    (same : Forall₂ SameText specs ((SourceFile.importsOf imports).flatMap (·.specs))) :
    ∃ found, specs = found.flatten ∧ Forall₂ Part.Echoed found parts := by
  induction h generalizing specs with
  | nil =>
    cases same
    exact ⟨[], rfl, .nil⟩
  | cons first _ ih =>
    obtain ⟨grouped, specs', content, echoed⟩ := first
    rw [SourceFile.importsOf, content, List.flatMap_cons] at same
    obtain ⟨found, eq, others⟩ := ih (List.forall₂_drop_append _ _ _ same)
    refine ⟨_ :: found, ?_,
      .cons (echoes_of_sameText (List.forall₂_take_append _ _ _ same) echoed) others⟩
    rw [List.flatten_cons, ← eq, List.take_append_drop]

/-- The imports as they are written: those of C alone, the others together. -/
def importTexts (classifier : Classifier) (specs : List ImportSpec) : List Text :=
  (specs.filter ImportSpec.isCgo).map singleImport ++
    (importBlock classifier (specs.filter fun spec => !spec.isCgo)).toList

/-- No empty line separates the comments above an import of a list. -/
def DenseImports (specs : List ImportSpec) : Prop :=
  2 ≤ (specs.filter fun spec => !spec.isCgo).length →
    ∀ spec ∈ specs, spec.isCgo = false → ∀ doc ∈ spec.doc, Dense doc

theorem Echoes.isCgo_eq {indent : Text} {spec' spec : ImportSpec} (h : Echoes indent spec' spec) :
    spec'.isCgo = spec.isCgo := by
  rw [ImportSpec.isCgo, ImportSpec.isCgo, h.path]

theorem forall_isCgo {indent : Text} {specs' specs : List ImportSpec}
    (h : Forall₂ (Echoes indent) specs' specs) {b : Bool} (all : ∀ spec ∈ specs, spec.isCgo = b) :
    ∀ spec ∈ specs', spec.isCgo = b := by
  induction h with
  | nil => simp
  | cons echo _ ih =>
    rw [List.forall_mem_cons] at all ⊢
    exact ⟨echo.isCgo_eq.trans all.1, ih all.2⟩

theorem importTexts_append {classifier : Classifier} {cgo others : List ImportSpec}
    (isCgo : ∀ spec ∈ cgo, spec.isCgo = true) (notCgo : ∀ spec ∈ others, spec.isCgo = false) :
    importTexts classifier (cgo ++ others) = cgo.map singleImport ++
      (importBlock classifier others).toList := by
  have left : (cgo ++ others).filter ImportSpec.isCgo = cgo := by
    rw [List.filter_append, List.filter_eq_self.2 isCgo,
      List.filter_eq_nil_iff.2 fun spec mem => by simp [notCgo spec mem], List.append_nil]
  have right : ((cgo ++ others).filter fun spec => !spec.isCgo) = others := by
    rw [List.filter_append, List.filter_eq_nil_iff.2 fun spec mem => by simp [isCgo spec mem],
      List.filter_eq_self.2 fun spec mem => by simp [notCgo spec mem], List.nil_append]
  rw [importTexts, left, right]

theorem map_singleImport_echoes {specs' specs : List ImportSpec}
    (h : Forall₂ (Echoes []) specs' specs) :
    specs'.map singleImport = specs.map singleImport := by
  induction h with
  | nil => rfl
  | cons echo _ ih => rw [List.map_cons, List.map_cons, ih, echo.singleImport_eq]

theorem mem_of_mem_blockGroups {classifier : Classifier} {specs : List ImportSpec}
    {group : List ImportSpec} (h : group ∈ blockGroups classifier specs) {spec : ImportSpec}
    (mem : spec ∈ group) : spec ∈ specs := by
  simp only [blockGroups, List.mem_filter, List.mem_cons, List.not_mem_nil, or_false] at h
  rcases h.1 with rfl | rfl
  · exact List.mem_of_mem_filter mem
  · exact List.mem_of_mem_filter mem

/-- The tokens of the imports other than those of C. -/
theorem exists_fills_block {classifier : Classifier} {specs : List ImportSpec}
    (legible : ∀ spec ∈ specs, spec.Legible)
    (dense : 2 ≤ specs.length → ∀ spec ∈ specs, ∀ doc ∈ spec.doc, Dense doc)
    (notCgo : ∀ spec ∈ specs, spec.isCgo = false) :
    ∃ groups parts, (∀ group ∈ groups, group ≠ []) ∧
      Forall₂ Fills groups (importBlock classifier specs).toList ∧
      Forall₂ Part.Declared groups parts ∧
      ∀ found, Forall₂ Part.Echoed found parts →
        importBlock classifier found.flatten = importBlock classifier specs ∧
          ∀ spec ∈ found.flatten, spec.isCgo = false := by
  match specs with
  | [] =>
    refine ⟨[], [], by simp, .nil, .nil, fun found echoes => ?_⟩
    cases echoes
    exact ⟨rfl, by simp⟩
  | [spec] =>
    obtain ⟨group, some, fills, declares⟩ := exists_fills_singleImport (legible spec (by simp))
    refine ⟨[group], [⟨[], [spec]⟩], by simpa using some, .cons fills .nil, .cons declares .nil,
      fun found echoes => ?_⟩
    obtain ⟨specs', _, same, none_left, rfl⟩ := List.forall₂_cons_right_iff.1 echoes
    cases none_left
    have all := forall_isCgo same notCgo
    obtain ⟨spec', _, echo, none_left, rfl⟩ := List.forall₂_cons_right_iff.1 same
    cases none_left
    refine ⟨?_, by simpa using all⟩
    simp [importBlock, echo.singleImport_eq]
  | first :: second :: rest =>
    generalize eq : first :: second :: rest = specs at *
    have several : 2 ≤ specs.length := by simp [← eq]
    have inside : ∀ group ∈ blockGroups classifier specs, ∀ spec ∈ group, spec ∈ specs :=
      fun group mem spec memSpec => mem_of_mem_blockGroups mem memSpec
    obtain ⟨group, some, fills, declares⟩ := exists_fills_groups
      (fun group mem spec memSpec => legible spec (inside group mem spec memSpec))
      (fun group mem spec memSpec => dense several spec (inside group mem spec memSpec))
    refine ⟨[group], [⟨['\t'], _⟩], by simpa using some, ?_, .cons declares .nil,
      fun found echoes => ?_⟩
    · rw [importBlock_several several]
      exact .cons fills .nil
    · obtain ⟨specs', _, same, none_left, rfl⟩ := List.forall₂_cons_right_iff.1 echoes
      cases none_left
      rw [List.flatten_singleton]
      refine ⟨importBlock_echoes several same, forall_isCgo same ?_⟩
      intro spec mem
      obtain ⟨group, memGroup, memSpec⟩ := List.mem_flatMap.1 mem
      exact notCgo spec (mem_of_mem_blockGroups memGroup (List.mem_mergeSort.1 memSpec))

theorem exists_fills_singles {specs : List ImportSpec} (legible : ∀ spec ∈ specs, spec.Legible) :
    ∃ groups, (∀ group ∈ groups, group ≠ []) ∧ Forall₂ Fills groups (specs.map singleImport) ∧
      Forall₂ Part.Declared groups
        (specs.map fun spec => ⟨[], [spec]⟩) := by
  induction specs with
  | nil => exact ⟨[], by simp, .nil, .nil⟩
  | cons spec specs ih =>
    obtain ⟨first, others⟩ := List.forall_mem_cons.1 legible
    obtain ⟨groups, some, fills, declares⟩ := ih others
    obtain ⟨group, some', fills', declares'⟩ := exists_fills_singleImport first
    exact ⟨group :: groups, List.forall_mem_cons.2 ⟨some', some⟩, .cons fills' fills,
      .cons declares' declares⟩

theorem flatten_singles {specs : List ImportSpec} {found : List (List ImportSpec)}
    (h : Forall₂ Part.Echoed
      found (specs.map fun spec => ⟨[], [spec]⟩)) : Forall₂ (Echoes []) found.flatten specs := by
  induction specs generalizing found with
  | nil =>
    cases h
    exact .nil
  | cons spec specs ih =>
    obtain ⟨specs', others, same, more, rfl⟩ := List.forall₂_cons_right_iff.1 h
    exact List.rel_append same (ih more)

/-- The tokens of the imports, and what is read from them. -/
theorem exists_fills_imports {classifier : Classifier} {specs : List ImportSpec}
    (legible : ∀ spec ∈ specs, spec.Legible) (dense : DenseImports specs) :
    ∃ groups, (∀ group ∈ groups, group ≠ []) ∧ Forall₂ Fills groups (importTexts classifier specs) ∧
      ∀ {next trailing : List Token} {items : List Item}, StartsLine next →
        ItemsOf next items trailing → ∃ imports,
          ItemsOf (stack groups ++ next) (imports ++ items) trailing ∧
          (∀ item ∈ imports, ∃ grouped specs, item.content = .imports grouped specs) ∧
          ∀ specs', Forall₂ SameText specs' ((SourceFile.importsOf imports).flatMap (·.specs)) →
            importTexts classifier specs' = importTexts classifier specs := by
  have isCgo : ∀ spec ∈ specs.filter ImportSpec.isCgo, spec.isCgo = true :=
    fun spec mem => (List.mem_filter.1 mem).2
  have notCgo : ∀ spec ∈ specs.filter fun spec => !spec.isCgo, spec.isCgo = false :=
    fun spec mem => by simpa using (List.mem_filter.1 mem).2
  obtain ⟨singles, some, fills, declares⟩ := exists_fills_singles
    fun spec mem => legible spec (List.mem_of_mem_filter (p := ImportSpec.isCgo) mem)
  obtain ⟨block, parts, some', fills', declares', same⟩ := @exists_fills_block classifier _
    (fun spec mem => legible spec (List.mem_of_mem_filter mem))
    (fun several spec mem => dense several spec (List.mem_of_mem_filter mem) (notCgo spec mem))
      notCgo
  refine ⟨singles ++ block, ?_, List.rel_append fills fills', fun apart rest => ?_⟩
  · intro group mem
    rcases List.mem_append.1 mem with mem | mem
    · exact some group mem
    · exact some' group mem
  obtain ⟨imports, found, read⟩ := exists_declared (List.rel_append declares declares') apart rest
  refine ⟨imports, found, ?_, ?_⟩
  · exact isImport_of_readFrom read
  · intro specs' sameText
    obtain ⟨lists, rfl, echoes⟩ := exists_echoed read sameText
    have left := flatten_singles (List.forall₂_take_append _ _ _ echoes)
    obtain ⟨block', others⟩ := same _ (List.forall₂_drop_append _ _ _ echoes)
    rw [← List.take_append_drop (specs.filter ImportSpec.isCgo |>.map fun spec =>
      (⟨[], [spec]⟩ : Part)).length lists, List.flatten_append,
      importTexts_append (forall_isCgo left isCgo) others, block', map_singleImport_echoes left]
    rfl

/-! ### The whole file -/

theorem stack_append (gs hs : List (List Token)) : stack (gs ++ hs) = stack gs ++ stack hs := by
  simp [stack]

theorem sameText_of_twins {literals : List Token} {specs' specs : List ImportSpec}
    (h : ImportSpec.Twins Same literals specs' specs) : Forall₂ SameText specs' specs := by
  induction h with
  | nil => exact .nil
  | cons same twin _ ih =>
    refine .cons ⟨twin.localName, ?_, twin.doc, twin.comment⟩ ih
    rw [twin.path', twin.path, same.text]

/-- The declarations of a draft, as tokens that fill their texts. -/
theorem exists_fills_decls {ds : List Decl} (h : Decl.Printable ds) :
    ∃ groups, (∀ group ∈ groups, group ≠ []) ∧
      Forall₂ (fun group d => Token.Copied group d.tokens ∧
        Token.spell group = Text.trimEnd d.text) groups ds ∧
      Forall₂ Fills groups ((ds.map Decl.text).map Text.trimEnd) := by
  obtain ⟨groups, copied, covers⟩ := exists_copied h
  refine ⟨groups, ?_, copied, ?_⟩
  · clear covers h
    induction copied with
    | nil => simp
    | @cons group d groups ds both _ ih =>
      refine List.forall_mem_cons.2 ⟨?_, ih⟩
      rintro rfl
      have tokens : d.tokens ≠ [] := by simp [Decl.tokens]
      cases eq : d.tokens with
      | nil => exact tokens eq
      | cons t ts =>
        rw [eq] at both
        cases both.1
  · clear h
    induction copied with
    | nil => exact .nil
    | cons both _ ih =>
      cases covers with
      | cons cover more => exact .cons (cover.fills_spell both.2) (ih more)

/-- The text of a parsed file, cut behind the package clause. -/
theorem render_ofSourceFile (classifier : Classifier) (file : SourceFile) :
    (ofSourceFile file).render classifier =
      (file.header.texts.flatMap fun text => text ++ ['\n', '\n']) ++
        (file.header.docText ++ ("package".toList ++ ' ' :: file.package.name)) ++
        ((importTexts classifier file.importSpecs ++
          (file.decls.map Decl.text).map Text.trimEnd).flatMap fun t => '\n' :: '\n' :: t) ++
            ['\n'] := by
  have doc : (ofSourceFile file).docText = file.header.docText := by
    unfold docText Header.docText ofSourceFile
    cases file.header.packageDoc <;> rfl
  rw [render_eq, preamble, List.append_assoc _ (docText _), doc]
  rfl

theorem readPackage_clause {size : Nat} {cs : List Token} (comments : ∀ c ∈ cs, c.isComment = true)
    (gap : Text) {name : Text} (free : isKeyword name = false) {us : List Token}
    (apart : StartsLine us) :
    ∃ package, SourceFile.readPackage size
      ((cs ++ pushGap gap (⟨.ident, [], "package".toList, 0⟩ ::
        pushGap [' '] [⟨.ident, [], name, 0⟩]) ++
        us).dropWhile Token.isComment) = .ok (package, us) := by
  have none_same : SameLine [] := by simp [SameLine]
  have apart' := SourceFile.sameLineComments_append none_same apart
  rw [List.nil_append] at apart'
  refine ⟨_, SourceFile.readPackage_eq_ok_iff.2 ⟨⟨.ident, gap ++ [], "package".toList, 0⟩, [],
    ⟨.ident, [' '], name, 0⟩, us, ?_, by simp, rfl, by simp [Token.isName, free], rfl, ?_⟩⟩
  · rw [List.append_assoc, List.dropWhile_append_of_pos comments]
    rfl
  · rw [apart']
    rfl

/-- The text of a file that can be printed and whose comments are legible, read again. -/
theorem exists_read_again {file : SourceFile} (printable : file.Printable)
    (header : file.header.Legible) (imports : ∀ spec ∈ file.importSpecs, spec.Legible)
    (dense : DenseImports file.importSpecs) (classifier : Classifier) {size : Nat} :
    ∃ raw file', Covers raw ((ofSourceFile file).render classifier) ∧
      SourceFile.ofTokens size raw = .ok file' ∧ file'.header.texts = file.header.texts ∧
      file'.header.packageDoc = file.header.packageDoc ∧
      ∀ specs', Forall₂ SameText specs' file'.importSpecs →
        importTexts classifier specs' = importTexts classifier file.importSpecs := by
  obtain ⟨⟨rest, reads⟩, free⟩ := printable.package
  have name : Fills [⟨.ident, [], file.package.name, 0⟩] file.package.name :=
    ⟨by simp, Token.blank_nil, by simpa using reads.atEnd (by simp), trivial⟩
  have clause := fills_consSpace (reads_package []) (by simp) name (by simp)
  obtain ⟨cs, gap, comments, head, sameHeader⟩ := Header.exists_fills_header header clause rfl rfl
  obtain ⟨importGroups, someImports, fillsImports, readImports⟩ :=
    @exists_fills_imports classifier _ imports dense
  obtain ⟨declGroups, someDecls, copied, fillsDecls⟩ := exists_fills_decls printable.decls
  have body : Forall₂ Fills (importGroups ++ declGroups)
      (importTexts classifier file.importSpecs ++ (file.decls.map Decl.text).map Text.trimEnd) :=
    List.rel_append fillsImports fillsDecls
  have some : ∀ group ∈ importGroups ++ declGroups, group ≠ [] := by
    intro group mem
    rcases List.mem_append.1 mem with mem | mem
    · exact someImports group mem
    · exact someDecls group mem
  have whole := (head.stack body some).covers_newline
  rw [← render_ofSourceFile] at whole
  -- The tokens behind the package clause.
  have layout := Token.layout_stack declGroups
  have apart := startsLine_of_layout layout
  obtain ⟨items, trailing, found, declares, -, -, -⟩ :=
    exists_items_of_layout printable.decls copied layout
  obtain ⟨importItems, foundAll, isImport, sameImports⟩ := readImports apart found
  rw [stack_append] at whole
  have starts : StartsLine (stack importGroups ++ stack declGroups) := by
    rw [← stack_append]
    exact startsLine_of_layout (Token.layout_stack _)
  obtain ⟨package, read⟩ := @readPackage_clause size _ comments gap _ free _ starts
  refine ⟨_, _, whole, SourceFile.ofTokens_eq_ok_iff.2
    ⟨package, _, importItems ++ items, trailing, read, foundAll, rfl⟩, (sameHeader _).1,
    (sameHeader _).2, ?_⟩
  intro specs' same
  refine sameImports specs' ?_
  rwa [SourceFile.importSpecs, SourceFile.importsOf_append, SourceFile.importsOf_eq_nil declares,
    List.append_nil] at same

end Draft

namespace SourceFile

/-- No comment keeps a carriage return at its end. -/
def CleanComments (file : SourceFile) : Prop :=
  ∀ t ∈ file.tokens, t.isComment = true → t.text.getLast? ≠ some '\r'

instance (file : SourceFile) : Decidable file.CleanComments :=
  inferInstanceAs (Decidable (∀ t ∈ file.tokens, t.isComment = true → t.text.getLast? ≠ some '\r'))

theorem legible_of_source {src : Text} {file : SourceFile} (parsed : ofSource src = .ok file)
    (printable : file.Printable) (clean : file.CleanComments) :
    file.header.Legible ∧ ∀ spec ∈ file.importSpecs, spec.Legible := by
  obtain ⟨ts, tokens, found⟩ := ofSource_eq_ok_iff.1 parsed
  obtain ⟨package, rest, items, trailing, clause, itemsOf, rfl⟩ := ofTokens_eq_ok_iff.1 found
  obtain ⟨tail, -, chained, -, -⟩ := Token.tokenize_eq_ok_iff.1 tokens
  refine ⟨Header.legible_readHeader chained clean, fun spec mem => ?_⟩
  have suffix : rest <:+ ts := (suffix_of_readPackage clause).trans (List.dropWhile_suffix _)
  obtain ⟨item, memItem, grouped, specs, content, memSpec⟩ := mem_importsOf mem
  obtain ⟨rest', read, -⟩ := itemsOf.read memItem
  have here := (Item.found read content spec memSpec).mono (itemsOf.within memItem)
  exact (here.mono suffix.isInfix).legible chained (printable.imports spec mem) clean

end SourceFile

namespace Draft

/-- Rendering is a fixed point: the text of a parsed file, parsed and rendered again, is the same
text. The imports have to come first with paths that fit between double quotes, the declarations
have to be complete, no comment may keep a carriage return at its end, and no empty line may
separate the comments above an import that is written in a list. -/
theorem render_fixed {name src : Text} {file : SourceFile}
    (parsed : SourceFile.parse name src = .ok file) (first : file.ImportsFirst)
    (complete : ∀ d ∈ file.decls, d.isComplete = true) (plain : file.PlainImports)
    (clean : file.CleanComments) (dense : DenseImports file.importSpecs) (classifier : Classifier) :
    ∃ file', SourceFile.parse name ((ofSourceFile file).render classifier) = .ok file' ∧
      (ofSourceFile file').render classifier = (ofSourceFile file).render classifier := by
  rw [SourceFile.parse_eq_ok_iff] at parsed
  have printable := SourceFile.printable_of_source parsed first complete plain
  obtain ⟨header, imports⟩ := SourceFile.legible_of_source parsed printable clean
  have draft : (ofSourceFile file).Printable file.decls :=
    ⟨printable.header, printable.package, printable.imports, rfl, printable.decls⟩
  obtain ⟨file', parsed', package, repeats, -⟩ := draft.parse_render classifier
  refine ⟨file', SourceFile.parse_eq_ok_iff.2 parsed', ?_⟩
  -- The same text read token by token: where the tokens stand makes no difference.
  obtain ⟨raw, rawFile, covers, found, texts, doc, sameImports⟩ :=
    @exists_read_again file printable header imports dense classifier 0
  obtain ⟨ts, tokens, found'⟩ := SourceFile.ofSource_eq_ok_iff.1 parsed'
  rw [covers.tokenize] at tokens
  cases tokens
  have twin : ∀ t' t : Token, Same t' t → Token.Twin t' t :=
    fun t' t same => ⟨same.gap, .inl ⟨same.kind, same.text⟩⟩
  obtain ⟨file'', literals, again, sameHeader, -, -, -, twins⟩ :=
    SourceFile.ofTokens_twin twin (Text.byteLength _) found (Token.forall₂_place 0 raw)
  rw [found'] at again
  cases again
  have decls : (file'.decls.map Decl.text).map Text.trimEnd =
      (file.decls.map Decl.text).map Text.trimEnd := by
    clear found' twins package parsed' sameHeader
    generalize file'.decls = ds' at repeats
    generalize file.decls = ds at repeats
    induction repeats with
    | nil => rfl
    | cons same _ ih =>
      rw [List.map_cons, List.map_cons, List.map_cons, List.map_cons, ih, same.text,
        Text.trimEnd_trimEnd]
  have docText : file'.header.docText = file.header.docText := by
    rw [Header.docText, Header.docText, sameHeader, doc]
  have name : file'.package.name = file.package.name := package
  rw [render_ofSourceFile, render_ofSourceFile, sameImports _ (sameText_of_twins twins), decls,
    docText, sameHeader, texts, name]

theorem dense_of_newlines {doc : Text} (h : doc.newlines < 2) : Dense doc := by
  rintro before line after rfl - -
  simp only [Text.newlines, List.count_append, List.count_cons_self] at h
  omega

/-- A file with every kind of comment in its head and imports in no order. -/
def commentedSource : Text :=
  ("// All rights.\n\n//go:build linux \n\n// Package p.\n/* More. */\npackage p\n\n" ++
    "// #include <a.h>\nimport \"C\"\n\nimport (\n  // Hosted.\n" ++
    "  /* Twice. */\n  z \"h.io/z\" // z\n\n" ++
    "  _ \"h.io/z\"\n  \"fmt\"\n)\n\n// F does.\nfunc F() {} // done \n").toList

theorem render_fixed_sample :
    ∃ file file', SourceFile.parse [] commentedSource = .ok file ∧ file.importSpecs.length = 4 ∧
      SourceFile.parse [] ((ofSourceFile file).render .dotted) = .ok file' ∧
      (ofSourceFile file').render .dotted = (ofSourceFile file).render .dotted := by
  have check : (SourceFile.parse [] commentedSource).toOption.any (fun file =>
      decide file.ImportsFirst && decide (∀ d ∈ file.decls, d.isComplete = true) &&
        decide file.PlainImports && decide file.CleanComments &&
        decide (∀ spec ∈ file.importSpecs, ∀ doc ∈ spec.doc, doc.newlines < 2) &&
        decide (file.importSpecs.length = 4)) = true := by
    unfold commentedSource
    rw [String.toList_append, String.toList_append, String.toList_append, String.toList_ofList,
      String.toList_ofList, String.toList_ofList, String.toList_ofList]
    decide +kernel
  obtain ⟨file, parsed, passed⟩ := SourceFile.exists_of_toOption_any check
  simp only [Bool.and_eq_true, decide_eq_true_eq] at passed
  obtain ⟨⟨⟨⟨⟨first, complete⟩, plain⟩, clean⟩, short⟩, four⟩ := passed
  have dense : DenseImports file.importSpecs :=
    fun _ spec mem _ doc above => dense_of_newlines (short spec mem doc above)
  obtain ⟨file', parsed', same⟩ := render_fixed parsed first complete plain clean dense .dotted
  exact ⟨file, file', parsed, four, parsed', same⟩

end Draft

end GoSplit
