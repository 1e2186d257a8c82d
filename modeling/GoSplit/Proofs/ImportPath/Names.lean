import GoSplit.Proofs.Shading
import GoSplit.Pruning

/-!
The names an import goes by, before and after shading. They come from the last segment of a path
and, in front of a major version, from the one before it. A namespace puts segments in front of a
hosted path, which has a segment with a dot in it, and that is no version: so the name is never
looked for in the namespace, and an import is needed after shading where it was needed before.
-/

namespace GoSplit

open List (Forall₂)

namespace ImportPath

variable {path joined : Text} {front : List Text}

/-! ### The segment that names the package -/

theorem dot_not_mem_of_isMajorVersion {segment : Text} (version : isMajorVersion segment = true) :
    '.' ∉ segment := by
  unfold isMajorVersion at version
  split at version
  · next digit more =>
    intro mem
    rcases List.mem_cons.1 mem with eq | mem
    · exact absurd eq (by decide)
    · exact absurd (List.all_eq_true.1 version '.' mem) (by decide)
  · cases version

/-- Segments put in front of a path do not name the package, unless the path is a version and
nothing else. -/
theorem namingElement_of_segments (behind : segments joined = front ++ segments path)
    (enough : 2 ≤ (segments path).length ∨ isMajorVersion (lastElement path) = false) :
    namingElement joined = namingElement path := by
  obtain ⟨init, last, cut⟩ := (List.eq_nil_or_concat (segments path)).resolve_left
    (Text.pieces_ne_nil '/' path)
  rw [List.concat_eq_append] at cut
  rcases List.eq_nil_or_concat init with rfl | ⟨init, parent, rfl⟩
  · have plain : isMajorVersion last = false := by
      rcases enough with two | plain
      · simp [cut] at two
      · simpa [lastElement, cut] using plain
    cases eq : front.reverse with
    | nil => simp [namingElement, behind, cut, eq]
    | cons parent others => simp [namingElement, behind, cut, eq, plain]
  · simp [namingElement, behind, cut]

theorem lastElement_of_segments (behind : segments joined = front ++ segments path) :
    lastElement joined = lastElement path := by
  have last := List.getLast?_eq_some_getLast (Text.pieces_ne_nil '/' path)
  rw [segments, segments] at behind
  simp [lastElement, segments, behind, last]

theorem candidateNames_of_segments (behind : segments joined = front ++ segments path)
    (enough : 2 ≤ (segments path).length ∨ isMajorVersion (lastElement path) = false) :
    candidateNames joined = candidateNames path := by
  rw [candidateNames, candidateNames, assumedName, assumedName,
    namingElement_of_segments behind enough, lastElement_of_segments behind]

/-! ### Hosted paths -/

/-- A hosted path starts with the name of its host. -/
theorem dropWhile_slash_of_isDotted (hosted : isDotted path = true) :
    path.dropWhile (· == '/') = path := by
  cases path with
  | nil => rfl
  | cons c rest =>
    refine List.dropWhile_cons_of_neg fun slash => ?_
    obtain rfl : c = '/' := by simpa using slash
    have none_there : isDotted ('/' :: rest) = isDotted [] := isDotted_append_slash [] rest
    rw [none_there] at hosted
    cases hosted

/-- Where a hosted path has a single segment, that is the host and no version. -/
theorem enough_of_isDotted (hosted : isDotted path = true) :
    2 ≤ (segments path).length ∨ isMajorVersion (lastElement path) = false := by
  unfold isDotted at hosted
  split at hosted
  · next host others cut =>
    cases others with
    | nil =>
      refine .inr (Bool.eq_false_iff.2 fun version => ?_)
      have dot : '.' ∈ host := by simpa using hosted
      have last : lastElement path = host := by simp [lastElement, cut]
      exact dot_not_mem_of_isMajorVersion version (last ▸ dot)
    | cons next others => exact .inl (by simp [cut])
  · cases hosted

theorem segments_join (space path : Text) :
    segments (join space path) =
      segments (Text.dropEndWhile (· == '/') space) ++ segments (path.dropWhile (· == '/')) :=
  Text.pieces_append '/' _ _

/-- A namespace does not change the names a hosted package may have. -/
theorem candidateNames_join (hosted : isDotted path = true) (space : Text) :
    candidateNames (join space path) = candidateNames path := by
  have behind : segments (join space path) =
      segments (Text.dropEndWhile (· == '/') space) ++ segments path := by
    rw [segments_join, dropWhile_slash_of_isDotted hosted]
  exact candidateNames_of_segments behind (enough_of_isDotted hosted)

/-- A path without a host can be a version alone, and then a namespace gives it another name. -/
example : candidateNames (join "own".toList "v2".toList) = ["own".toList, "v2".toList] ∧
    candidateNames "v2".toList = ["v2".toList] := by
  decide

end ImportPath

/-! ### Imports that are needed -/

theorem ImportSpec.isUsed_of_names {spec spec' : ImportSpec}
    (name : spec'.localName = spec.localName) (cgo : spec'.isCgo = spec.isCgo)
    (names : ImportPath.candidateNames spec'.path = ImportPath.candidateNames spec.path)
    (used : List Text) : spec'.isUsed used = spec.isUsed used := by
  rw [isUsed, isUsed, isBlank, isBlank, isDot, isDot, name, cgo, names]

namespace Shader

/-- An entry as shading leaves it: its path is moved if it is external as written. -/
def shaded (shader : Shader) (spec : ImportSpec) : ImportSpec :=
  if shader.moves spec then { spec with path := ImportPath.join shader.space spec.path } else spec

theorem isDotted_of_moves {space : Text} {spec : ImportSpec}
    (moved : (Shader.mk .dotted space).moves spec = true) :
    ImportPath.isDotted spec.path = true := by
  have external : Classifier.dotted.classify spec.path space = .externalCanonical :=
    beq_iff_eq.1 moved
  by_contra plain
  rw [Bool.not_eq_true] at plain
  exact Classifier.classify_ne_externalCanonical_iff.2 (.inr plain) external

/-- An entry with its hosted path put behind a namespace is needed where it was needed before. -/
theorem isUsed_of_moved {space : Text} {spec spec' : ImportSpec}
    (hosted : ImportPath.isDotted spec.path = true) (name : spec'.localName = spec.localName)
    (path : spec'.path = space ++ '/' :: spec.path) (used : List Text) :
    spec'.isUsed used = spec.isUsed used := by
  have behind : ImportPath.segments spec'.path =
      ImportPath.segments space ++ ImportPath.segments spec.path := by
    rw [path, ImportPath.segments, Text.pieces_append]
    rfl
  have cgo : spec.isCgo = false := by
    rw [ImportSpec.isCgo, beq_eq_false_iff_ne]
    intro eq
    rw [eq] at hosted
    exact absurd hosted (by decide)
  have cgo' : spec'.isCgo = false := by
    rw [ImportSpec.isCgo, beq_eq_false_iff_ne]
    intro eq
    have slash : '/' ∈ spec'.path := by simp [path]
    rw [eq] at slash
    exact absurd slash (by decide)
  exact ImportSpec.isUsed_of_names name (cgo'.trans cgo.symm)
    (ImportPath.candidateNames_of_segments behind (ImportPath.enough_of_isDotted hosted)) used

/-- Shading changes neither the names that a hosted package may have, whatever the namespace, nor
whether an import is needed: not for a single entry, and not for the entries of a shaded file. -/
theorem shading_keeps_names (space : Text) :
    (∀ path, Classifier.dotted.isExternal path = true →
      ImportPath.candidateNames (ImportPath.join space path) = ImportPath.candidateNames path) ∧
    (∀ (spec : ImportSpec) (used : List Text),
      ((Shader.mk .dotted space).shaded spec).isUsed used = spec.isUsed used) ∧
    ∀ file shadedFile, (Shader.mk .dotted space).Shades file shadedFile → ∀ used,
      Forall₂ (fun spec' spec : ImportSpec => spec'.isUsed used = spec.isUsed used)
        shadedFile.importSpecs file.importSpecs := by
  refine ⟨fun path hosted => ImportPath.candidateNames_join hosted space, fun spec used => ?_,
    fun file shadedFile shades used => shades.specs.imp fun spec' spec ⟨name, _, _, path⟩ => ?_⟩
  · rw [shaded]
    split
    · next moved =>
      have hosted := isDotted_of_moves moved
      have path : ImportPath.join space spec.path =
          Text.dropEndWhile (· == '/') space ++ '/' :: spec.path := by
        rw [ImportPath.join, ImportPath.dropWhile_slash_of_isDotted hosted]
      exact @isUsed_of_moved _ spec { spec with path := ImportPath.join space spec.path } hosted rfl
        path used
    · rfl
  · split at path
    · next moved =>
      have hosted := isDotted_of_moves moved
      rw [ImportPath.dropWhile_slash_of_isDotted hosted] at path
      exact isUsed_of_moved hosted name path used
    · rw [ImportSpec.isUsed_of_names name (by rw [ImportSpec.isCgo, ImportSpec.isCgo, path])
        (by rw [path])]

/-- A file with one import, of a package that may go by the version at the end of its path. -/
def versionedFile (path : Text) : SourceFile :=
  ⟨.empty, ⟨"p".toList, ⟨0, 0⟩⟩, [⟨⟨0, 0⟩, false, [⟨none, path, ⟨0, 0⟩, none, none⟩]⟩], [], []⟩

theorem shading_keeps_version :
    ImportPath.candidateNames (ImportPath.join "own/".toList "k8s.io/api/core/v1".toList) =
      ["core".toList, "v1".toList] ∧
    Forall₂ (fun spec' spec : ImportSpec => spec'.isUsed ["v1".toList] = spec.isUsed ["v1".toList])
      (versionedFile "own/k8s.io/api/core/v1".toList).importSpecs
      (versionedFile "k8s.io/api/core/v1".toList).importSpecs := by
  have shades : (Shader.mk .dotted "own".toList).Shades (versionedFile "k8s.io/api/core/v1".toList)
      (versionedFile "own/k8s.io/api/core/v1".toList) :=
    ⟨rfl, rfl, .nil, .cons ⟨rfl, rfl, rfl, by decide⟩ .nil⟩
  refine ⟨((shading_keeps_names "own/".toList).1 _ (by decide)).trans (by decide), ?_⟩
  exact (shading_keeps_names "own".toList).2.2 _ _ shades _

end Shader

end GoSplit
