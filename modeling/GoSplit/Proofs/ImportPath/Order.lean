import GoSplit.Proofs.ImportPath

/-!
The order of paths. A path is compared with a root character by character, with one look at what
follows the root; that comes to comparing their segments, and empty segments count like any others:
a root that ends in a slash has one at its end, and one that starts with a slash at its start. So
paths are ordered as lists of segments are by their prefixes, and the empty path, which has a
segment too, is the only one with nothing below it.
-/

namespace GoSplit

namespace ImportPath

variable {path root : Text}

/-- A path is known by its segments. -/
theorem segments_injective : Function.Injective segments :=
  Function.LeftInverse.injective (Text.joinWith_pieces '/')

theorem segments_append_slash (path more : Text) :
    segments (path ++ '/' :: more) = segments path ++ segments more :=
  Text.pieces_append '/' path more

/-- Segments behind those of a path are those of a path behind its slash. -/
theorem segments_append_joinWith {rest : List Text} (some : rest ≠ []) (plain : ∀ s ∈ rest, '/' ∉ s)
    (path : Text) : segments (path ++ '/' :: Text.joinWith ['/'] rest) = segments path ++ rest := by
  have inverse : segments (Text.joinWith ['/'] rest) = rest := Text.pieces_joinWith some plain
  rw [segments_append_slash, inverse]

theorem segments_prefix_iff :
    segments root <+: segments path ↔ path = root ∨ ∃ more, path = root ++ '/' :: more := by
  constructor
  · rintro ⟨rest, cut⟩
    by_cases none : rest = []
    · rw [none, List.append_nil] at cut
      exact .inl (segments_injective cut.symm)
    · have plain : ∀ s ∈ rest, '/' ∉ s := by
        intro s mem
        have inside : s ∈ segments path := by
          rw [← cut]
          exact List.mem_append_right _ mem
        exact Text.sep_not_mem_pieces '/' path s inside
      rw [← segments_append_joinWith none plain] at cut
      exact .inr ⟨_, segments_injective cut.symm⟩
  · rintro (rfl | ⟨more, rfl⟩)
    · exact List.prefix_refl _
    · rw [segments_append_slash]
      exact List.prefix_append _ _

/-- Lying below a path is having its segments in front. -/
theorem isUnder_iff_segments : isUnder path root = true ↔ root ≠ [] ∧
    segments root <+: segments path := by
  rw [isUnder_iff, segments_prefix_iff]

theorem isUnder_self (some : path ≠ []) : isUnder path path = true :=
  isUnder_iff_segments.2 ⟨some, List.prefix_refl _⟩

theorem isUnder_trans {middle : Text} (below : isUnder path middle = true)
    (above : isUnder middle root = true) : isUnder path root = true := by
  obtain ⟨-, front⟩ := isUnder_iff_segments.1 below
  obtain ⟨some, front'⟩ := isUnder_iff_segments.1 above
  exact isUnder_iff_segments.2 ⟨some, front'.trans front⟩

theorem isUnder_antisymm (below : isUnder path root = true) (above : isUnder root path = true) :
    path = root := by
  obtain ⟨-, front⟩ := isUnder_iff_segments.1 below
  obtain ⟨-, front'⟩ := isUnder_iff_segments.1 above
  exact segments_injective (front'.eq_of_length_le front.length_le)

/-- A list of roots makes the paths hosted that have the segments of a root in front. -/
theorem isExternal_ofRoots_iff (roots : List Text) (path : Text) :
    (Classifier.ofRoots roots).isExternal path = true ↔
      (∃ root ∈ roots, root ≠ [] ∧ segments root <+: segments path) ∨ isDotted path = true := by
  simp only [Classifier.ofRoots, Bool.or_eq_true, List.any_eq_true, isUnder_iff_segments]

/-- Paths are ordered as their lists of segments are by prefixes: lying below a path that is not
empty is having its segments in front, every path but the empty one lies below itself, what lies
below a path lies below all that this one lies below, and no two paths lie below each other. A list
of roots makes everything hosted that has one of them above it, and nothing else but what looks
hosted anyway. -/
theorem isUnder_orders_paths :
    (∀ path root : Text, root ≠ [] → (isUnder path root = true ↔ segments root <+: segments path)) ∧
    (∀ path : Text, isUnder path [] = false) ∧
    (∀ path : Text, path ≠ [] → isUnder path path = true) ∧
    (∀ path middle root : Text,
      isUnder path middle = true → isUnder middle root = true → isUnder path root = true) ∧
    (∀ path root : Text, isUnder path root = true → isUnder root path = true → path = root) ∧
    ∀ (roots : List Text) (path : Text), (Classifier.ofRoots roots).isExternal path = true ↔
      (∃ root ∈ roots, root ≠ [] ∧ segments root <+: segments path) ∨ isDotted path = true := by
  refine ⟨fun path root some => ?_, fun path => rfl, fun path => isUnder_self,
    fun path middle root => isUnder_trans, fun path root => isUnder_antisymm,
    isExternal_ofRoots_iff⟩
  rw [isUnder_iff_segments, and_iff_right some]

/-- Slashes that double or stand at an end make segments of their own. -/
theorem isUnder_orders_slashes :
    isUnder "corp//log/".toList "corp//log".toList = true ∧
    isUnder "/".toList "/".toList = true ∧
    isUnder "corp//log/".toList "corp".toList = true ∧
    (∀ path, isUnder path "corp/".toList = true → isUnder "corp/".toList path = true →
      path = "corp/".toList) ∧
    (Classifier.ofRoots ["corp/".toList]).isExternal "corp/log".toList = false := by
  obtain ⟨ordered, -, itself, trans, antisymm, hosted⟩ := isUnder_orders_paths
  have below : isUnder "corp//log/".toList "corp//log".toList = true :=
    (ordered _ _ (by decide)).2 (by decide)
  refine ⟨below, itself _ (by decide), trans _ _ _ below ((ordered _ _ (by decide)).2 (by decide)),
    fun path => antisymm path _, Bool.eq_false_iff.2 fun external => ?_⟩
  exact absurd ((hosted _ _).1 external) (by decide)

end ImportPath

end GoSplit
