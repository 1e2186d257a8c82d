import GoSplit.ImportPath
import GoSplit.Proofs.Text.Lines
import Mathlib.Data.List.DropRight

/-!
Paths below a namespace. Joining keeps one slash between a namespace and a path however many
either of them brings, while a path is compared with the namespace as that was given; so a
joined path lies below its namespace only where the namespace brings no slash to lose.
-/

namespace GoSplit

namespace ImportPath

variable {space root path : Text}

theorem isUnder_iff :
    isUnder path root = true ↔ root ≠ [] ∧ (path = root ∨ ∃ more, path = root ++ '/' :: more) := by
  rw [isUnder, Bool.and_eq_true, Bool.not_eq_true', List.isEmpty_eq_false_iff]
  refine and_congr_right fun _ => ?_
  split
  · next whole =>
    have same := List.isPrefixOf?_eq_some_iff_append_eq.1 whole
    simpa using Or.inl same.symm
  · next c rest found =>
    obtain rfl := List.isPrefixOf?_eq_some_iff_append_eq.1 found
    simp
  · next none =>
    have other : ∀ more, path ≠ root ++ more := fun more eq =>
      nomatch none.symm.trans (List.isPrefixOf?_eq_some_iff_append_eq.2 eq.symm)
    have apart : path ≠ root := fun eq => other [] (by rw [eq, List.append_nil])
    simpa [apart] using fun more => other ('/' :: more)

theorem eq_or_eq_append_of_isUnder (below : isUnder path root = true) :
    path = root ∨ ∃ more, path = root ++ '/' :: more := (isUnder_iff.1 below).2

/-- What lies strictly below a path has more segments, empty ones counted. -/
theorem length_segments_lt (below : isUnder path root = true) (other : root ≠ path) :
    (segments root).length < (segments path).length := by
  rcases eq_or_eq_append_of_isUnder below with rfl | ⟨more, rfl⟩
  · exact absurd rfl other
  · have some_left := List.length_pos_of_ne_nil (Text.pieces_ne_nil '/' more)
    rw [segments, segments, Text.pieces_append, List.length_append]
    omega

/-! ### The slash of a join -/

/-- The slashes a namespace ends in make no difference to what is joined to it. -/
theorem join_append_slash (space path : Text) : join (space ++ ['/']) path = join space path := by
  have dropped : Text.dropEndWhile (· == '/') (space ++ ['/']) =
      Text.dropEndWhile (· == '/') space :=
    List.rdropWhile_concat_pos _ _ _ rfl
  rw [join, join, dropped]

theorem join_eq (ends : space.getLast? ≠ some '/') (path : Text) :
    join space path = space ++ '/' :: path.dropWhile (· == '/') := by
  have kept : Text.dropEndWhile (· == '/') space = space := by
    refine List.rdropWhile_eq_self_iff.2 fun some last => ends ?_
    rw [List.getLast?_eq_some_getLast some, beq_iff_eq.1 last]
  rw [join, kept]

theorem isUnder_join (some : space ≠ []) (ends : space.getLast? ≠ .some '/') (path : Text) :
    isUnder (join space path) space = true :=
  isUnder_iff.2 ⟨some, .inr ⟨path.dropWhile (· == '/'), join_eq ends path⟩⟩

theorem dropWhile_slash_ne_cons (path more : Text) : path.dropWhile (· == '/') ≠ '/' :: more := by
  intro eq
  have first := List.head?_dropWhile_not (· == '/') path
  rw [eq] at first
  exact absurd first (by simp)

/-- All slashes at the end of a namespace are lost but one, and the path brings none. -/
theorem join_ne_append (root path more : Text) :
    join root path ≠ root ++ '/' :: '/' :: more := by
  intro joined
  have parts : root = Text.dropEndWhile (· == '/') root ++ root.rtakeWhile (· == '/') :=
    List.rdropWhile_append_rtakeWhile.symm
  have behind : '/' :: path.dropWhile (· == '/') =
      root.rtakeWhile (· == '/') ++ '/' :: '/' :: more := by
    rw [join] at joined
    nth_rewrite 2 [parts] at joined
    simpa only [List.append_assoc, List.append_cancel_left_eq] using joined
  match eq : root.rtakeWhile (· == '/') with
  | [] =>
    rw [eq] at behind
    exact dropWhile_slash_ne_cons path more (List.cons.inj behind).2
  | [c] =>
    rw [eq] at behind
    exact dropWhile_slash_ne_cons path ('/' :: more) (List.cons.inj behind).2
  | c :: d :: rest =>
    obtain rfl : d = '/' := by
      have mem : d ∈ root.rtakeWhile (· == '/') := by simp [eq]
      simpa using List.mem_rtakeWhile_imp mem
    rw [eq] at behind
    exact dropWhile_slash_ne_cons path (rest ++ '/' :: '/' :: more) (List.cons.inj behind).2

/-- Below a namespace that brings a slash lies only what adds nothing to it. -/
theorem isUnder_join_slash_iff (root path : Text) :
    isUnder (join (root ++ ['/']) path) (root ++ ['/']) = true ↔
      root.getLast? ≠ some '/' ∧ ∀ c ∈ path, c = '/' := by
  rw [isUnder_iff, join_append_slash]
  by_cases ends : root.getLast? = some '/'
  · obtain ⟨head, rfl⟩ := List.getLast?_eq_some_iff.1 ends
    have apart : ∀ more, join (head ++ ['/']) path ≠ head ++ '/' :: '/' :: more := fun more => by
      rw [join_append_slash]
      exact join_ne_append head path more
    simp [apart]
  · have all : path.dropWhile (· == '/') = [] ↔ ∀ c ∈ path, c = '/' := by
      simp [List.dropWhile_eq_nil_iff]
    rw [join_eq ends, ← all]
    simp [dropWhile_slash_ne_cons, ends]

/-- Where a joined path lies below its namespace: the namespace is not empty and brings no slash
at its end, or it brings one and the path is made of slashes. -/
theorem isUnder_join_iff (space path : Text) :
    isUnder (join space path) space = true ↔
      (space ≠ [] ∧ space.getLast? ≠ some '/') ∨
      ∃ root, root.getLast? ≠ some '/' ∧ space = root ++ ['/'] ∧ ∀ c ∈ path, c = '/' := by
  rcases List.eq_nil_or_concat' space with rfl | ⟨root, last, rfl⟩
  · simp [isUnder]
  by_cases slash : last = '/'
  · subst slash
    rw [isUnder_join_slash_iff]
    simp
  · have ends : (root ++ [last]).getLast? ≠ some '/' := by simpa using slash
    exact iff_of_true (isUnder_join (by simp) ends path) (.inl ⟨by simp, ends⟩)

/-! ### The class of a joined path -/

/-- Only the first element counts. -/
theorem isDotted_append_slash (path more : Text) :
    isDotted (path ++ '/' :: more) = isDotted path := by
  rw [isDotted, isDotted, segments, segments, Text.pieces_append]
  cases eq : Text.pieces '/' path with
  | nil => exact absurd eq (Text.pieces_ne_nil '/' path)
  | cons first rest => rfl

/-- A joined path looks hosted exactly where its namespace does. -/
theorem isDotted_join (space path : Text) : isDotted (join space path) = isDotted space := by
  have parts : space = Text.dropEndWhile (· == '/') space ++ space.rtakeWhile (· == '/') :=
    List.rdropWhile_append_rtakeWhile.symm
  rw [join, isDotted_append_slash]
  cases eq : space.rtakeWhile (· == '/') with
  | nil => rw [eq, List.append_nil] at parts; rw [← parts]
  | cons c rest =>
    obtain rfl : c = '/' := by
      have mem : c ∈ space.rtakeWhile (· == '/') := by simp [eq]
      simpa using List.mem_rtakeWhile_imp mem
    conv_rhs => rw [parts, eq, isDotted_append_slash]

/-- A path made of slashes has no first element. -/
theorem isDotted_of_slashes {path : Text} (slashes : ∀ c ∈ path, c = '/') :
    isDotted path = false := by
  cases path with
  | nil => rfl
  | cons c rest =>
    obtain rfl := slashes c List.mem_cons_self
    exact isDotted_append_slash [] rest

end ImportPath

namespace Classifier

open ImportPath

variable {classifier : Classifier} {space path : Text}

theorem classify_ne_externalCanonical_iff :
    classifier.classify path space ≠ .externalCanonical ↔
      isUnder path space = true ∨ classifier.isExternal path = false := by
  rw [classify]
  split
  · next under => simp [under]
  · next apart => split <;> simp_all

/-- When a shaded path is not shaded again. Any predicate leaves it alone below a namespace that
is not empty and brings no slash at its end; below another one only if the predicate does not
take the joined path for a hosted one, or the namespace brings a single slash and the path
nothing but slashes. The usual predicate takes the joined path for a hosted one wherever the
namespace looks like one. -/
theorem classify_join (external : classifier.classify path space = .externalCanonical) :
    (classifier.classify (join space path) space ≠ .externalCanonical ↔
      (space ≠ [] ∧ space.getLast? ≠ some '/') ∨
      (∃ root, root.getLast? ≠ some '/' ∧ space = root ++ ['/'] ∧ ∀ c ∈ path, c = '/') ∨
      classifier.isExternal (join space path) = false) ∧
    (classifier = dotted →
      (classifier.classify (join space path) space ≠ .externalCanonical ↔
        space.getLast? ≠ some '/' ∨ isDotted space = false)) := by
  have settled : classifier.classify (join space path) space ≠ .externalCanonical ↔
      isUnder (join space path) space = true ∨ classifier.isExternal (join space path) = false :=
    classify_ne_externalCanonical_iff
  rw [isUnder_join_iff, or_assoc] at settled
  refine ⟨settled, ?_⟩
  rintro rfl
  have hosted : isDotted path = true := by
    by_contra plain
    rw [Bool.not_eq_true] at plain
    exact classify_ne_externalCanonical_iff.2 (.inr plain) external
  have again : dotted.isExternal (join space path) = isDotted space := isDotted_join space path
  rw [settled, again]
  constructor
  · rintro (⟨-, ends⟩ | ⟨root, -, -, slashes⟩ | plain)
    · exact .inl ends
    · exact absurd hosted (by simp [isDotted_of_slashes slashes])
    · exact .inr plain
  · rintro (ends | plain)
    · by_cases some : space = []
      · exact .inr (.inr (some ▸ rfl))
      · exact .inl ⟨some, ends⟩
    · exact .inr (.inr plain)

/-- A slash at the end of a namespace that looks hosted makes paths pile up below it. -/
theorem classify_join_slash :
    dotted.classify "a.b/c".toList "x.y/".toList = .externalCanonical ∧
    dotted.classify (join "x.y/".toList "a.b/c".toList) "x.y/".toList = .externalCanonical := by
  have external : dotted.classify "a.b/c".toList "x.y/".toList = .externalCanonical := by decide
  refine ⟨external, not_not.1 fun settled => ?_⟩
  rcases ((classify_join external).2 rfl).1 settled with ends | plain
  · exact ends (by decide)
  · exact absurd plain (by decide)

end Classifier

end GoSplit
