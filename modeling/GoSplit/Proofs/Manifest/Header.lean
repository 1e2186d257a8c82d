import GoSplit.Manifest
import GoSplit.Proofs.Text.Lines
import Mathlib.Data.List.Basic
import Mathlib.Data.List.TakeWhile

/-!
Header lines. A header is its fields with one blank between them, and the reader takes a line
for a header exactly if it is written so. The optional fields do not get in each other's way,
since no version starts with the equals sign of an arrow.
-/

namespace GoSplit

namespace Manifest

variable {t w v rest : Text}

/-- Something to read, without white space in it. -/
structure IsWord (t : Text) : Prop where
  nonempty : t ≠ []
  solid : ∀ c ∈ t, Text.isBlank c = false

instance (t : Text) : Decidable (IsWord t) :=
  let _ : Decidable (∀ c ∈ t, Text.isBlank c = false) := List.decidableBAll _ t
  decidable_of_iff (t ≠ [] ∧ ∀ c ∈ t, Text.isBlank c = false)
    ⟨fun ⟨nonempty, solid⟩ => ⟨nonempty, solid⟩, fun isWord => ⟨isWord.nonempty, isWord.solid⟩⟩

/-- Where a word is over. -/
def EndsWord (rest : Text) : Prop := ∀ c ∈ rest.head?, Text.isBlank c = true

theorem EndsWord.nil : EndsWord [] := fun _ first => nomatch first

theorem EndsWord.blank (rest : Text) : EndsWord (' ' :: rest) := by
  rintro c ⟨⟩
  rfl

/-! ### The fields -/

theorem word_append (isWord : IsWord w) (ends : EndsWord rest) :
    word (w ++ rest) = some (w, rest) := by
  have solid : ∀ c ∈ w, (!Text.isBlank c) = true := fun c mem => by simp [isWord.solid c mem]
  have stops : rest.takeWhile (fun c => !Text.isBlank c) = [] := by
    cases rest with
    | nil => rfl
    | cons c cs => simp [ends c rfl]
  have left : rest.dropWhile (fun c => !Text.isBlank c) = rest := by
    cases rest with
    | nil => rfl
    | cons c cs => simp [ends c rfl]
  rw [word, List.takeWhile_append_of_pos solid, List.dropWhile_append_of_pos solid, stops, left,
    List.append_nil]
  simp [isWord.nonempty]

theorem word_eq_some_iff : word t = some (w, rest) ↔ IsWord w ∧ EndsWord rest ∧ t = w ++ rest := by
  refine ⟨fun found => ?_, fun ⟨isWord, ends, eq⟩ => eq ▸ word_append isWord ends⟩
  have parts := List.takeWhile_append_dropWhile (p := fun c => !Text.isBlank c) (l := t)
  rw [word] at found
  split at found
  · cases found
  · next some =>
    cases found
    refine ⟨⟨by simpa using some, fun c mem => ?_⟩, fun c first => ?_, parts.symm⟩
    · simpa using List.mem_takeWhile_imp mem
    · have := List.head?_dropWhile_not (fun c => !Text.isBlank c) t
      rw [first] at this
      simpa using this

theorem versionWord_eq_some_iff :
    versionWord t = some (v, rest) ↔
      (IsWord v ∧ v.head? ≠ some '=') ∧ EndsWord rest ∧ t = v ++ rest := by
  unfold versionWord
  split
  · next more =>
    refine ⟨nofun, fun ⟨⟨isWord, first⟩, _, eq⟩ => ?_⟩
    obtain ⟨c, cs, rfl⟩ := List.exists_cons_of_ne_nil isWord.nonempty
    exact absurd (congrArg some (List.cons.inj eq).1.symm) first
  · next other =>
    rw [word_eq_some_iff]
    refine ⟨fun ⟨isWord, ends, eq⟩ => ⟨⟨isWord, fun first => ?_⟩, ends, eq⟩,
      fun ⟨⟨isWord, _⟩, ends, eq⟩ => ⟨isWord, ends, eq⟩⟩
    obtain ⟨cs, rfl⟩ := List.head?_eq_some_iff.1 first
    exact other _ eq

/-! ### The line -/

/-- An optional field behind a blank. -/
def spaced : Option Text → Text
  | none => []
  | some field => ' ' :: field

/-- An optional replacement behind an arrow. -/
def arrow : Option Replacement → Text
  | none => []
  | some r => " => ".toList ++ (r.path ++ spaced r.version)

/-- The header line of a module. -/
def header (path : Text) (version : Option Text) (replacement : Option Replacement) : Text :=
  "# ".toList ++ (path ++ (spaced version ++ arrow replacement))

/-- What can stand in a header: words, and a version that is no arrow. -/
structure Fields (path : Text) (version : Option Text) (replacement : Option Replacement) :
    Prop where
  path : IsWord path
  version : ∀ v ∈ version, IsWord v ∧ v.head? ≠ some '='
  target : ∀ r ∈ replacement, IsWord r.path
  targetVersion : ∀ r ∈ replacement, ∀ v ∈ r.version, IsWord v

variable {path : Text} {version : Option Text} {replacement : Option Replacement}

instance : Decidable (Fields path version replacement) :=
  decidable_of_iff (IsWord path ∧ (∀ v ∈ version, IsWord v ∧ v.head? ≠ some '=') ∧
      (∀ r ∈ replacement, IsWord r.path) ∧ ∀ r ∈ replacement, ∀ v ∈ r.version, IsWord v)
    ⟨fun ⟨path, version, target, targetVersion⟩ => ⟨path, version, target, targetVersion⟩,
      fun fields => ⟨fields.path, fields.version, fields.target, fields.targetVersion⟩⟩

theorem endsWord_spaced (version : Option Text) : EndsWord (spaced version) := by
  cases version with
  | none => exact .nil
  | some v => exact .blank v

theorem endsWord_arrow (replacement : Option Replacement) : EndsWord (arrow replacement) := by
  cases replacement with
  | none => exact .nil
  | some r => exact .blank _

theorem endsWord_spaced_append (version : Option Text) (ends : EndsWord rest) :
    EndsWord (spaced version ++ rest) := by
  cases version with
  | none => exact ends
  | some v => exact .blank _

/-- An arrow is no version: its first word starts with an equals sign. -/
theorem optionalVersion_written (fields : Fields path version replacement) :
    optionalVersion (spaced version ++ arrow replacement) = (version, arrow replacement) := by
  cases version with
  | none =>
    cases replacement with
    | none => rfl
    | some r => rfl
  | some v =>
    have read : versionWord (v ++ arrow replacement) = some (v, arrow replacement) :=
      versionWord_eq_some_iff.2 ⟨fields.version v rfl, endsWord_arrow replacement, rfl⟩
    simp [spaced, optionalVersion, read]

theorem eq_of_optionalVersion (read : optionalVersion t = (version, rest)) :
    t = spaced version ++ rest ∧ ∀ v ∈ version, IsWord v ∧ v.head? ≠ some '=' := by
  rw [optionalVersion.eq_def] at read
  split at read
  · split at read
    · next found =>
      cases read
      obtain ⟨fits, -, rfl⟩ := versionWord_eq_some_iff.1 found
      exact ⟨rfl, fun v mem => by cases mem; exact fits⟩
    · cases read
      exact ⟨rfl, nofun⟩
  · cases read
    exact ⟨rfl, nofun⟩

theorem replacementTail_written (fields : Fields path version replacement) :
    replacementTail (arrow replacement) = some replacement := by
  cases replacement with
  | none => rfl
  | some r =>
    obtain ⟨path, version⟩ := r
    have read : word (path ++ spaced version) = some (path, spaced version) :=
      word_append (fields.target _ rfl) (endsWord_spaced version)
    -- Behind the arrow the reader is at the path.
    have cut : (" => ".toList).isPrefixOf? (arrow (some ⟨path, version⟩)) =
        some (path ++ spaced version) :=
      rfl
    rw [replacementTail.eq_def]
    simp only [cut, read]
    cases version with
    | none => rfl
    | some v =>
      have last : word v = some (v, []) := by
        simpa using word_append (fields.targetVersion _ rfl v rfl) EndsWord.nil
      simp only [spaced, last]
      rfl

theorem eq_of_replacementTail (read : replacementTail t = some replacement) :
    t = arrow replacement ∧ (∀ r ∈ replacement, IsWord r.path) ∧
      ∀ r ∈ replacement, ∀ v ∈ r.version, IsWord v := by
  unfold replacementTail at read
  split at read
  · cases read
    exact ⟨rfl, nofun, nofun⟩
  · split at read
    · cases read
    · next rest cut =>
      obtain rfl := List.isPrefixOf?_eq_some_iff_append_eq.1 cut
      split at read
      · cases read
      · next path found =>
        cases read
        obtain ⟨isWord, -, rfl⟩ := word_eq_some_iff.1 found
        exact ⟨rfl, fun r mem => by cases mem; exact isWord,
          fun r mem v isVersion => by cases mem; cases isVersion⟩
      · next path after found =>
        obtain ⟨isWord, -, rfl⟩ := word_eq_some_iff.1 found
        split at read
        · next version last =>
          cases read
          obtain ⟨isVersion, -, rfl⟩ := word_eq_some_iff.1 last
          refine ⟨by simp [arrow, spaced], fun r mem => ?_, fun r mem v isLast => ?_⟩
          · cases mem
            exact isWord
          · cases mem
            cases isLast
            exact isVersion
        · cases read
      · cases read

/-- The reader takes a line for a header exactly if it is one, and then reads its fields. -/
theorem readHeader_eq_some_iff {line : Text} {m : Module} :
    readHeader line = some m ↔
      ∃ path version replacement, Fields path version replacement ∧
        line = header path version replacement ∧
        m = ⟨path, version, replacement, false, none, []⟩ := by
  constructor
  · intro read
    unfold readHeader at read
    split at read
    · next rest =>
      split at read
      · cases read
      · next path after found =>
        obtain ⟨isWord, -, rfl⟩ := word_eq_some_iff.1 found
        cases cut : optionalVersion after with
        | mk version tail =>
          rw [cut] at read
          obtain ⟨replacement, ends, rfl⟩ := Option.map_eq_some_iff.1 read
          obtain ⟨rfl, isVersion⟩ := eq_of_optionalVersion cut
          obtain ⟨rfl, target, targetVersion⟩ := eq_of_replacementTail ends
          exact ⟨path, version, replacement, ⟨isWord, isVersion, target, targetVersion⟩, rfl, rfl⟩
    · cases read
  · rintro ⟨path, version, replacement, fields, rfl, rfl⟩
    have read : word (path ++ (spaced version ++ arrow replacement)) =
        some (path, spaced version ++ arrow replacement) :=
      word_append fields.path (endsWord_spaced_append version (endsWord_arrow replacement))
    simp [header, readHeader, read, optionalVersion_written fields, replacementTail_written fields]

end Manifest

end GoSplit
