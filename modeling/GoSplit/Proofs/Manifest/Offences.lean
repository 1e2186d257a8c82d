import GoSplit.Proofs.Manifest.Reading

/-!
What the reader of a manifest rejects. Annotations and packages belong to a module, so they
offend in front of the first header; a line that starts with a number sign and is neither an
annotation nor a header offends everywhere. The reader fails exactly if some line offends, and
names the first one.
-/

namespace GoSplit

namespace Manifest

open Text (Spread)

variable {modules modules' : List Module} {raw line text : Text} {before raws : List Text}
  {number : Nat} {headed : Prop} {defect : Defect} {e : Error}

/-! ### The kinds of lines -/

def IsNote (line : Text) : Prop := "## ".toList <+: line

def IsHeader (line : Text) : Prop :=
  ∃ path version replacement, Fields path version replacement ∧
    line = header path version replacement

/-- What is wrong with a line, given whether a header stands in front of it. -/
inductive Offence (headed : Prop) (line : Text) : Defect → Prop
  | note (early : ¬ headed) (isNote : IsNote line) : Offence headed line .earlyNote
  | header (marked : line.head? = some '#') (notNote : ¬ IsNote line)
      (notHeader : ¬ IsHeader line) :
      Offence headed line (.malformedHeader line)
  | package (early : ¬ headed) (isPackage : ∃ c ∈ line.head?, c ≠ '#') :
      Offence headed line (.earlyPackage line)

/-- Some line is a header. -/
def Headed (before : List Text) : Prop := ∃ raw ∈ before, IsHeader (Text.trimEnd raw)

/-- The line offends behind these. -/
def Offends (before : List Text) (raw : Text) (defect : Defect) : Prop :=
  Offence (Headed before) (Text.trimEnd raw) defect

/-- None of the lines offends that follow those before. -/
def Clean (before raws : List Text) : Prop :=
  ∀ earlier raw later, raws = earlier ++ raw :: later →
  ∀ defect, ¬ Offends (before ++ earlier) raw defect

theorem isHeader_iff : IsHeader line ↔ ∃ m, readHeader line = some m := by
  constructor
  · rintro ⟨path, version, replacement, fields, eq⟩
    exact ⟨_, readHeader_eq_some_iff.2 ⟨path, version, replacement, fields, eq, rfl⟩⟩
  · rintro ⟨m, read⟩
    obtain ⟨path, version, replacement, fields, eq, -⟩ := readHeader_eq_some_iff.1 read
    exact ⟨path, version, replacement, fields, eq⟩

theorem isNote_cons (annotations : Text) : IsNote ('#' :: '#' :: ' ' :: annotations) :=
  ⟨annotations, rfl⟩

theorem marked_of_isHeader (isHeader : IsHeader line) : line.head? = some '#' := by
  obtain ⟨path, version, replacement, -, rfl⟩ := isHeader
  rfl

theorem marked_of_isNote (isNote : IsNote line) : line.head? = some '#' := by
  obtain ⟨annotations, rfl⟩ := isNote
  rfl

/-- The kinds a line can be of. -/
theorem kind_of_line (line : Text) :
    line = [] ∨ IsNote line ∨ (line.head? = some '#' ∧ ¬ IsNote line) ∨
    ∃ c ∈ line.head?, c ≠ '#' := by
  cases line with
  | nil => exact .inl rfl
  | cons c cs =>
    by_cases marked : c = '#'
    · subst marked
      by_cases isNote : IsNote ('#' :: cs)
      · exact .inr (.inl isNote)
      · exact .inr (.inr (.inl ⟨rfl, isNote⟩))
    · exact .inr (.inr (.inr ⟨c, rfl, marked⟩))

theorem not_offence_nil : ¬ Offence headed [] defect := by
  intro offence
  cases offence with
  | note _ isNote => exact absurd (marked_of_isNote isNote) (by simp)
  | header marked => cases marked
  | package _ isPackage => simp at isPackage

theorem offence_note_iff (isNote : IsNote line) :
    Offence headed line defect ↔ ¬ headed ∧ defect = .earlyNote := by
  constructor
  · intro offence
    cases offence with
    | note early => exact ⟨early, rfl⟩
    | header _ notNote => exact absurd isNote notNote
    | package _ isPackage => simp [marked_of_isNote isNote] at isPackage
  · rintro ⟨early, rfl⟩
    exact .note early isNote

theorem offence_marked_iff (marked : line.head? = some '#') (notNote : ¬ IsNote line) :
    Offence headed line defect ↔ ¬ IsHeader line ∧ defect = .malformedHeader line := by
  constructor
  · intro offence
    cases offence with
    | note _ isNote => exact absurd isNote notNote
    | header _ _ notHeader => exact ⟨notHeader, rfl⟩
    | package _ isPackage => simp [marked] at isPackage
  · rintro ⟨notHeader, rfl⟩
    exact .header marked notNote notHeader

theorem offence_package_iff (isPackage : ∃ c ∈ line.head?, c ≠ '#') :
    Offence headed line defect ↔ ¬ headed ∧ defect = .earlyPackage line := by
  have plain : line.head? ≠ some '#' := by
    obtain ⟨c, first, plain⟩ := isPackage
    rw [Option.mem_def.1 first]
    simpa using plain
  constructor
  · intro offence
    cases offence with
    | note _ isNote => exact absurd (marked_of_isNote isNote) plain
    | header marked => exact absurd marked plain
    | package early => exact ⟨early, rfl⟩
  · rintro ⟨early, rfl⟩
    exact .package early isPackage

/-! ### One line -/

theorem readLine_of_isNote (modules : List Module) (number : Nat)
    (isNote : IsNote (Text.trimEnd raw)) :
    (modules = [] ∧ readLine modules number raw = .error ⟨number, .earlyNote⟩) ∨
      ∃ m m' earlier, modules = m :: earlier ∧ readLine modules number raw =
        .ok (m' :: earlier) := by
  obtain ⟨annotations, eq⟩ := isNote
  cases modules with
  | nil =>
    refine .inl ⟨rfl, ?_⟩
    unfold readLine
    rw [← eq]
    rfl
  | cons m earlier => exact .inr ⟨m, _, earlier, rfl, readLine_note eq.symm⟩

theorem readLine_of_marked (marked : (Text.trimEnd raw).head? = some '#')
    (notNote : ¬ IsNote (Text.trimEnd raw)) :
    readLine modules number raw =
      match readHeader (Text.trimEnd raw) with
      | some m => .ok (m :: modules)
      | none => .error ⟨number, .malformedHeader (Text.trimEnd raw)⟩ := by
  obtain ⟨rest, eq⟩ := List.head?_eq_some_iff.1 marked
  unfold readLine
  simp only [eq] at notNote ⊢
  split
  · next found => cases found
  · next annotations found => exact absurd (found ▸ isNote_cons annotations) notNote
  · rfl
  · next _ _ other => exact absurd rfl (other rest)

theorem readLine_of_package (modules : List Module) (number : Nat)
    (isPackage : ∃ c ∈ (Text.trimEnd raw).head?, c ≠ '#') :
    (modules = [] ∧ readLine modules number raw =
      .error ⟨number, .earlyPackage (Text.trimEnd raw)⟩) ∨
      ∃ m m' earlier, modules = m :: earlier ∧ readLine modules number raw =
        .ok (m' :: earlier) := by
  obtain ⟨c, first, plain⟩ := isPackage
  obtain ⟨rest, eq⟩ := List.head?_eq_some_iff.1 first
  cases modules with
  | nil =>
    refine .inl ⟨rfl, ?_⟩
    unfold readLine
    simp [eq, plain]
  | cons m earlier =>
    refine .inr ⟨m, { m with packages := m.packages ++ [Text.trim (Text.trimEnd raw)] },
      earlier, rfl, ?_⟩
    unfold readLine
    simp [eq, plain]

/-- A line is rejected exactly for its offence. -/
theorem readLine_eq_error_iff :
    readLine modules number raw = .error e ↔
      e.line = number ∧ Offence (modules ≠ []) (Text.trimEnd raw) e.defect := by
  obtain ⟨at_, defect⟩ := e
  rcases kind_of_line (Text.trimEnd raw) with blank | isNote | ⟨marked, notNote⟩ | isPackage
  · simp [readLine_blank blank, blank, not_offence_nil]
  · rw [offence_note_iff isNote]
    rcases readLine_of_isNote modules number isNote with
      ⟨rfl, read⟩ | ⟨m, m', earlier, rfl, read⟩ <;> rw [read] <;> simp [eq_comm]
  · rw [offence_marked_iff marked notNote, isHeader_iff, readLine_of_marked marked notNote]
    cases readHeader (Text.trimEnd raw) with
    | none => simp [eq_comm]
    | some m => simp
  · rw [offence_package_iff isPackage]
    rcases readLine_of_package modules number isPackage with
      ⟨rfl, read⟩ | ⟨m, m', earlier, rfl, read⟩ <;> rw [read] <;> simp [eq_comm]

/-- A line that is taken opens a module exactly if it is a header. -/
theorem readLine_opens (read : readLine modules number raw = .ok modules') :
    modules' ≠ [] ↔ modules ≠ [] ∨ IsHeader (Text.trimEnd raw) := by
  rcases kind_of_line (Text.trimEnd raw) with blank | isNote | ⟨marked, notNote⟩ | isPackage
  · have plain : ¬ IsHeader (Text.trimEnd raw) := fun isHeader => by
      simpa [blank] using marked_of_isHeader isHeader
    rw [readLine_blank blank] at read
    cases read
    simp [plain]
  · rcases readLine_of_isNote modules number isNote with
      ⟨rfl, other⟩ | ⟨m, m', earlier, rfl, other⟩ <;> rw [other] at read <;> cases read
    simp
  · rw [readLine_of_marked marked notNote] at read
    split at read
    · next m found =>
      cases read
      simp [isHeader_iff, found]
    · cases read
  · rcases readLine_of_package modules number isPackage with
      ⟨rfl, other⟩ | ⟨m, m', earlier, rfl, other⟩ <;> rw [other] at read <;> cases read
    simp

/-! ### All lines -/

theorem headed_concat : Headed (before ++ [raw]) ↔ Headed before ∨ IsHeader (Text.trimEnd raw) := by
  simp [Headed, or_and_right, exists_or]

theorem clean_nil : Clean before [] := by
  intro earlier raw later cut
  simp at cut

theorem clean_cons : Clean before (raw :: raws) ↔
    (∀ defect, ¬ Offends before raw defect) ∧ Clean (before ++ [raw]) raws := by
  constructor
  · intro clean
    refine ⟨fun defect => by simpa using clean [] raw raws rfl defect, ?_⟩
    intro earlier other later cut defect
    simpa using clean (raw :: earlier) other later (by rw [cut, List.cons_append]) defect
  · rintro ⟨first, rest⟩ earlier other later cut defect
    cases earlier with
    | nil =>
      cases cut
      simpa using first defect
    | cons head earlier =>
      obtain ⟨rfl, behind⟩ := List.cons.inj cut
      simpa using rest earlier other later behind defect

/-- The line behind those before offends exactly if the reader stops at it. The modules read so
far tell whether a header stands in front. -/
theorem offends_iff (headed : modules ≠ [] ↔ Headed before) :
    readLine modules number raw = .error e ↔ e.line = number ∧ Offends before raw e.defect := by
  rw [readLine_eq_error_iff, Offends, headed]

theorem clean_of_readLine {between : List Module} (headed : modules ≠ [] ↔ Headed before)
    (read : readLine modules number raw = .ok between) : ∀ defect, ¬ Offends before raw defect := by
  intro defect offends
  have rejected := (offends_iff (e := ⟨number, defect⟩) headed).2 ⟨rfl, offends⟩
  rw [read] at rejected
  cases rejected

theorem headed_of_readLine {between : List Module} (headed : modules ≠ [] ↔ Headed before)
    (read : readLine modules number raw = .ok between) :
    between ≠ [] ↔ Headed (before ++ [raw]) := by
  rw [headed_concat, ← headed, readLine_opens read]

/-- The reader comes to the end exactly if no line offends. -/
theorem readLines_isOk_iff (headed : modules ≠ [] ↔ Headed before) :
    (∃ modules', readLines modules number raws = .ok modules') ↔ Clean before raws := by
  induction raws generalizing modules before number with
  | nil => simp [readLines, clean_nil]
  | cons raw raws ih =>
    rw [clean_cons, readLines]
    cases read : readLine modules number raw with
    | error e =>
      have offends := ((offends_iff headed).1 read).2
      simp only [reduceCtorEq, exists_false, false_iff, not_and]
      exact fun clean => absurd offends (clean e.defect)
    | ok between =>
      rw [ih (headed_of_readLine headed read)]
      exact (and_iff_right (clean_of_readLine headed read)).symm

/-- The reader stops at the first line that offends. -/
theorem readLines_eq_error_iff (headed : modules ≠ [] ↔ Headed before) :
    readLines modules number raws = .error e ↔
      ∃ earlier raw later, raws = earlier ++ raw :: later ∧ e.line = number + earlier.length ∧
        Offends (before ++ earlier) raw e.defect ∧ Clean before earlier := by
  induction raws generalizing modules before number with
  | nil => simp [readLines]
  | cons raw raws ih =>
    rw [readLines]
    cases read : readLine modules number raw with
    | error found =>
      have offends := ((offends_iff headed).1 read).2
      constructor
      · rintro ⟨⟩
        exact ⟨[], raw, raws, rfl, ((offends_iff headed).1 read).1,
          by simpa using offends, clean_nil⟩
      · rintro ⟨earlier, other, later, cut, line, offence, clean⟩
        cases earlier with
        | nil =>
          cases cut
          have rejected := (offends_iff headed).2 ⟨line, by simpa using offence⟩
          exact read.symm.trans rejected
        | cons head earlier =>
          obtain ⟨rfl, -⟩ := List.cons.inj cut
          exact absurd offends ((clean_cons.1 clean).1 found.defect)
    | ok between =>
      have first := clean_of_readLine headed read
      simp only []
      rw [ih (headed_of_readLine headed read)]
      constructor
      · rintro ⟨earlier, other, later, rfl, line, offence, clean⟩
        exact ⟨raw :: earlier, other, later, rfl, by rw [line, List.length_cons]; omega,
          by simpa using offence, clean_cons.2 ⟨first, clean⟩⟩
      · rintro ⟨earlier, other, later, cut, line, offence, clean⟩
        cases earlier with
        | nil =>
          cases cut
          exact absurd (by simpa using offence) (first e.defect)
        | cons head earlier =>
          obtain ⟨rfl, rfl⟩ := List.cons.inj cut
          exact ⟨earlier, other, later, rfl, by rw [line, List.length_cons]; omega,
            by simpa using offence, (clean_cons.1 clean).2⟩

theorem not_headed_nil : ([] : List Module) ≠ [] ↔ Headed [] := by simp [Headed]

theorem parse_isOk_iff : (∃ manifest, parse text = .ok manifest) ↔ Clean [] (Text.lines text) := by
  have found : (∃ modules, readLines [] 1 (Text.lines text) = .ok modules) ↔
      Clean [] (Text.lines text) :=
    readLines_isOk_iff not_headed_nil
  rw [← found, parse]
  cases readLines [] 1 (Text.lines text) with
  | error e => simp [Except.map]
  | ok modules => simp [Except.map]

theorem parse_eq_error_iff :
    parse text = .error e ↔
      ∃ before raw after, Text.lines text = before ++ raw :: after ∧ e.line = before.length + 1 ∧
        Offends before raw e.defect ∧ Clean [] before := by
  have found : readLines [] 1 (Text.lines text) = .error e ↔ _ :=
    readLines_eq_error_iff not_headed_nil
  simp only [List.nil_append, Nat.add_comm 1] at found
  rw [← found, parse]
  cases readLines [] 1 (Text.lines text) with
  | error e => simp [Except.map]
  | ok modules => simp [Except.map]

/-- The reader takes what is written, and says what it cannot take. Modules written line by line
are read back, whatever white space stands at the ends of the lines and however many blank
lines there are; a text is rejected exactly if one of its lines is an annotation or a package
in front of the first header, or starts with a number sign and is neither an annotation nor a
header; and the error names the first such line and what is wrong with it. -/
theorem parse_written (proper : ∀ m ∈ modules, m.Proper)
    (spread : Spread (modules.flatMap Module.lines) text) :
    parse text = .ok ⟨modules⟩ ∧
    ∀ other : Text,
      ((∃ e, parse other = .error e) ↔
        ∃ before raw after, Text.lines other = before ++ raw :: after ∧
          ∃ defect, Offends before raw defect) ∧
      ∀ e, parse other = .error e ↔
        ∃ before raw after, Text.lines other = before ++ raw :: after ∧
          e.line = before.length + 1 ∧ Offends before raw e.defect ∧
          ∀ earlier raw' later, before = earlier ++ raw' :: later →
            ∀ defect, ¬ Offends earlier raw' defect := by
  refine ⟨parse_spread proper spread, fun other => ⟨?_, fun e => parse_eq_error_iff⟩⟩
  have failed : (∃ e, parse other = .error e) ↔ ¬ ∃ manifest, parse other = .ok manifest := by
    cases parse other <;> simp
  rw [failed, parse_isOk_iff, Clean]
  simp only [not_forall, not_not, List.nil_append, exists_prop]

/-- Two modules, one of them replaced. -/
def sampleModules : List Module :=
  [⟨"a.b/c".toList, some "v1".toList, none, true, none, ["a.b/c".toList]⟩,
    ⟨"x.y/t".toList, none, some ⟨"../t".toList, none⟩, true, some "1.18".toList, []⟩]

/-- Their lines with a carriage return, white space and a blank line added, and no end of the
last one. -/
def sampleText : Text :=
  "# a.b/c v1\r\n\n## explicit  \na.b/c\n# x.y/t => ../t\n## explicit; go 1.18".toList

theorem parse_written_sample :
    (∀ m ∈ sampleModules, m.Proper) ∧ Spread (sampleModules.flatMap Module.lines) sampleText ∧
      parse sampleText = .ok ⟨sampleModules⟩ := by
  have proper : ∀ m ∈ sampleModules, m.Proper := by decide
  have bare : Text.IsMargin [] := by decide
  have spread : Spread (sampleModules.flatMap Module.lines) sampleText := by
    refine .line (show Text.IsMargin ['\r'] by decide) (.blank bare ?_)
    refine .line (show Text.IsMargin [' ', ' '] by decide) (.line bare (.line bare ?_))
    exact .last bare
  exact ⟨proper, spread, (parse_written proper spread).1⟩

end Manifest

end GoSplit
