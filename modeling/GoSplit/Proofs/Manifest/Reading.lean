import GoSplit.Proofs.Manifest.Header

/-!
Reading a manifest. A list of modules written line by line is read back, whatever white space
and blank lines the text has besides. Every other line is an offence of its own kind, and the
reader reports the first one.
-/

namespace GoSplit

namespace Text

/-- White space within a line. -/
def IsMargin (gap : Text) : Prop := ∀ c ∈ gap, isBlank c = true ∧ c ≠ '\n'

instance (gap : Text) : Decidable (IsMargin gap) := List.decidableBAll _ gap

/-- A text that has these lines in order: white space may stand at their ends, blank lines
between them, and the end of the last one may be missing. -/
inductive Spread : List Text → Text → Prop
  | done {gap : Text} (margin : IsMargin gap) : Spread [] gap
  | last {line gap : Text} (margin : IsMargin gap) : Spread [line] (line ++ gap)
  | blank {lines : List Text} {gap rest : Text} (margin : IsMargin gap) (more : Spread lines rest) :
      Spread lines (gap ++ '\n' :: rest)
  | line {line : Text} {lines : List Text} {gap rest : Text} (margin : IsMargin gap)
      (more : Spread lines rest) : Spread (line :: lines) (line ++ gap ++ '\n' :: rest)

variable {s : Text}

theorem IsMargin.newline_not_mem {gap : Text} (margin : IsMargin gap) : '\n' ∉ gap :=
  fun mem => (margin _ mem).2 rfl

theorem trimEnd_margin {gap : Text} (line : Text) (margin : IsMargin gap) :
    trimEnd (line ++ gap) = trimEnd line :=
  trimEnd_append_blank fun c mem => (margin c mem).1

theorem trimEnd_dropReturn (line : Text) : trimEnd (dropReturn line) = trimEnd line := by
  unfold dropReturn
  split
  · next last =>
    obtain ⟨before, rfl⟩ := List.getLast?_eq_some_iff.1 last
    rw [List.dropLast_concat, trimEnd_append_blank (List.forall_mem_singleton.2 (by decide))]
  · rfl

theorem closeLines_cons (line : Text) {rest : List Text} (some : rest ≠ []) :
    closeLines (line :: rest) = dropReturn line :: closeLines rest := by
  cases rest with
  | nil => exact absurd rfl some
  | cons next rest => rfl

theorem lines_cons (one : '\n' ∉ s) (t : Text) :
    lines (s ++ '\n' :: t) = dropReturn s :: lines t := by
  rw [lines, pieces_append, pieces_eq_singleton one, List.singleton_append,
    closeLines_cons s (pieces_ne_nil '\n' t), lines]

theorem lines_last (one : '\n' ∉ s) : lines s = if s.isEmpty then [] else [s] := by
  rw [lines, pieces_eq_singleton one, closeLines]

end Text

namespace Manifest

open Text (IsMargin Spread)

variable {modules modules' : List Module} {m : Module} {raw line text : Text} {raws : List Text}
  {number : Nat}

/-! ### The lines of a module -/

/-- The annotation of a module, where there is something to note. -/
def Module.notes (m : Module) : List Text :=
  match m.explicit, m.goVersion with
  | false, none => []
  | true, none => ["## explicit".toList]
  | false, some version => ["## go ".toList ++ version]
  | true, some version => ["## explicit; go ".toList ++ version]

/-- The lines a module is written in: its header, its annotation and its packages. -/
def Module.lines (m : Module) : List Text :=
  header m.path m.version m.replacement :: (m.notes ++ m.packages)

/-- A package path that a line can hold. -/
structure IsPackage (path : Text) : Prop where
  nonempty : path ≠ []
  oneLine : '\n' ∉ path
  first : ∀ c ∈ path.head?, Text.isBlank c = false ∧ c ≠ '#'
  last : ∀ c ∈ path.getLast?, Text.isBlank c = false

/-- A module that can be written. -/
structure Module.Proper (m : Module) : Prop where
  fields : Fields m.path m.version m.replacement
  goVersion : ∀ version ∈ m.goVersion, IsWord version ∧ ';' ∉ version
  packages : ∀ path ∈ m.packages, IsPackage path

instance (path : Text) : Decidable (IsPackage path) :=
  let _ : Decidable (∀ c ∈ path.head?, Text.isBlank c = false ∧ c ≠ '#') :=
    Option.decidableForallMem _
  let _ : Decidable (∀ c ∈ path.getLast?, Text.isBlank c = false) := Option.decidableForallMem _
  decidable_of_iff (path ≠ [] ∧ '\n' ∉ path ∧ (∀ c ∈ path.head?, Text.isBlank c = false ∧ c ≠ '#') ∧
      ∀ c ∈ path.getLast?, Text.isBlank c = false)
    ⟨fun ⟨nonempty, oneLine, first, last⟩ => ⟨nonempty, oneLine, first, last⟩,
      fun isPackage => ⟨isPackage.nonempty, isPackage.oneLine, isPackage.first, isPackage.last⟩⟩

instance (m : Module) : Decidable m.Proper :=
  decidable_of_iff (Fields m.path m.version m.replacement ∧
      (∀ version ∈ m.goVersion, IsWord version ∧ ';' ∉ version) ∧
      ∀ path ∈ m.packages, IsPackage path)
    ⟨fun ⟨fields, goVersion, packages⟩ => ⟨fields, goVersion, packages⟩,
      fun proper => ⟨proper.fields, proper.goVersion, proper.packages⟩⟩

theorem IsWord.newline_not_mem (isWord : IsWord line) : '\n' ∉ line :=
  fun mem => absurd (isWord.solid _ mem) (by decide)

theorem IsWord.trimEnd (isWord : IsWord line) : Text.trimEnd line = line :=
  Text.trimEnd_of_getLast? (List.getLast?_eq_some_getLast isWord.nonempty)
    (isWord.solid _ (List.getLast_mem isWord.nonempty))

theorem IsWord.trimEnd_append (isWord : IsWord line) (before : Text) :
    Text.trimEnd (before ++ line) = before ++ line := by
  rw [Text.trimEnd_append (by rw [isWord.trimEnd]; exact isWord.nonempty), isWord.trimEnd]

theorem IsWord.trim_append (isWord : IsWord line) (before : Text) :
    Text.trim (before ++ line) = Text.trimStart (before ++ line) := by
  rw [Text.trim, isWord.trimEnd_append]

theorem IsPackage.trimEnd (isPackage : IsPackage line) : Text.trimEnd line = line :=
  Text.trimEnd_of_getLast? (List.getLast?_eq_some_getLast isPackage.nonempty)
    (isPackage.last _ (List.getLast?_eq_some_getLast isPackage.nonempty))

theorem IsPackage.trim (isPackage : IsPackage line) : Text.trim line = line := by
  obtain ⟨c, cs, rfl⟩ := List.exists_cons_of_ne_nil isPackage.nonempty
  rw [Text.trim, isPackage.trimEnd, Text.trimStart,
    List.dropWhile_cons_of_neg (by simp [(isPackage.first c rfl).1])]

section header

variable {path : Text} {version : Option Text} {replacement : Option Replacement}

/-- A header ends in a word. -/
theorem exists_header_eq (fields : Fields path version replacement) :
    ∃ before word, IsWord word ∧ header path version replacement = before ++ word := by
  cases replacement with
  | none =>
    cases version with
    | none => exact ⟨"# ".toList, path, fields.path, by simp [header, spaced, arrow]⟩
    | some v =>
      exact ⟨"# ".toList ++ (path ++ [' ']), v, (fields.version v rfl).1, by
        simp [header, spaced, arrow]⟩
  | some r =>
    let before := "# ".toList ++ (path ++ (spaced version ++ " => ".toList))
    obtain ⟨target, targetVersion⟩ := r
    cases targetVersion with
    | none => exact ⟨before, target, fields.target _ rfl, by simp [before, header, spaced, arrow]⟩
    | some v =>
      exact ⟨before ++ (target ++ [' ']), v, fields.targetVersion _ rfl v rfl,
        by simp [before, header, spaced, arrow]⟩

theorem trimEnd_header (fields : Fields path version replacement) :
    Text.trimEnd (header path version replacement) = header path version replacement := by
  obtain ⟨before, word, isWord, eq⟩ := exists_header_eq fields
  rw [eq, isWord.trimEnd_append]

end header

/-! ### One line -/

/-- White space at the end of a line makes no difference. -/
theorem readLine_congr {other : Text} (same : Text.trimEnd raw = Text.trimEnd other) :
    readLine modules number raw = readLine modules number other := by
  unfold readLine
  rw [same]

theorem readLine_blank (blank : Text.trimEnd raw = []) :
    readLine modules number raw = .ok modules := by
  unfold readLine
  rw [blank]

theorem readLine_header (found : readHeader (Text.trimEnd raw) = some m) :
    readLine modules number raw = .ok (m :: modules) := by
  obtain ⟨path, version, replacement, fields, eq, -⟩ := readHeader_eq_some_iff.1 found
  have shape : Text.trimEnd raw = '#' :: ' ' :: (path ++ (spaced version ++ arrow replacement)) :=
    eq
  rw [shape] at found
  unfold readLine
  rw [shape]
  simp only [found]
  rfl

theorem readLine_note {annotations : Text}
    (isNote : Text.trimEnd raw = '#' :: '#' :: ' ' :: annotations) :
    readLine (m :: modules) number raw =
      .ok (((Text.pieces ';' annotations).map Text.trim).foldl annotate m :: modules) := by
  unfold readLine
  rw [isNote]
  rfl

theorem readLine_package (isPackage : IsPackage raw) :
    readLine (m :: modules) number raw =
      .ok ({ m with packages := m.packages ++ [raw] } :: modules) := by
  obtain ⟨c, cs, rfl⟩ := List.exists_cons_of_ne_nil isPackage.nonempty
  have plain := (isPackage.first c rfl).2
  unfold readLine
  simp [isPackage.trimEnd, isPackage.trim, plain]

/-! ### The lines of a list of modules -/

theorem goVersionOf_written (isWord : IsWord line) :
    goVersionOf ("go ".toList ++ line) = some line := by
  have read : word line = some (line, []) := by simpa using word_append isWord EndsWord.nil
  simp [goVersionOf, read]

theorem annotate_goVersion (m : Module) (isWord : IsWord line) :
    annotate m ("go ".toList ++ line) = { m with goVersion := some line } := by
  have other : "go ".toList ++ line ≠ "explicit".toList := by simp
  rw [annotate, if_neg other, goVersionOf_written isWord]

theorem trim_goVersion (isWord : IsWord line) :
    Text.trim (" go ".toList ++ line) = "go ".toList ++ line ∧
    Text.trim ("go ".toList ++ line) = "go ".toList ++ line := by
  rw [isWord.trim_append, isWord.trim_append]
  exact ⟨rfl, rfl⟩

theorem readLines_nil : readLines modules number [] = .ok modules.reverse := rfl

theorem readLines_cons (read : readLine modules number raw = .ok modules') (raws : List Text) :
    readLines modules number (raw :: raws) = readLines modules' (number + 1) raws := by
  rw [readLines, read]

/-- The annotation sets what the header left open. -/
theorem readLines_notes (proper : m.Proper) (modules : List Module) (number : Nat)
    (rest : List Text) :
    readLines (⟨m.path, m.version, m.replacement, false, none, []⟩ :: modules) number
      (m.notes ++ rest) =
      readLines ({ m with packages := [] } :: modules) (number + m.notes.length) rest := by
  obtain ⟨path, version, replacement, explicit, goVersion, packages⟩ := m
  cases goVersion with
  | none =>
    cases explicit with
    | false => rfl
    | true =>
      have noted : readLine (⟨path, version, replacement, false, none, []⟩ :: modules) number
          "## explicit".toList = .ok (⟨path, version, replacement, true, none, []⟩ :: modules) :=
        rfl
      simp only [Module.notes, List.singleton_append, readLines_cons noted, List.length_singleton]
  | some goVersion =>
    obtain ⟨isWord, plain⟩ := proper.goVersion goVersion rfl
    obtain ⟨second, only⟩ := trim_goVersion isWord
    cases explicit with
    | false =>
      have kept : Text.trimEnd ("## go ".toList ++ goVersion) =
          '#' :: '#' :: ' ' :: ("go ".toList ++ goVersion) := isWord.trimEnd_append _
      have one : Text.pieces ';' ("go ".toList ++ goVersion) = ["go ".toList ++ goVersion] :=
        Text.pieces_eq_singleton (by simp [plain])
      have noted : readLine (⟨path, version, replacement, false, none, []⟩ :: modules) number
          ("## go ".toList ++ goVersion) =
          .ok (⟨path, version, replacement, false, some goVersion, []⟩ :: modules) := by
        rw [readLine_note kept, one, List.map_singleton, only, List.foldl_cons, List.foldl_nil,
          annotate_goVersion _ isWord]
      simp only [Module.notes, List.singleton_append, readLines_cons noted, List.length_singleton]
    | true =>
      have kept : Text.trimEnd ("## explicit; go ".toList ++ goVersion) =
          '#' :: '#' :: ' ' :: ("explicit".toList ++ ';' :: (" go ".toList ++ goVersion)) :=
        isWord.trimEnd_append _
      have two : Text.pieces ';' ("explicit".toList ++ ';' :: (" go ".toList ++ goVersion)) =
          ["explicit".toList, " go ".toList ++ goVersion] := by
        rw [Text.pieces_append, Text.pieces_eq_singleton (by decide),
          Text.pieces_eq_singleton (by simp [plain]), List.singleton_append]
      have noted : readLine (⟨path, version, replacement, false, none, []⟩ :: modules) number
          ("## explicit; go ".toList ++ goVersion) =
          .ok (⟨path, version, replacement, true, some goVersion, []⟩ :: modules) := by
        rw [readLine_note kept, two, List.map_cons, List.map_singleton, second, List.foldl_cons,
          List.foldl_cons, List.foldl_nil, annotate_goVersion _ isWord]
        rfl
      simp only [Module.notes, List.singleton_append, readLines_cons noted, List.length_singleton]

theorem readLines_packages {packages : List Text} (proper : ∀ path ∈ packages, IsPackage path)
    (m : Module) (modules : List Module) (number : Nat) (rest : List Text) :
    readLines (m :: modules) number (packages ++ rest) =
      readLines ({ m with packages := m.packages ++ packages } :: modules)
        (number + packages.length) rest := by
  induction packages generalizing m number with
  | nil => simp
  | cons path packages ih =>
    obtain ⟨first, others⟩ := List.forall_mem_cons.1 proper
    rw [List.cons_append, readLines_cons (readLine_package first), ih others]
    simp [Nat.add_assoc, Nat.add_comm 1]

theorem readLines_module (proper : m.Proper) (modules : List Module) (number : Nat)
    (rest : List Text) :
    readLines modules number (m.lines ++ rest) =
      readLines (m :: modules) (number + m.lines.length) rest := by
  have found : readHeader (Text.trimEnd (header m.path m.version m.replacement)) =
      some ⟨m.path, m.version, m.replacement, false, none, []⟩ := by
    rw [trimEnd_header proper.fields]
    exact readHeader_eq_some_iff.2 ⟨_, _, _, proper.fields, rfl, rfl⟩
  rw [Module.lines, List.cons_append, readLines_cons (readLine_header found), List.append_assoc,
    readLines_notes proper, readLines_packages proper.packages]
  congr 1
  simp
  omega

theorem readLines_modules (proper : ∀ m ∈ modules, m.Proper) (before : List Module) (number : Nat) :
    readLines before number (modules.flatMap Module.lines) = .ok (before.reverse ++ modules) := by
  induction modules generalizing before number with
  | nil => simp [readLines_nil]
  | cons m modules ih =>
    obtain ⟨first, others⟩ := List.forall_mem_cons.1 proper
    rw [List.flatMap_cons, readLines_module first, ih others]
    simp

/-! ### Lines spread over a text -/

theorem newline_not_mem_spaced {field : Option Text} (words : ∀ v ∈ field, IsWord v) :
    '\n' ∉ spaced field := by
  cases field with
  | none => simp [spaced]
  | some v => simp [spaced, (words v rfl).newline_not_mem]

theorem newline_not_mem_header {path : Text} {version : Option Text}
    {replacement : Option Replacement} (fields : Fields path version replacement) :
    '\n' ∉ header path version replacement := by
  have between := newline_not_mem_spaced fun v mem => (fields.version v mem).1
  have behind : '\n' ∉ arrow replacement := by
    cases replacement with
    | none => simp [arrow]
    | some r =>
      have last := newline_not_mem_spaced (fields.targetVersion r rfl)
      simp [arrow, last, (fields.target r rfl).newline_not_mem]
  simp [header, between, behind, fields.path.newline_not_mem]

theorem newline_not_mem_notes (proper : m.Proper) : ∀ line ∈ m.notes, '\n' ∉ line := by
  intro line mem
  unfold Module.notes at mem
  split at mem
  · cases mem
  · obtain rfl := List.mem_singleton.1 mem
    decide
  · next version _ eq =>
    obtain rfl := List.mem_singleton.1 mem
    simp [(proper.goVersion version eq).1.newline_not_mem]
  · next version _ eq =>
    obtain rfl := List.mem_singleton.1 mem
    simp [(proper.goVersion version eq).1.newline_not_mem]

theorem newline_not_mem_lines (proper : m.Proper) : ∀ line ∈ m.lines, '\n' ∉ line := by
  intro line mem
  rw [Module.lines, List.mem_cons, List.mem_append] at mem
  obtain rfl | noted | listed := mem
  · exact newline_not_mem_header proper.fields
  · exact newline_not_mem_notes proper line noted
  · exact (proper.packages line listed).oneLine

/-- The number of a line matters for errors only. -/
theorem readLine_renumber (other : Nat) (read : readLine modules number raw = .ok modules') :
    readLine modules other raw = .ok modules' := by
  have same : (readLine modules other raw).toOption = (readLine modules number raw).toOption := by
    unfold readLine
    simp only []
    repeat' split
    all_goals rfl
  rw [read] at same
  cases eq : readLine modules other raw with
  | error e => rw [eq] at same; cases same
  | ok found => rw [eq] at same; cases same; rfl

theorem readLines_cons_eq_ok_iff :
    readLines modules number (raw :: raws) = .ok modules' ↔
      ∃ between, readLine modules number raw = .ok between ∧
        readLines between (number + 1) raws = .ok modules' := by
  rw [readLines]
  cases readLine modules number raw with
  | error e => simp
  | ok between => simp

/-- A last line that is empty is no line. -/
theorem readLines_last (one : '\n' ∉ raw) :
    readLines modules number (Text.lines raw) = readLines modules number [raw] := by
  rw [Text.lines_last one]
  split
  · next empty =>
    rw [List.isEmpty_iff.1 empty, readLines_cons (readLine_blank rfl)]
    rfl
  · rfl

/-- What a text says is what its lines say. -/
theorem readLines_spread {lines : List Text} (spread : Spread lines text)
    (oneLine : ∀ line ∈ lines, '\n' ∉ line) {first : Nat}
    (read : readLines modules first lines = .ok modules') :
    readLines modules number (Text.lines text) = .ok modules' := by
  induction spread generalizing modules first number with
  | @done gap margin =>
    have blank : Text.trimEnd gap = [] := Text.trimEnd_margin [] margin
    rw [readLines_last margin.newline_not_mem, readLines_cons (readLine_blank blank)]
    exact read
  | @last line gap margin =>
    have one : '\n' ∉ line ++ gap := by
      simp [oneLine line List.mem_cons_self, margin.newline_not_mem]
    obtain ⟨between, here, rest⟩ := readLines_cons_eq_ok_iff.1 read
    rw [readLines_last one, readLines_cons_eq_ok_iff]
    exact ⟨between, readLine_congr (Text.trimEnd_margin line margin) ▸
      readLine_renumber number here, rest⟩
  | @blank lines gap rest margin _ ih =>
    have blank : Text.trimEnd (Text.dropReturn gap) = [] := by
      rw [Text.trimEnd_dropReturn]
      exact Text.trimEnd_margin [] margin
    rw [Text.lines_cons margin.newline_not_mem, readLines_cons_eq_ok_iff]
    exact ⟨modules, readLine_blank blank, ih oneLine read⟩
  | @line line lines gap rest margin _ ih =>
    obtain ⟨here, others⟩ := List.forall_mem_cons.1 oneLine
    have one : '\n' ∉ line ++ gap := by simp [here, margin.newline_not_mem]
    have same : Text.trimEnd (Text.dropReturn (line ++ gap)) = Text.trimEnd line := by
      rw [Text.trimEnd_dropReturn, Text.trimEnd_margin line margin]
    obtain ⟨between, now, later⟩ := readLines_cons_eq_ok_iff.1 read
    rw [Text.lines_cons one, readLines_cons_eq_ok_iff]
    exact ⟨between, readLine_congr same ▸ readLine_renumber number now, ih others later⟩

theorem parse_spread (proper : ∀ m ∈ modules, m.Proper)
    (spread : Spread (modules.flatMap Module.lines) text) : parse text = .ok ⟨modules⟩ := by
  have oneLine : ∀ line ∈ modules.flatMap Module.lines, '\n' ∉ line := by
    intro line mem
    obtain ⟨m, isModule, isLine⟩ := List.mem_flatMap.1 mem
    exact newline_not_mem_lines (proper m isModule) line isLine
  rw [parse, readLines_spread spread oneLine (readLines_modules proper [] 1)]
  rfl

end Manifest

end GoSplit
