import GoSplit.Proofs.Shading.Workers

/-!
A shaded tree is finished. However a tree was walked, in order or side by side, after a walk
without failures every Go file parses and has no import left to move; another walk then finds
nothing to do.
-/

namespace GoSplit.Shader

/-! ### One source -/

variable {shader : Shader} {root : Path}

/-- A source that parses can be shaded. -/
theorem shadeSource_isOk (proper : shader.Proper) (name : Text) {src : Text} {file : SourceFile}
    (parsed : SourceFile.ofSource src = .ok file) (plain : file.PlainImports) :
    ∃ result, shader.shadeSource name src = .ok result := by
  obtain ⟨text, -, replaces, -, -⟩ := exists_shaded proper parsed plain
  have applied := Edit.applyAll_of_replaces replaces
  rw [shadeSource, SourceFile.parse_eq_ok_iff.2 parsed]
  dsimp only
  generalize (file.importSpecs.filter shader.moves).map shader.edit = edits at applied
  cases edits with
  | nil => exact ⟨none, rfl⟩
  | cons edit edits =>
    dsimp only
    rw [applied]
    exact ⟨_, rfl⟩

/-- A file that parses and can be written can be shaded. -/
theorem isOk_outcome (proper : shader.Proper) {tree : Tree} {path : Path} {loc : Location}
    (takes : tree.Takes path loc) {content : Content}
    (found : tree.find? loc = some (.file content)) {src : Text}
    (decoded : content.text? = some src) {file : SourceFile}
    (parsed : SourceFile.ofSource src = .ok file) (plain : file.PlainImports) :
    (shader.outcome tree path).isOk = true := by
  obtain ⟨result, source⟩ := shadeSource_isOk proper path.text parsed plain
  rw [outcome, verdict, readText_eq_ok_iff.2 ⟨loc, content, takes.located, found, decoded⟩]
  dsimp only
  rw [source]
  cases result with
  | none => rfl
  | some moved =>
    obtain ⟨name, named⟩ := Tree.exists_names_of_file takes.located found
    have wrote : tree.writeText path moved.text = .ok (tree.put loc (.file (.ofText moved.text))) :=
      (Tree.writeBytes_eq_ok_iff named).2 ⟨loc, takes, rfl⟩
    dsimp only
    rw [wrote]
    rfl

theorem Shades.refl {file : SourceFile} (nothing : file.importSpecs.filter shader.moves = []) :
    shader.Shades file file where
  header := rfl
  package := rfl
  decls := List.forall₂_same.2 fun _ _ => rfl
  specs := by
    rw [List.forall₂_same]
    intro spec mem
    rw [if_neg (List.filter_eq_nil_iff.1 nothing spec mem)]
    exact ⟨rfl, rfl, rfl, rfl⟩

/-- A source that can be shaded parses, and what becomes of it parses to the same file with its
external imports moved. -/
theorem shadeSource_eq_ok (proper : shader.Proper) {name src : Text}
    (plain : ∀ file, SourceFile.ofSource src = .ok file → file.PlainImports)
    {result : Option Shaded} (shaded : shader.shadeSource name src = .ok result) :
    ∃ file file', SourceFile.ofSource src = .ok file ∧
      SourceFile.ofSource ((result.map Shaded.text).getD src) = .ok file' ∧
      shader.Shades file file' := by
  unfold shadeSource at shaded
  split at shaded
  · cases shaded
  next file parsed =>
  have ofSource := SourceFile.parse_eq_ok_iff.1 parsed
  split at shaded
  · next nothing =>
    cases shaded
    exact ⟨file, file, ofSource, ofSource, .refl (List.map_eq_nil_iff.1 nothing)⟩
  · obtain ⟨text, file', replaces, parsed', shades⟩ :=
      exists_shaded proper ofSource (plain file ofSource)
    rw [Edit.applyAll_of_replaces replaces] at shaded
    cases shaded
    exact ⟨file, file', ofSource, parsed', shades⟩

/-- The bytes of a Go file that parses and has no import to move. -/
def Settled (shader : Shader) (path : Path) (content : Content) : Prop :=
  ∃ src file, content.text? = some src ∧ SourceFile.parse path.text src = .ok file ∧
    ∀ spec ∈ file.importSpecs,
      shader.classifier.classify spec.path shader.space ≠ .externalCanonical

theorem settled_iff {path : Path} {content : Content} :
    shader.Settled path content ↔
      ∃ src, content.text? = some src ∧ shader.shadeSource path.text src = .ok none := by
  refine exists_congr fun src => ?_
  constructor
  · rintro ⟨file, decoded, parsed, settled⟩
    have nothing : file.importSpecs.filter shader.moves = [] := by
      rw [List.filter_eq_nil_iff]
      intro spec mem moves
      exact settled spec mem (beq_iff_eq.1 moves)
    refine ⟨decoded, ?_⟩
    simp [shadeSource, parsed, nothing]
  · rintro ⟨decoded, shaded⟩
    unfold shadeSource at shaded
    split at shaded
    · cases shaded
    next file parsed =>
    split at shaded
    · next nothing =>
      refine ⟨file, decoded, parsed, fun spec mem canonical => ?_⟩
      exact List.filter_eq_nil_iff.1 (List.map_eq_nil_iff.1 nothing) spec mem
        (beq_iff_eq.2 canonical)
    · split at shaded <;> cases shaded

theorem Settled.shadeContent {path : Path} {content : Content} (h : shader.Settled path content) :
    shader.shadeContent path content = content := by
  obtain ⟨src, decoded, shaded⟩ := settled_iff.1 h
  simp only [Shader.shadeContent, decoded, shaded]

/-- The files to shade have no import path that needs its back quotes. -/
def PlainFiles (tree : Tree) (root : Path) : Prop :=
  ∀ loc rel content src file, tree.locate root = .ok loc → tree.GoFile root loc rel content →
    content.text? = some src → SourceFile.ofSource src = .ok file → file.PlainImports

/-- Whether a node has no import path that needs its back quotes, if it is a file that parses. -/
def isPlainNode : Node → Bool
  | .directory => true
  | .file content =>
    (content.text?.bind fun src => (SourceFile.ofSource src).toOption).all
      fun file => decide file.PlainImports

theorem plainFiles_of_entries {tree : Tree} (sound : tree.Sound)
    (plain : ∀ e ∈ tree.entries, isPlainNode e.2 = true) (root : Path) : PlainFiles tree root := by
  intro loc rel content src file _ goFile decoded parsed
  have below : loc ++ rel ≠ [] := by
    intro top
    have found := goFile.found
    simp [top] at found
  have here := plain _ ((sound.mem_iff below).2 goFile.found)
  simpa [isPlainNode, decoded, parsed, Except.toOption] using here

/-! ### Walks -/

/-- A walk through the files below a root, in order with either policy or side by side. -/
inductive Walks (shader : Shader) (root : Path) (site : Site) :
    Except SplitError ShadeReport → Site → Prop where
  | inOrder (policy : ShadePolicy) :
    Walks shader root site ((shader.shadeTree policy root).on site).1
      ((shader.shadeTree policy root).on site).2
  | together (set : FileSet) (schedule : List Nat) {result : Except SplitError ShadeReport}
      {after : Site} (ran : shader.shadeTogether root set schedule site = some (result, after)) :
    Walks shader root site result after

variable {site after : Site} {paths : List Path} {result : Except SplitError ShadeReport}

theorem Walks.through (walkable : site.tree.Walkable root)
    (collected : site.tree.filesToShade root = .ok paths)
    (walks : shader.Walks root site result after) :
    ∃ policy, result = .ok (shader.tally policy site.tree .empty paths) ∧
      shader.Through site.tree (shader.visited policy site.tree paths) after.tree := by
  cases walks with
  | inOrder policy =>
    obtain ⟨after, ran, through⟩ := on_shadeTree shader policy walkable collected
    rw [ran]
    exact ⟨policy, rfl, through⟩
  | together set schedule ran =>
    obtain ⟨report, through⟩ := through_of_shadeTogether walkable collected ran
    exact ⟨.collect, report, by rwa [visited_collect]⟩

/-- A walk with a report has found the files. -/
theorem Walks.exists_filesToShade {report : ShadeReport}
    (walks : shader.Walks root site (.ok report) after) :
    ∃ paths, site.tree.filesToShade root = .ok paths := by
  generalize isResult : (Except.ok report : Except SplitError ShadeReport) = result at walks
  cases collected : site.tree.filesToShade root with
  | ok paths => exact ⟨paths, rfl⟩
  | error e =>
    cases walks with
    | inOrder policy =>
      rw [on_shadeTree_of_error policy collected] at isResult
      cases isResult
    | together set schedule ran =>
      rw [shadeTogether, collected] at ran
      cases ran
      cases isResult

/-- A walk without failures has shaded every file. -/
theorem Walks.all_through (walkable : site.tree.Walkable root) {report : ShadeReport}
    (walks : shader.Walks root site (.ok report) after) (clean : report.failures = []) :
    ∃ paths, site.tree.filesToShade root = .ok paths ∧
      (∀ path ∈ paths, (shader.outcome site.tree path).isOk = true) ∧
      shader.Through site.tree paths after.tree := by
  obtain ⟨paths, collected⟩ := walks.exists_filesToShade
  obtain ⟨policy, told, through⟩ := walks.through walkable collected
  cases told
  obtain ⟨-, all⟩ := tally_failures_eq_nil_iff.1 clean
  rw [visited_of_isOk policy all] at through
  exact ⟨paths, collected, all, through⟩

/-! ### Nothing left to do -/

variable {start tree : Tree} {loc : Location}

/-- After a walk without failures every Go file is what it was with its external imports
moved. -/
theorem Through.exists_shades (proper : shader.Proper) (h : shader.Through start paths tree)
    (walkable : start.Walkable root) (plain : PlainFiles start root)
    (collected : start.filesToShade root = .ok paths)
    (all : ∀ path ∈ paths, (shader.outcome start path).isOk = true)
    (located : start.locate root = .ok loc) {rel : Location} {content : Content}
    (file : tree.GoFile root loc rel content) :
    tree.locate (Tree.pathIn root rel) = .ok (loc ++ rel) ∧
      ∃ before src src' old new, start.GoFile root loc rel before ∧ before.text? = some src ∧
        content.text? = some src' ∧ SourceFile.ofSource src = .ok old ∧
        SourceFile.ofSource src' = .ok new ∧ shader.Shades old new := by
  -- The file was there before the walk, which has left its shaded bytes.
  obtain ⟨before, file'⟩ : ∃ before, start.GoFile root loc rel before := by
    cases found : start.find? (loc ++ rel) with
    | none =>
      rw [← h.missing, file.found] at found
      cases found
    | some node =>
      cases node with
      | directory =>
        rw [← h.directory, file.found] at found
        cases found
      | file before => exact ⟨before, found, file.isGo⟩
  have shaded := (h.find?_of_all walkable collected all located).1 rel before file'
  rw [file.found] at shaded
  cases shaded
  obtain ⟨loc', node, found, -, mem⟩ := Tree.filesToShade_eq_ok walkable.sound collected
  have same := (Tree.lookup_eq_ok_iff.1 found).1
  rw [located] at same
  cases same
  obtain ⟨src, result, here, decoded, source, -⟩ :=
    exists_shadeSource (all _ ((mem _).2 ⟨rel, before, rfl, file'⟩))
      (fun l => eq_of_locate walkable located file'.found) file'.found
  obtain ⟨old, new, parsed, parsed', shades⟩ :=
    shadeSource_eq_ok proper (plain loc rel before src · located file' decoded) source
  refine ⟨by rw [h.locate, here], before, src, _, old, new, file', decoded, ?_, parsed,
    parsed', shades⟩
  rw [shadeContent, decoded]
  dsimp only
  rw [source]
  cases result with
  | none => exact decoded
  | some moved => exact Content.text?_ofText moved.text

/-- After a walk without failures every Go file is settled. -/
theorem Through.settled (proper : shader.Proper) (h : shader.Through start paths tree)
    (walkable : start.Walkable root) (plain : PlainFiles start root)
    (collected : start.filesToShade root = .ok paths)
    (all : ∀ path ∈ paths, (shader.outcome start path).isOk = true)
    (located : start.locate root = .ok loc) {rel : Location} {content : Content}
    (file : tree.GoFile root loc rel content) :
    tree.locate (Tree.pathIn root rel) = .ok (loc ++ rel) ∧
      shader.Settled (Tree.pathIn root rel) content := by
  obtain ⟨here, -, -, src', old, new, -, -, decoded, -, parsed, shades⟩ :=
    h.exists_shades proper walkable plain collected all located file
  refine ⟨here, src', new, decoded, SourceFile.parse_eq_ok_iff.2 parsed,
    fun spec mem canonical => ?_⟩
  exact List.filter_eq_nil_iff.1 (shades.not_moves proper) spec mem (beq_iff_eq.2 canonical)

theorem Settled.verdict {path : Path} {l : Location} {content : Content}
    (h : shader.Settled path content) (located : tree.locate path = .ok l)
    (file : tree.find? l = some (.file content)) : shader.verdict tree path = .ok none := by
  obtain ⟨src, decoded, source⟩ := settled_iff.1 h
  rw [Shader.verdict, readText_eq_ok_iff.2 ⟨l, content, located, file, decoded⟩]
  simp only [source]

/-- Where nothing is to move, a walk reports no file rewritten and changes nothing. -/
theorem tally_of_settled (policy : ShadePolicy) (report : ShadeReport)
    (settled : ∀ path ∈ paths, shader.verdict tree path = .ok none) :
    (shader.tally policy tree report paths).filesRewritten = report.filesRewritten ∧
      (shader.tally policy tree report paths).failures = report.failures := by
  induction paths generalizing report with
  | nil => exact ⟨rfl, rfl⟩
  | cons path rest ih =>
    obtain ⟨first, others⟩ := List.forall_mem_cons.1 settled
    have outcome : shader.outcome tree path = .ok none := by
      simp [Shader.outcome, first, Except.map]
    have goesOn : stops policy (.ok none) = false := by simp [stops, Except.isOk, Except.toBool]
    rw [tally, outcome, goesOn, if_neg Bool.false_ne_true]
    exact ih _ others

theorem Through.rewritten_of_settled (h : shader.Through start paths tree)
    (settled : ∀ path ∈ paths, shader.verdict start path = .ok none) :
    Tree.Rewritten (fun l => start.opened = some l) start tree := by
  refine ⟨h.base, h.mounts, h.refuses, h.opened, fun l => h.directory, fun l apart => ?_⟩
  refine h.same l apart fun path mem moved located verdict => ?_
  rw [settled path mem] at verdict
  cases verdict

/-- After a walk without failures every Go file below the root parses and has no import left
to move. Files of another kind and files without such an import are as they were, and
another walk, of whatever kind, rewrites no file. The log alone gets its lines. -/
theorem walks_finished (proper : shader.Proper) (walkable : site.tree.Walkable root)
    (plain : PlainFiles site.tree root) {report : ShadeReport}
    (walks : shader.Walks root site (.ok report) after) (clean : report.failures = []) :
    ∃ loc, site.tree.locate root = .ok loc ∧
      (∀ rel content, after.tree.GoFile root loc rel content →
        shader.Settled (Tree.pathIn root rel) content) ∧
      (∀ l, site.tree.opened ≠ some l →
        (∀ rel content, l = loc ++ rel → site.tree.GoFile root loc rel content →
          shader.Settled (Tree.pathIn root rel) content) →
        after.tree.find? l = site.tree.find? l) ∧
      ∀ result final, shader.Walks root after result final →
        ∃ again, result = .ok again ∧ again.filesRewritten = 0 ∧ again.failures = [] ∧
          Tree.Rewritten (fun l => site.tree.opened = some l) after.tree final.tree := by
  obtain ⟨paths, collected, all, through⟩ := walks.all_through walkable clean
  obtain ⟨loc, node, found, -, mem⟩ := Tree.filesToShade_eq_ok walkable.sound collected
  obtain ⟨located, -⟩ := Tree.lookup_eq_ok_iff.1 found
  have settled := fun rel content (file : after.tree.GoFile root loc rel content) =>
    through.settled proper walkable plain collected all located file
  have shaded := through.find?_of_all walkable collected all located
  refine ⟨loc, located, fun rel content file => (settled rel content file).2,
    fun l apart same => ?_, fun result final walks' => ?_⟩
  · by_cases isGo : ∃ rel content, l = loc ++ rel ∧ site.tree.GoFile root loc rel content
    · obtain ⟨rel, content, rfl, file⟩ := isGo
      rw [shaded.1 rel content file, (same rel content rfl file).shadeContent, file.found]
    · exact shaded.2 l apart fun rel content eq file => isGo ⟨rel, content, eq, file⟩
  · have walkable' := through.walkable walkable
    obtain ⟨paths', collected'⟩ :=
      through.exists_filesToShade walkable.sound walkable'.sound collected
    obtain ⟨policy, told, through'⟩ := walks'.through walkable' collected'
    obtain ⟨loc', node', found', -, mem'⟩ := Tree.filesToShade_eq_ok walkable'.sound collected'
    have same := (Tree.lookup_eq_ok_iff.1 found').1
    rw [through.locate, located] at same
    cases same
    have nothing : ∀ path ∈ paths', shader.verdict after.tree path = .ok none := by
      intro path memP
      obtain ⟨rel, content, rfl, file⟩ := (mem' path).1 memP
      obtain ⟨here, done⟩ := settled rel content file
      exact done.verdict here file.found
    obtain ⟨rewritten, failures⟩ := tally_of_settled policy .empty nothing
    refine ⟨_, told, rewritten, failures, ?_⟩
    rw [← through.opened]
    exact through'.rewritten_of_settled fun path memP =>
      nothing path (shader.visited_subset policy after.tree paths' memP)

theorem sample_proper : sample.Proper := ⟨by decide, by decide, by decide⟩

theorem sampleSource_parses :
    ∃ file, SourceFile.ofSource sampleSource = .ok file ∧ file.PlainImports ∧
      file.importSpecs.map (·.path) = ["a.b/c".toList, "fmt".toList] := by
  have check : (SourceFile.ofSource sampleSource).toOption.any (fun file =>
      decide file.PlainImports &&
        decide (file.importSpecs.map (·.path) = ["a.b/c".toList, "fmt".toList])) = true := by
    decide +kernel
  obtain ⟨file, parsed, passed⟩ := SourceFile.exists_of_toOption_any check
  simp only [Bool.and_eq_true, decide_eq_true_eq] at passed
  exact ⟨file, parsed, passed⟩

/-- In a tree whose only file is the sample, that is what is parsed. -/
theorem sample_parsed {tree : Tree} (sound : tree.Sound)
    (only : ∀ e ∈ tree.entries, e.2 = .directory ∨ e.2 = .file (.ofText sampleSource))
    {loc rel : Location} {content : Content} (goFile : tree.GoFile root loc rel content)
    {src : Text} (decoded : content.text? = some src) {file : SourceFile}
    (parsed : SourceFile.ofSource src = .ok file) :
    file.PlainImports ∧ file.importSpecs.map (·.path) = ["a.b/c".toList, "fmt".toList] := by
  have below : loc ++ rel ≠ [] := by
    intro top
    have found := goFile.found
    simp [top] at found
  rcases only _ ((sound.mem_iff below).2 goFile.found) with other | same
  · cases other
  · cases same
    rw [Content.text?_ofText] at decoded
    cases decoded
    obtain ⟨file', parsed', facts⟩ := sampleSource_parses
    rw [parsed] at parsed'
    cases parsed'
    exact facts

/-- A walk through a directory with one file, the sample. -/
theorem sample_walks {site : Site} (walkable : site.tree.Walkable ⟨['m']⟩)
    (collected : site.tree.filesToShade ⟨['m']⟩ = .ok [⟨"m/a.go".toList⟩])
    (takes : site.tree.Takes ⟨"m/a.go".toList⟩ [['m'], "a.go".toList])
    (found : site.tree.find? [['m'], "a.go".toList] = some (.file (.ofText sampleSource))) :
    ∃ report after, (sample.shadeTree .abort ⟨['m']⟩).on site = (.ok report, after) ∧
      report.failures = [] := by
  obtain ⟨file, parsed, plain, -⟩ := sampleSource_parses
  obtain ⟨after, ran, -⟩ := on_shadeTree sample .abort walkable collected
  refine ⟨_, after, ran, tally_failures_eq_nil_iff.2 ⟨rfl, fun path mem => ?_⟩⟩
  rw [List.mem_singleton.1 mem]
  exact isOk_outcome sample_proper takes found (Content.text?_ofText _) parsed plain

/-- A directory with a file to shade. -/
def unsettledSite : Site :=
  .start { Tree.empty ['/', 'w'] with
    entries := [([['m']], .directory), ([['m'], "a.go".toList], .file (.ofText sampleSource))] } 0

theorem walks_finished_sample :
    ∃ report after, (sample.shadeTree .abort ⟨['m']⟩).on unsettledSite = (.ok report, after) ∧
      after.tree.find? [['m'], "a.go".toList] ≠ some (.file (.ofText sampleSource)) ∧
      ∀ result final, sample.Walks ⟨['m']⟩ after result final →
        ∃ again, result = .ok again ∧ again.filesRewritten = 0 := by
  have walkable : unsettledSite.tree.Walkable ⟨['m']⟩ :=
    { sound := by decide +kernel
      inside := by simp [Tree.Inside, Path.isAbsolute]
      log := by intro _ _ _ isOpen; cases isOpen }
  have takes : unsettledSite.tree.Takes ⟨"m/a.go".toList⟩ [['m'], "a.go".toList] :=
    ⟨by decide +kernel, by decide +kernel, rfl⟩
  have found : unsettledSite.tree.lookup ⟨['m']⟩ = .ok ([['m']], .directory) := by decide +kernel
  have files : unsettledSite.tree.filesToShade ⟨['m']⟩ = .ok [⟨"m/a.go".toList⟩] := by
    rw [Tree.filesToShade_eq_of_perm walkable.sound found (.refl _) (by decide +kernel)
      (by decide +kernel)]
    decide +kernel
  obtain ⟨report, after, ran, clean⟩ := sample_walks walkable files takes (by decide +kernel)
  have walks := @Walks.inOrder sample ⟨['m']⟩ unsettledSite .abort
  rw [ran] at walks
  obtain ⟨file, parsed, plain, paths⟩ := sampleSource_parses
  have plainFiles : PlainFiles unsettledSite.tree ⟨['m']⟩ :=
    fun _ _ _ _ _ _ goFile decoded parsed =>
      (sample_parsed walkable.sound (by decide +kernel) goFile decoded parsed).1
  obtain ⟨loc, located, settled, -, again⟩ :=
    walks_finished sample_proper walkable plainFiles walks clean
  refine ⟨report, after, ran, fun found => ?_, fun result final walks' => ?_⟩
  · have here : unsettledSite.tree.locate ⟨['m']⟩ = .ok [['m']] := by decide +kernel
    rw [here] at located
    cases located
    obtain ⟨src, file', decoded, parsed', moved⟩ :=
      settled ["a.go".toList] _ ⟨found, by decide +kernel⟩
    rw [Content.text?_ofText] at decoded
    cases decoded
    have same := SourceFile.parse_eq_ok_iff.1 parsed'
    rw [parsed] at same
    cases same
    have listed : "a.b/c".toList ∈ file.importSpecs.map (·.path) := by simp [paths]
    obtain ⟨spec, memSpec, path⟩ := List.mem_map.1 listed
    exact moved spec memSpec (by rw [path]; decide)
  · obtain ⟨report, ok, none_left, -⟩ := again result final walks'
    exact ⟨report, ok, none_left⟩

end GoSplit.Shader
