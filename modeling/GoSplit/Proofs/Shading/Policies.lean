import GoSplit.Proofs.Shading.Workers

/-!
The two policies for failures. A walk that collects them comes to every file; one that aborts
comes to the files up to the first that fails. Either way the files it came to are shaded
unless they failed, every other file is as it was, and the report tells of the files it came
to and of no other.
-/

namespace GoSplit.Shader

variable {shader : Shader} {start tree : Tree} {root : Path} {done paths : List Path}

/-! ### The report -/

/-- The entry of a report for a file that cannot be shaded. -/
def failure? (shader : Shader) (tree : Tree) (path : Path) : Option ShadeFailure :=
  match shader.outcome tree path with
  | .error e => some ⟨path, e.message⟩
  | .ok _ => none

/-- How many imports of a file are moved. -/
def movedIn (shader : Shader) (tree : Tree) (path : Path) : Nat :=
  match shader.outcome tree path with
  | .ok (some count) => count
  | _ => 0

/-- Whether the text of a file changes. -/
def rewrites (shader : Shader) (tree : Tree) (path : Path) : Bool :=
  match shader.outcome tree path with
  | .ok (some _) => true
  | _ => false

/-- A report that tells of some files in order, as they are in the tree at the start. -/
structure Reports (shader : Shader) (start : Tree) (done : List Path) (report : ShadeReport) :
    Prop where
  visited : report.filesVisited = done.length
  failures : report.failures = done.filterMap (shader.failure? start)
  rewritten : report.rewrittenFiles = done.filter (shader.rewrites start)
  count : report.filesRewritten = report.rewrittenFiles.length
  imports : report.importsRewritten =
    done.foldl (fun total path => total + shader.movedIn start path) 0

theorem Reports.empty (shader : Shader) (start : Tree) : shader.Reports start [] .empty :=
  ⟨rfl, rfl, rfl, rfl, rfl⟩

/-- One more file. -/
theorem Reports.record {report : ShadeReport} (h : shader.Reports start done report) (path : Path) :
    shader.Reports start (done ++ [path]) (report.record path (shader.outcome start path)) := by
  obtain ⟨visited, failures, rewritten, count, imports⟩ := h
  have told : ∀ outcome, shader.outcome start path = outcome →
      shader.Reports start (done ++ [path]) (report.record path outcome) := by
    intro outcome eq
    match outcome with
    | .ok none =>
      constructor <;>
        simp [ShadeReport.record, failure?, rewrites, movedIn, eq, visited, failures, rewritten,
          count, imports]
    | .ok (some n) =>
      constructor <;>
        simp [ShadeReport.record, failure?, rewrites, movedIn, eq, visited, failures, rewritten,
          count, imports]
    | .error e =>
      constructor <;>
        simp [ShadeReport.record, failure?, rewrites, movedIn, eq, visited, failures, rewritten,
          count, imports]
  exact told _ rfl

/-- The report on a walk tells of the files the walk came to. -/
theorem Reports.tally {report : ShadeReport} (h : shader.Reports start done report)
    (policy : ShadePolicy) (paths : List Path) :
    shader.Reports start (done ++ shader.visited policy start paths)
      (shader.tally policy start report paths) := by
  induction paths generalizing done report with
  | nil => simpa [Shader.visited, Shader.tally] using h
  | cons path rest ih =>
    have next := h.record path
    rw [Shader.visited, Shader.tally]
    split
    · exact ⟨next.visited, next.failures, next.rewritten, next.count, next.imports⟩
    · rw [List.append_cons]
      exact ih next

theorem aborted_record (report : ShadeReport) (path : Path)
    (outcome : Except FileShadeError (Option Nat)) :
    (report.record path outcome).aborted = report.aborted := by
  match outcome with
  | .ok none => rfl
  | .ok (some _) => rfl
  | .error _ => rfl

/-- Only a walk that stops is aborted. -/
theorem aborted_tally_collect (report : ShadeReport) (paths : List Path) :
    (shader.tally .collect start report paths).aborted = report.aborted := by
  induction paths generalizing report with
  | nil => rfl
  | cons path rest ih => rw [Workshop.tally_collect_cons, ih, aborted_record]

/-! ### Walks that abort -/

section Abort

variable {before later : List Path} {failing : Path}
  (fine : ∀ path ∈ before, (shader.outcome start path).isOk = true)
  (fails : (shader.outcome start failing).isOk = false)
include fine fails

/-- The files up to the first that fails. -/
theorem visited_abort : shader.visited .abort start (before ++ failing :: later) =
    before ++ [failing] := by
  induction before with
  | nil =>
    have stop : stops .abort (shader.outcome start failing) = true := by simp [stops, fails]
    rw [List.nil_append, visited, stop, if_pos rfl, List.nil_append]
  | cons path rest ih =>
    obtain ⟨ok, others⟩ := List.forall_mem_cons.1 fine
    have goesOn : stops .abort (shader.outcome start path) = false := by simp [stops, ok]
    rw [List.cons_append, visited, goesOn, if_neg Bool.false_ne_true, ih others, List.cons_append]

theorem aborted_tally_abort (report : ShadeReport) :
    (shader.tally .abort start report (before ++ failing :: later)).aborted = true := by
  induction before generalizing report with
  | nil =>
    have stop : stops .abort (shader.outcome start failing) = true := by simp [stops, fails]
    rw [List.nil_append, tally, stop, if_pos rfl]
  | cons path rest ih =>
    obtain ⟨ok, others⟩ := List.forall_mem_cons.1 fine
    have goesOn : stops .abort (shader.outcome start path) = false := by simp [stops, ok]
    rw [List.cons_append, tally, goesOn, if_neg Bool.false_ne_true]
    exact ih others _

end Abort

theorem failure?_of_isOk {path : Path} (ok : (shader.outcome start path).isOk = true) :
    shader.failure? start path = none := by
  unfold failure?
  split
  · next e failed => simp [failed, Except.isOk, Except.toBool] at ok
  · rfl

/-! ### The files -/

/-- What a walk leaves of a Go file it came to. -/
def left (shader : Shader) (start : Tree) (path : Path) (content : Content) : Content :=
  if (shader.outcome start path).isOk then shader.shadeContent path content else content

/-- The Go files below a root are shaded, unless they failed, where a walk came to them; all
that is no Go file, the log aside, is as it was. -/
structure Leaves (shader : Shader) (root : Path) (start : Tree) (done : List Path) (tree : Tree) :
    Prop where
  shaded : ∀ loc rel content, start.locate root = .ok loc → start.GoFile root loc rel content →
    Tree.pathIn root rel ∈ done →
    tree.find? (loc ++ rel) = some (.file (shader.left start (Tree.pathIn root rel) content))
  same : ∀ l, start.opened ≠ some l →
    (∀ loc rel content, start.locate root = .ok loc → l = loc ++ rel →
      start.GoFile root loc rel content → Tree.pathIn root rel ∉ done) →
    tree.find? l = start.find? l

/-- A walk through some of the files leaves the others alone. -/
theorem Through.leaves (h : shader.Through start done tree) (walkable : start.Walkable root)
    (collected : start.filesToShade root = .ok paths) (sub : done ⊆ paths) :
    shader.Leaves root start done tree := by
  obtain ⟨loc, node, found, -, mem⟩ := Tree.filesToShade_eq_ok walkable.sound collected
  have located := (Tree.lookup_eq_ok_iff.1 found).1
  have apart := apart_of_filesToShade walkable collected
  -- A file that is not rewritten stays as it is.
  have stays : ∀ rel content, start.GoFile root loc rel content →
      (∀ moved, start.locate (Tree.pathIn root rel) = .ok (loc ++ rel) →
        shader.verdict start (Tree.pathIn root rel) ≠ .ok (some moved)) →
      tree.find? (loc ++ rel) = some (.file content) := by
    intro rel content file untouched
    have log : start.opened ≠ some (loc ++ rel) := by
      intro isOpen
      have other := walkable.log loc rel located isOpen
      rw [file.isGo] at other
      cases other
    rw [← file.found]
    refine h.same _ log fun p memP moved here verdict => ?_
    obtain ⟨rel', content', rfl, file'⟩ := (mem p).1 (sub memP)
    have places := eq_of_locate walkable located file'.found here
    obtain rfl := List.append_cancel_left places
    exact untouched moved here verdict
  constructor
  · intro loc' rel content located' file memP
    rw [located] at located'
    cases located'
    rw [left]
    split
    · next ok =>
      obtain ⟨src, result, here, decoded, source, verdict⟩ := exists_shadeSource ok
        (fun l => eq_of_locate walkable located file.found) file.found
      cases result with
      | some moved =>
        rw [h.shaded _ memP _ moved here verdict]
        simp only [shadeContent, decoded, source]
      | none =>
        simp only [shadeContent, decoded, source]
        refine stays rel content file fun moved _ verdict' => ?_
        rw [verdict] at verdict'
        cases verdict'
    · next failed =>
      refine stays rel content file fun moved _ verdict => failed ?_
      simp [outcome, verdict, Except.map, Except.isOk, Except.toBool]
  · intro l log free
    refine h.same l log fun p memP moved here verdict => ?_
    obtain ⟨rel, content, rfl, file⟩ := (mem p).1 (sub memP)
    exact free loc rel content located (eq_of_locate walkable located file.found here) file memP

/-! ### Walks without failures -/

/-- Where no file fails there is nothing to decide. -/
theorem Through.shadeFiles_abort {site : Site} (h : shader.Through start done site.tree)
    (apart : Apart start (done ++ paths)) (nodup : (done ++ paths).Nodup)
    (fine : ∀ path ∈ paths, (shader.outcome start path).isOk = true) (report : ShadeReport) :
    (shader.shadeFiles .abort report paths).on site =
      (shader.shadeFiles .collect report paths).on site := by
  induction paths generalizing done site report with
  | nil => rfl
  | cons path rest ih =>
    obtain ⟨ok, others⟩ := List.forall_mem_cons.1 fine
    have fresh : Fresh start done path :=
      apart.fresh (List.subset_append_left ..) (by simp) fun mem =>
        (List.nodup_append.1 nodup).2.2 path mem path (by simp) rfl
    obtain ⟨after, shaded, through⟩ := h.shadeFile fresh fun p mem => apart.log p (by simp [mem])
    rw [Shader.shadeFiles, Shader.shadeFiles, SiteM.on_bind, SiteM.on_bind, SiteM.on_attempt,
      shaded]
    dsimp only
    rw [if_neg (by simp [ok]), if_neg (by simp)]
    rw [List.append_cons] at apart nodup
    exact ih through apart nodup others _

/-- A walk that collects failures, in order or with a worker for every file. -/
inductive Collects (shader : Shader) (root : Path) (site : Site) :
    Except SplitError ShadeReport → Site → Prop where
  | inOrder {result : Except SplitError ShadeReport} {after : Site}
      (ran : (shader.shadeTree .collect root).on site = (result, after)) :
    Collects shader root site result after
  | together (set : FileSet) (schedule : List Nat) {result : Except SplitError ShadeReport}
      {after : Site} (ran : shader.shadeTogether root set schedule site = some (result, after)) :
    Collects shader root site result after

/-- What the two policies make of the same tree. A walk that collects failures shades every
file that does not fail and reports on all of them. A walk that aborts does so up to the first
file that fails, which ends its report, and leaves that file and all later ones alone. Where
no file fails the two walks are the same. -/
theorem shadeTree_policies (shader : Shader) (root : Path) (site : Site)
    (walkable : site.tree.Walkable root) (files : List Path)
    (collected : site.tree.filesToShade root = .ok files) :
    (∀ result after, shader.Collects root site result after →
      ∃ report, result = .ok report ∧ report.aborted = false ∧
        shader.Reports site.tree files report ∧ shader.Leaves root site.tree files after.tree) ∧
    (∀ before failing later e, files = before ++ failing :: later →
      (∀ path ∈ before, (shader.outcome site.tree path).isOk = true) →
      shader.outcome site.tree failing = .error e →
      ∃ report after, (shader.shadeTree .abort root).on site = (.ok report, after) ∧
        report.aborted = true ∧ report.filesVisited = before.length + 1 ∧
        report.failures = [⟨failing, e.message⟩] ∧
        shader.Reports site.tree (before ++ [failing]) report ∧
        shader.Leaves root site.tree before after.tree) ∧
    ((∀ path ∈ files, (shader.outcome site.tree path).isOk = true) →
      (shader.shadeTree .abort root).on site = (shader.shadeTree .collect root).on site) := by
  have apart := apart_of_filesToShade walkable collected
  obtain ⟨-, -, -, nodup, -⟩ := Tree.filesToShade_eq_ok walkable.sound collected
  have told := fun policy => (Reports.empty shader site.tree).tally policy files
  simp only [List.nil_append] at told
  refine ⟨fun result after walk => ?_, fun before failing later e cut fine failed => ?_,
    fun fine => ?_⟩
  · have through : result = .ok (shader.tally .collect site.tree .empty files) ∧
        shader.Through site.tree files after.tree := by
      cases walk with
      | inOrder ran =>
        obtain ⟨after', ran', through⟩ := on_shadeTree shader .collect walkable collected
        rw [ran'] at ran
        cases ran
        rw [visited_collect] at through
        exact ⟨rfl, through⟩
      | together set schedule ran => exact through_of_shadeTogether walkable collected ran
    obtain ⟨rfl, through⟩ := through
    have reports := told .collect
    rw [visited_collect] at reports
    exact ⟨_, rfl, aborted_tally_collect .empty files, reports,
      through.leaves walkable collected (List.Subset.refl _)⟩
  · have fails : (shader.outcome site.tree failing).isOk = false := by
      simp [failed, Except.isOk, Except.toBool]
    obtain ⟨after, ran, through⟩ := on_shadeTree shader .abort walkable collected
    have reports := told .abort
    rw [cut] at ran through reports
    rw [visited_abort fine fails] at through reports
    have none_before : before.filterMap (shader.failure? site.tree) = [] :=
      List.filterMap_eq_nil_iff.2 fun path mem => failure?_of_isOk (fine path mem)
    have through' : shader.Through site.tree before after.tree := by
      have sub : before ⊆ before ++ [failing] := List.subset_append_left ..
      refine { through with
        shaded := fun path mem => through.shaded path (sub mem)
        same := fun l log free => through.same l log fun path mem moved here verdict => ?_ }
      rcases List.mem_append.1 mem with mem | mem
      · exact free path mem moved here verdict
      · obtain rfl := List.mem_singleton.1 mem
        simp [outcome, verdict, Except.map] at failed
    refine ⟨_, after, ran, aborted_tally_abort fine fails .empty, by simp [reports.visited], ?_,
      reports, through'.leaves walkable collected ?_⟩
    · rw [reports.failures, List.filterMap_append, none_before]
      simp [failure?, failed]
    · rw [cut]
      exact List.subset_append_left ..
  · have same := (Through.refl shader walkable.sound).shadeFiles_abort
      (List.nil_append files ▸ apart) (List.nil_append files ▸ nodup) fine .empty
    rw [shadeTree, shadeTree, SiteM.on_bind, SiteM.on_bind, SiteM.on_look]
    dsimp only
    rw [SiteM.on_bind, SiteM.on_bind, SiteM.on_lift, collected]
    dsimp only
    rw [SiteM.on_bind, SiteM.on_bind, same]

/-- A file with a fault between two with an import to move. -/
def mixedSite : Site :=
  .start { Tree.empty ['/', 'w'] with
    entries := [([['m']], .directory), ([['m'], "a.go".toList], .file (.ofText sampleSource)),
      ([['m'], "b.go".toList], .file (.ofText "package m\n\nvar x = (".toList)),
      ([['m'], "c.go".toList], .file (.ofText sampleSource))] } 0

theorem shadeTree_policies_sample :
    ∃ report after, (sample.shadeTree .abort ⟨['m']⟩).on mixedSite = (.ok report, after) ∧
      report.aborted = true ∧ report.filesVisited = 2 ∧
      report.rewrittenFiles = [⟨"m/a.go".toList⟩] ∧
      report.importsRewritten = 1 ∧
      report.failures = [⟨⟨"m/b.go".toList⟩, "m/b.go:3:9: '(' is never closed"⟩] ∧
      after.tree.find? [['m'], "c.go".toList] = some (.file (.ofText sampleSource)) := by
  have walkable : mixedSite.tree.Walkable ⟨['m']⟩ :=
    { sound := by decide +kernel
      inside := by simp [Tree.Inside, Path.isAbsolute]
      log := by intro _ _ _ isOpen; cases isOpen }
  have found : mixedSite.tree.lookup ⟨['m']⟩ = .ok ([['m']], .directory) := by decide +kernel
  have files : mixedSite.tree.filesToShade ⟨['m']⟩ =
      .ok [⟨"m/a.go".toList⟩, ⟨"m/b.go".toList⟩, ⟨"m/c.go".toList⟩] := by
    rw [Tree.filesToShade_eq_of_perm walkable.sound found (.refl _) (by decide +kernel)
      (by decide +kernel)]
    decide +kernel
  have first : sample.outcome mixedSite.tree ⟨"m/a.go".toList⟩ = .ok (some 1) := by decide +kernel
  obtain ⟨e, second, message⟩ : ∃ e, sample.outcome mixedSite.tree ⟨"m/b.go".toList⟩ = .error e ∧
      e.message = "m/b.go:3:9: '(' is never closed" := by
    refine ⟨.source (.parse ⟨.unclosedDelimiter ['('], ⟨"m/b.go".toList, 3, 9⟩⟩), ?_, ?_⟩ <;>
      decide +kernel
  obtain ⟨-, aborts, -⟩ := shadeTree_policies sample ⟨['m']⟩ mixedSite walkable _ files
  obtain ⟨report, after, ran, aborted, visited, failures, reports, leaves⟩ :=
    aborts [⟨"m/a.go".toList⟩] ⟨"m/b.go".toList⟩ [⟨"m/c.go".toList⟩] e rfl
      (List.forall_mem_singleton.2 (by rw [first]; rfl)) second
  refine ⟨report, after, ran, aborted, visited, ?_, ?_, by rw [failures, message], ?_⟩
  · rw [reports.rewritten]
    decide +kernel
  · rw [reports.imports]
    decide +kernel
  · have here : mixedSite.tree.find? [['m'], "c.go".toList] =
        some (.file (.ofText sampleSource)) := by
      decide +kernel
    rw [← here]
    refine leaves.same _ (by intro isOpen; cases isOpen)
      fun loc rel content located place _ mem => ?_
    have root : mixedSite.tree.locate ⟨['m']⟩ = .ok [['m']] := by decide +kernel
    rw [root] at located
    cases located
    obtain rfl : ["c.go".toList] = rel := (List.cons.inj place).2
    revert mem
    decide +kernel

end GoSplit.Shader
