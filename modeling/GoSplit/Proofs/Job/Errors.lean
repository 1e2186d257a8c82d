import GoSplit.Job
import GoSplit.Proofs.Vendoring
import GoSplit.Toolchain.Script

/-!
Errors that say nothing was written. Reading the source is the only step that raises such an
error before anything is written; every other step owns up to what may be there. The check
for missing packages is the exception: it parses every file once more, and so it has to find
the files that shading has left in order.
-/

namespace GoSplit

variable {α β : Type}

/-! ### Steps that own up -/

/-- Every error of the action says that output may have been written. -/
def OwnsUp (action : RunM α) : Prop :=
  ∀ site e after, action.on site = (.error e, after) → e.leavesPartialOutput = true

namespace SiteM

/-- An action in two parts fails in the one or the other. -/
theorem on_bind_eq_error_iff {ε : Type} {action : SiteM ε α} {next : α → SiteM ε β}
    {site after : Site} {e : ε} :
    (action >>= next).on site = (.error e, after) ↔
      action.on site = (.error e, after) ∨
        ∃ a mid, action.on site = (.ok a, mid) ∧ (next a).on mid = (.error e, after) := by
  rw [on_bind]
  rcases action.on site with ⟨e' | a, mid⟩
  · simp
  · simp

/-- An action in two parts succeeds when both do. -/
theorem exists_ok_bind {ε : Type} {action : SiteM ε α} {next : α → SiteM ε β} {site mid : Site}
    {a : α} (first : action.on site = (.ok a, mid))
    (second : ∃ b after, (next a).on mid = (.ok b, after)) :
    ∃ b after, (action >>= next).on site = (.ok b, after) := by
  rwa [on_bind_of_ok first]

end SiteM

namespace OwnsUp

theorem pure (a : α) : OwnsUp (Pure.pure a : RunM α) := nofun

theorem bind {action : RunM α} {next : α → RunM β} (first : OwnsUp action)
    (second : ∀ a, OwnsUp (next a)) : OwnsUp (action >>= next) := by
  intro site e after failed
  rcases SiteM.on_bind_eq_error_iff.1 failed with failed | ⟨a, mid, -, failed⟩
  · exact first site e after failed
  · exact second a mid e after failed

theorem ite {c : Prop} [Decidable c] {action other : RunM α} (first : OwnsUp action)
    (second : OwnsUp other) : OwnsUp (if c then action else other) := by
  split
  · exact first
  · exact second

/-- An action that cannot fail. -/
theorem of_ok {action : RunM α} (fine : ∀ site, ∃ a after, action.on site = (.ok a, after)) :
    OwnsUp action := by
  intro site e after failed
  obtain ⟨a, after', ok⟩ := fine site
  rw [ok] at failed
  cases failed

theorem record (event : Event) : OwnsUp (SiteM.record event) := of_ok fun _ => ⟨_, _, rfl⟩

theorem note (line : String) : OwnsUp (SiteM.note line) := of_ok fun _ => ⟨_, _, rfl⟩

theorem look (f : Tree → α) : OwnsUp (SiteM.look f) := of_ok fun _ => ⟨_, _, rfl⟩

theorem attempt {ε : Type} (action : SiteM ε α) : OwnsUp (SiteM.attempt action) :=
  of_ok fun _ => ⟨_, _, rfl⟩

theorem throw {e : SplitError} (owns : e.leavesPartialOutput = true) :
    OwnsUp (throw e : RunM α) := by
  intro site e' after failed
  cases failed
  exact owns

theorem lift {result : Except SplitError α}
    (owns : ∀ e, result = .error e → e.leavesPartialOutput = true) :
    OwnsUp (SiteM.lift result) := by
  intro site e after failed
  rw [SiteM.on_lift] at failed
  exact owns e (Prod.ext_iff.1 failed).1

/-- A result read off the tree. -/
theorem lookLift {f : Tree → Except SplitError α} {next : α → RunM β}
    (owns : ∀ tree e, f tree = .error e → e.leavesPartialOutput = true)
    (rest : ∀ a, OwnsUp (next a)) :
    OwnsUp (SiteM.look f >>= fun result => SiteM.lift result >>= next) := by
  intro site e after failed
  rw [SiteM.on_bind, SiteM.on_look] at failed
  exact bind (lift (owns site.tree)) rest site e after failed

/-- An error that is kept for later is one of the action. -/
theorem attemptBind {action : RunM α} {next : Except SplitError α → RunM β} (owns : OwnsUp action)
    (rest : ∀ result, (∀ e, result = .error e → e.leavesPartialOutput = true) →
      OwnsUp (next result)) :
    OwnsUp (SiteM.attempt action >>= next) := by
  intro site e after failed
  rw [SiteM.on_bind, SiteM.on_attempt] at failed
  refine rest _ (fun e' result => ?_) _ e after failed
  exact owns site e' (action.on site).2 (Prod.ext result rfl)

theorem mapError {ε : Type} {f : ε → SplitError} (owns : ∀ e, (f e).leavesPartialOutput = true)
    (action : SiteM ε α) : OwnsUp (SiteM.mapError f action) := by
  intro site e after failed
  rw [SiteM.on_mapError] at failed
  have first := (Prod.ext_iff.1 failed).1
  dsimp only at first
  cases result : (action.on site).1 with
  | ok a =>
    rw [result] at first
    cases first
  | error e' =>
    rw [result] at first
    cases first
    exact owns e'

theorem files {ε : Type} {f : ε → SplitError} (owns : ∀ e, (f e).leavesPartialOutput = true)
    (action : FileM ε α) : OwnsUp (SiteM.files (FileM.mapError f action)) := by
  intro site e after failed
  rw [SiteM.on_files, FileM.on_mapError] at failed
  have first := (Prod.ext_iff.1 failed).1
  dsimp only at first
  cases result : (action.on site.tree).1 with
  | ok a =>
    rw [result] at first
    cases first
  | error e' =>
    rw [result] at first
    cases first
    exact owns e'

theorem change (path : Path) (f : Tree → Except IoError Tree) : OwnsUp (Site.change path f) :=
  files (fun _ => rfl) _

theorem makeDirs (path : Path) : OwnsUp (Site.makeDirs path) := files (fun _ => rfl) _

theorem removeDirs (path : Path) : OwnsUp (Site.removeDirs path) := files (fun _ => rfl) _

end OwnsUp

/-! ### The steps of a run -/

namespace BucketWriter

theorem ownsUp_write (writer : BucketWriter) (bucket : Bucket) (draft : Draft) :
    OwnsUp (writer.write bucket draft) := by
  have pruned : ∀ e, (pruneFault (writer.fileName bucket) e).leavesPartialOutput = true := by
    rintro (e | ⟨tool, message⟩) <;> rfl
  refine .bind (.mapError pruned _) fun text => .bind (.lift fun e failed => ?_) fun file =>
    .bind (.change _ _) fun _ => .bind (.note _) fun _ => .pure _
  cases parsed : SourceFile.parse (writer.fileName bucket) text with
  | ok file =>
    rw [parsed] at failed
    cases failed
  | error e' =>
    rw [parsed] at failed
    cases failed
    rfl

theorem ownsUp_writeAll (writer : BucketWriter) (file : SourceFile) :
    OwnsUp (writer.writeAll file) := by
  have each : ∀ withDoc buckets, OwnsUp (writer.writeEach file withDoc buckets) := by
    intro withDoc buckets
    induction buckets generalizing withDoc with
    | nil => exact .pure _
    | cons bucket rest ih =>
      exact .bind (writer.ownsUp_write bucket _) fun _ => .bind (ih false) fun _ => .pure _
  have stale : ∀ buckets, OwnsUp (writer.removeStale file buckets) := by
    intro buckets
    induction buckets with
    | nil => exact .pure _
    | cons bucket rest ih =>
      refine .bind (.look _) fun there =>
        .ite (.bind (.note _) fun _ => .bind (.change _ _) fun _ => ih) ?_
      exact ih
  exact .bind (.makeDirs _) fun _ => .bind (each true _) fun _ => .bind (stale _) fun _ => .pure _

end BucketWriter

theorem ownsUp_relocate (manifest : Manifest) (vendored thirdParty : Path) :
    OwnsUp (relocate manifest vendored thirdParty) := by
  have notes : ∀ pairs, OwnsUp (Relocation.noteViolations pairs) := by
    intro pairs
    induction pairs with
    | nil => exact .pure _
    | cons pair rest ih => exact .bind (.note _) fun _ => ih
  have moves : ∀ modules, OwnsUp (Relocation.moveModules vendored thirdParty modules) := by
    intro modules
    induction modules with
    | nil => exact .pure _
    | cons m rest ih =>
      refine .bind (.bind (.look _) fun there => .ite (.bind (.attempt _) fun result => ?_)
        (.bind (.look _) fun there' => .ite (.pure _) (.ite (.pure _) (.pure _)))) fun _ =>
        .bind (.note _) fun _ => .bind ih fun _ => .pure _
      cases result with
      | ok _ => exact .pure _
      | error _ => exact .pure _
  refine .bind
    (.bind (.look _) fun there => .ite (.bind (.note _) fun _ => .removeDirs _) (.pure _))
    fun _ => .bind (.makeDirs _) fun _ => .bind (notes _) fun _ => .bind (moves _) fun _ =>
    .bind (.look _) fun _ => .ite (.pure _) (.throw rfl)

/-- The requests to the toolchain own up. -/
structure Toolchain.OwnsUp (toolchain : Toolchain) : Prop where
  init : ∀ dir name, GoSplit.OwnsUp (toolchain.init dir name)
  vendor : ∀ workDir outDir, GoSplit.OwnsUp (toolchain.vendor workDir outDir)

theorem Toolchain.ownsUp_ofProgram (programs : Programs) (program : Text) (verbose : Bool) :
    (ofProgram programs program verbose).OwnsUp := by
  have runs : ∀ dir args, GoSplit.OwnsUp (command programs program verbose dir args) := by
    intro dir args
    have started : GoSplit.OwnsUp (SiteM.mapError (fun e : IoError =>
        .toolchain (Text.joinWith [' '] (program :: args)) s!"failed to start: {e.message}")
        (programs.launch program dir args ByteArray.empty)) := .mapError (fun _ => rfl) _
    exact .ite
      (.bind (.record _) fun _ =>
        .bind (.note _) fun _ => .bind started fun _ => .ite (.throw rfl) (.pure _))
      (.bind (.note _) fun _ => .bind started fun _ => .ite (.throw rfl) (.pure _))
  exact ⟨fun dir name => .bind (.look _) fun _ => .ite (.note _) (runs _ _),
    fun workDir outDir => runs _ _⟩

theorem Script.ownsUp_toolchain (script : Script) : script.toolchain.OwnsUp := by
  have requests : ∀ verb rest answer, OwnsUp answer → OwnsUp (script.request verb rest answer) :=
    fun verb rest answer owns => .bind (.record _) fun _ => .ite (.throw rfl) owns
  have writes : ∀ path node, OwnsUp (write path node) := by
    intro path node
    cases node with
    | directory => exact .makeDirs _
    | file content =>
      rw [write]
      cases path.parent with
      | some parent => exact .bind (.makeDirs _) fun _ => .change _ _
      | none => exact .change _ _
  have writesAll : ∀ dir files, OwnsUp (writeAll dir files) := by
    intro dir files
    induction files with
    | nil => exact .pure _
    | cons file rest ih => exact .bind (writes _ _) fun _ => ih
  refine ⟨fun dir name => requests _ _ _ (writes _ _), fun workDir outDir => requests _ _ _ ?_⟩
  refine .bind (.makeDirs _) fun _ => .bind (writesAll _ _) fun _ => ?_
  cases script.manifest with
  | some text => exact writes _ _
  | none => exact .pure _

theorem ownsUp_vendorDependencies {toolchain : Toolchain} (owns : toolchain.OwnsUp) (suffix : Text)
    (workDir thirdParty : Path) :
    OwnsUp (vendorDependencies toolchain suffix workDir thirdParty) := by
  have vendors : ∀ workspace, OwnsUp (vendorFrom toolchain workspace workDir thirdParty) := by
    intro workspace
    refine .bind (owns.vendor _ _) fun _ => .lookLift (fun tree e failed => ?_) fun _ =>
      .bind (.note _) fun _ => ownsUp_relocate _ _ _
    unfold Manifest.load at failed
    split at failed
    · cases failed
      rfl
    · next text _ =>
      cases parsed : Manifest.parse text with
      | ok manifest =>
        rw [parsed] at failed
        cases failed
      | error e' =>
        rw [parsed] at failed
        cases failed
        rfl
  have closes : ∀ workspace : Workspace, OwnsUp workspace.close := fun _ => .files (fun _ => rfl) _
  refine .bind (.bind (.look _) fun base => .bind (.files (fun _ => rfl) _) fun _ =>
    .bind (.note _) fun _ => .pure _) fun workspace => .attemptBind (vendors workspace) ?_
  intro result known
  cases result with
  | ok report => exact .bind (closes _) fun _ => .pure _
  | error e => exact .bind (.attempt _) fun _ => .throw (known e rfl)

namespace Job

variable (job : Job)

theorem ownsUp_sayIfVerbose (line : String) : OwnsUp (job.sayIfVerbose line) :=
  .ite (.record _) (.pure _)

theorem ownsUp_sayEach (lines : List String) : OwnsUp (job.sayEach lines) := by
  induction lines with
  | nil => exact .pure _
  | cons line rest ih => exact .bind (job.ownsUp_sayIfVerbose line) fun _ => ih

theorem ownsUp_writeBuckets (input : Path) (source : Source) :
    OwnsUp (job.writeBuckets input source) :=
  .bind (BucketWriter.ownsUp_writeAll _ _) fun _ => .bind (job.ownsUp_sayEach _) fun _ => .pure _

theorem ownsUp_vendor (owns : job.toolchain.OwnsUp) (input : Path) (source : Source) :
    OwnsUp (job.vendor input source) := by
  refine .ite (.bind (job.ownsUp_sayIfVerbose _) fun _ =>
    .bind (ownsUp_vendorDependencies owns _ _ _) fun _ => .pure _) ?_
  exact .bind (.note _) fun _ => .bind (.look _) fun _ =>
    .ite (.bind (.note _) fun _ => .bind (.removeDirs _) fun _ => .pure _) (.pure _)

theorem ownsUp_shade (root : Path) (space : Text) : OwnsUp (job.shade root space) := by
  have each : ∀ shader : Shader, ∀ policy report paths,
      OwnsUp (shader.shadeFiles policy report paths) := by
    intro shader policy report paths
    induction paths generalizing report with
    | nil => exact .pure _
    | cons path rest ih => exact .bind (.attempt _) fun _ => .ite (.pure _) (ih _)
  refine .bind (.lookLift (fun tree e failed => ?_) fun files => .bind (each _ _ _ _) fun _ =>
    .bind (.note _) fun _ => .pure _) fun report => .lift fun e failed => ?_
  · unfold Tree.filesToShade at failed
    split at failed
    · cases failed
      rfl
    · cases failed
  · unfold ShadeReport.result at failed
    split at failed
    · cases failed
    · cases failed
      rfl

theorem ownsUp_tidy (root : Path) : OwnsUp (job.tidy root) := by
  refine .ite (.pure _) (.bind (.attempt _) fun result => ?_)
  cases result with
  | ok _ => exact .pure _
  | error _ => exact .pure _

/-! ### Whole runs -/

/-- The steps of a run up to shading. -/
def prepare (input : Path) : RunM Source := do
  let source ← job.readSource input
  let _ ← job.writeBuckets input source
  job.toolchain.init source.layout.root source.layout.projectName
  let _ ← job.vendor input source
  job.sayIfVerbose s!"  ✏️  Rewriting imports to {source.layout.importPrefix.str}"
  return source

/-- The shader of a run. -/
def shader (layout : Layout) : Shader := ⟨job.classifier, layout.importPrefix⟩

/-- A line of output leaves the tree alone. -/
theorem tree_of_sayIfVerbose {line : String} {site after : Site} {result : Except SplitError Unit}
    (ran : (job.sayIfVerbose line).on site = (result, after)) : after.tree = site.tree := by
  unfold sayIfVerbose at ran
  split at ran
  · cases ran
    rfl
  · cases ran
    rfl

/-- Until the source is parsed nothing is written. -/
theorem tree_of_readSource {input : Path} {site after : Site} {e : SplitError}
    (failed : (job.readSource input).on site = (.error e, after)) : after.tree = site.tree := by
  rcases SiteM.on_bind_eq_error_iff.1 failed with failed | ⟨read, mid, looked, failed⟩
  · cases failed
  cases looked
  rcases SiteM.on_bind_eq_error_iff.1 failed with failed | ⟨src, mid, lifted, failed⟩
  · rw [← (SiteM.on_lift_eq_iff.1 failed).2]
  obtain ⟨-, rfl⟩ := SiteM.on_lift_eq_iff.1 lifted
  rcases SiteM.on_bind_eq_error_iff.1 failed with failed | ⟨package, mid, lifted, failed⟩
  · rw [← (SiteM.on_lift_eq_iff.1 failed).2]
  obtain ⟨-, rfl⟩ := SiteM.on_lift_eq_iff.1 lifted
  rcases SiteM.on_bind_eq_error_iff.1 failed with failed | ⟨_, mid, say, failed⟩
  · exact job.tree_of_sayIfVerbose failed
  rcases SiteM.on_bind_eq_error_iff.1 failed with failed | ⟨file, mid', lifted, failed⟩
  · rw [← (SiteM.on_lift_eq_iff.1 failed).2]
    exact job.tree_of_sayIfVerbose say
  · exfalso
    rcases SiteM.on_bind_eq_error_iff.1 failed with failed | ⟨_, noted, -, failed⟩
    · cases failed
    rcases SiteM.on_bind_eq_error_iff.1 failed with failed | ⟨_, _, -, failed⟩
    · unfold sayIfVerbose at failed
      split at failed <;> cases failed
    · cases failed

/-- When shading a tree went well, the packages can be checked. -/
theorem exists_missing_of_shade {layout : Layout} {site after : Site} {report : ShadeReport}
    (proper : (job.shader layout).Proper) (walkable : site.tree.Walkable layout.root)
    (plain : Shader.PlainFiles site.tree layout.root)
    (shaded : (job.shade layout.root layout.importPrefix).on site = (.ok report, after)) :
    ∃ missing, (job.missing layout).on after = (.ok missing, after) := by
  obtain ⟨report', after', ran, result⟩ := SiteM.on_bind_eq_ok_iff.1 shaded
  obtain ⟨ok, rfl⟩ := SiteM.on_lift_eq_iff.1 result
  unfold ShadeReport.result at ok
  split at ok
  · next clean =>
    have walks := @Shader.Walks.inOrder (job.shader layout) layout.root site job.config.shadePolicy
    have ran' : ((job.shader layout).shadeTree job.config.shadePolicy layout.root).on site =
        (.ok report', after') := ran
    rw [ran'] at walks
    obtain ⟨missing, checked⟩ := Shader.exists_missingPackages proper walkable plain walks
      (List.isEmpty_iff.1 clean) layout.thirdParty
    refine ⟨missing, ?_⟩
    have here : (job.missing layout).on after' =
        ((job.shader layout).missingPackages after'.tree layout.root layout.thirdParty,
          after') := by
      rw [Job.missing, SiteM.on_bind, SiteM.on_look]
      exact SiteM.on_lift _ _
    rw [here, checked]
  · cases ok

/-- A run that fails and says that nothing was written has left the tree as it was, provided
the files it came to shade can be walked and have import paths that can be quoted. -/
theorem split_keeps_tree {input : Path} {site after : Site} {e : SplitError}
    (owns : job.toolchain.OwnsUp)
    (ready : ∀ source mid, (job.prepare input).on site = (.ok source, mid) →
      (job.shader source.layout).Proper ∧ mid.tree.Walkable source.layout.root ∧
        Shader.PlainFiles mid.tree source.layout.root)
    (failed : (job.split input).on site = (.error e, after))
    (claims : e.leavesPartialOutput = false) : after.tree = site.tree := by
  have refuted : ∀ {α : Type} {action : RunM α} {site after : Site}, OwnsUp action →
      action.on site ≠ (.error e, after) := by
    intro α action site after owns failed
    rw [owns site e after failed] at claims
    cases claims
  rcases SiteM.on_bind_eq_error_iff.1 failed with failed | ⟨source, read, ran₁, failed⟩
  · exact job.tree_of_readSource failed
  exfalso
  rcases SiteM.on_bind_eq_error_iff.1 failed with failed | ⟨buckets, wrote, ran₂, failed⟩
  · exact refuted (job.ownsUp_writeBuckets input source) failed
  rcases SiteM.on_bind_eq_error_iff.1 failed with failed | ⟨_, inited, ran₃, failed⟩
  · exact refuted (owns.init _ _) failed
  rcases SiteM.on_bind_eq_error_iff.1 failed with failed | ⟨relocation, vendored, ran₄, failed⟩
  · exact refuted (job.ownsUp_vendor owns input source) failed
  rcases SiteM.on_bind_eq_error_iff.1 failed with failed | ⟨_, mid, ran₅, failed⟩
  · exact refuted (job.ownsUp_sayIfVerbose _) failed
  rcases SiteM.on_bind_eq_error_iff.1 failed with failed | ⟨report, shaded, ran₆, failed⟩
  · exact refuted (job.ownsUp_shade _ _) failed
  rcases SiteM.on_bind_eq_error_iff.1 failed with failed | ⟨missing, checked, ran₇, failed⟩
  · have prepared : (job.prepare input).on site = (.ok source, mid) :=
      SiteM.on_bind_eq_ok_iff.2 ⟨_, _, ran₁, SiteM.on_bind_eq_ok_iff.2 ⟨_, _, ran₂,
        SiteM.on_bind_eq_ok_iff.2 ⟨_, _, ran₃, SiteM.on_bind_eq_ok_iff.2 ⟨_, _, ran₄,
          SiteM.on_bind_eq_ok_iff.2 ⟨_, _, ran₅, rfl⟩⟩⟩⟩⟩
    obtain ⟨proper, walkable, plain⟩ := ready source mid prepared
    obtain ⟨missing, checked⟩ := job.exists_missing_of_shade proper walkable plain ran₆
    rw [checked] at failed
    cases failed
  rcases SiteM.on_bind_eq_error_iff.1 failed with failed | ⟨untidy, tidied, ran₈, failed⟩
  · exact refuted (job.ownsUp_tidy _) failed
  refine refuted ?_ failed
  exact .bind (job.ownsUp_sayEach _) fun _ => .bind (.of_ok fun _ => ⟨_, _, rfl⟩) fun _ =>
    .bind (job.ownsUp_sayIfVerbose _) fun _ => .pure _

/-- A run with the default settings and a toolchain that vendors nothing. -/
def sample : Job :=
  ⟨Config.default, (⟨none, [], []⟩ : Script).toolchain, .usage .dotted, []⟩

/-- A source that does not parse. -/
def sampleSite : Site :=
  .start { Tree.empty ['/', 'w'] with
    entries := [(["a.go".toList], .file (.ofText "package a\n\nfunc".toList))] } 0

theorem split_keeps_sample :
    ∃ e after, (sample.split ⟨"a.go".toList⟩).on sampleSite = (.error e, after) ∧
      e.leavesPartialOutput = false ∧ after.tree = sampleSite.tree := by
  have unprepared : ((sample.prepare ⟨"a.go".toList⟩).on sampleSite).1.toOption.isNone = true := by
    decide +kernel
  have refused : (match ((sample.split ⟨"a.go".toList⟩).on sampleSite).1 with
      | .error e => !e.leavesPartialOutput
      | .ok _ => false) = true := by
    decide +kernel
  rcases ran : (sample.split ⟨"a.go".toList⟩).on sampleSite with ⟨e | report, after⟩
  · rw [ran] at refused
    have claims : e.leavesPartialOutput = false := by simpa using refused
    refine ⟨e, after, rfl, claims, ?_⟩
    refine sample.split_keeps_tree (Script.ownsUp_toolchain _) (fun source mid prepared => ?_)
      ran claims
    rw [prepared] at unprepared
    cases unprepared
  · rw [ran] at refused
    cases refused

end Job

end GoSplit
