import GoSplit.Proofs.Job.Errors
import GoSplit.Proofs.Script

/-!
Runs that start from different leftovers. Two trees that differ only below the output directory
come to hold the same files there: the buckets are overwritten or removed, the private subtree is
made anew or removed, and shading does to a file what its text says.
-/

namespace GoSplit

/-- Nothing is left below a path, and nothing else has changed but the log. -/
structure Vacated (path : Path) (tree tree' : Tree) : Prop where
  inOrder : tree'.InOrder
  stays : tree.Stays tree'
  spot : ∀ new content, tree.landing path = .ok new →
    tree.find? new ≠ some (.file content) ∧ tree'.find? new ≠ some (.file content)
  gone : ∀ new l, tree.landing path = .ok new → new <+: l → l ≠ new → tree'.find? l = none
  same : ∀ l, (∀ new, tree.landing path = .ok new → ¬ new <+: l) → tree.opened ≠ some l →
    tree'.find? l = tree.find? l

section

variable {path : Path} {tree mid tree' : Tree}

theorem Vacated.of_quiet (quiet : tree.Quiet mid)
    (log : ∀ new, tree.landing path = .ok new → ∀ l, tree.opened = some l → ¬ new <+: l)
    (h : Vacated path mid tree') : Vacated path tree tree' := by
  have stays := quiet.rewritten.stays
  have landing : mid.landing path = tree.landing path := Tree.landing_congr stays.base path
  refine ⟨h.inOrder, stays.trans h.stays, fun new content landed => ?_, fun new l landed => ?_,
    fun l out other => ?_⟩
  · obtain ⟨before, behind⟩ := h.spot new content (landing.trans landed)
    rw [quiet.rewritten.same new fun isOpen => log new landed new isOpen List.prefix_rfl] at before
    exact ⟨before, behind⟩
  · exact h.gone new l (landing.trans landed)
  · rw [h.same l (by rwa [landing]) (by rwa [stays.opened]), quiet.rewritten.same l other]

theorem vacated_of_absent (inOrder : tree.InOrder)
    (absent : ∀ new, tree.landing path = .ok new → tree.find? new = none) :
    Vacated path tree tree := by
  refine ⟨inOrder, ⟨rfl, rfl, rfl, rfl⟩, fun new content landed => ?_, ?_, fun _ _ _ => rfl⟩
  · simp [absent new landed]
  · rintro new l landed ⟨more, rfl⟩ strict
    exact (Relocation.cleared_of_absent inOrder.sound.closed (absent new landed)).gone more
      (by simpa using strict)

theorem vacated_of_removeDirs {site after : Site} {line : String} (inOrder : site.tree.InOrder)
    (outside : ∀ new, site.tree.landing path = .ok new →
      new ≠ [] ∧ ∀ l, site.tree.opened = some l → ¬ new <+: l)
    (ran : (Site.removeDirs path).on (site.noted line) = (.ok (), after)) :
    Vacated path site.tree after.tree := by
  obtain ⟨tree, removing, eq⟩ := Site.on_files_eq_ok_iff.1 ran
  obtain ⟨new, located, directory, kept⟩ := Tree.on_removeDirs_eq_ok removing
  have noted : site.tree.Quiet (site.noted line).tree := .append ..
  have landed : site.tree.landing path = .ok new := by
    rw [← Tree.landing_congr noted.rewritten.base]
    exact (Tree.locate_iff_landing.1 located).1
  obtain ⟨below, log⟩ := outside new landed
  obtain ⟨gone, inOrder'⟩ := Relocation.cleared_of_removeDirs inOrder landed below log ran
  have only : ∀ new', site.tree.landing path = .ok new' → new' = new := by
    intro new' landed'
    rw [landed] at landed'
    cases landed'
    rfl
  refine ⟨inOrder', ⟨gone.base, gone.mounts, gone.refuses, gone.opened⟩,
    fun new' content landed' => ?_, fun new' l landed' => ?_,
    fun l out other => gone.same l (out new landed) other⟩
  · obtain rfl := only new' landed'
    have before := (noted.rewritten.directory _).1 directory
    refine ⟨by simp [before], ?_⟩
    subst eq
    rcases kept with rfl | rfl
    · rw [Tree.find?_clear, if_neg (by simp), directory]
      simp
    · rw [Tree.find?_remove below, if_pos List.prefix_rfl]
      simp
  · obtain rfl := only new' landed'
    rintro ⟨more, rfl⟩ strict
    exact gone.gone more (by simpa using strict)

end

namespace Job

variable (job : Job) {input : Path} {site after : Site}

/-! ### What each step leaves -/

theorem tree_of_sayEach {lines : List String} {result : Except SplitError Unit}
    (ran : (job.sayEach lines).on site = (result, after)) : after.tree = site.tree := by
  induction lines generalizing site result with
  | nil =>
    cases ran
    rfl
  | cons line rest ih =>
    cases result with
    | error e =>
      rcases SiteM.on_bind_eq_error_iff.1 ran with failed | ⟨_, said, saying, ran⟩
      · exact job.tree_of_sayIfVerbose failed
      · rw [ih ran, job.tree_of_sayIfVerbose saying]
    | ok _ =>
      obtain ⟨_, said, saying, ran⟩ := SiteM.on_bind_eq_ok_iff.1 ran
      rw [ih ran, job.tree_of_sayIfVerbose saying]

/-- A source is what the text of the input says. -/
theorem readSource_eq_ok {source : Source}
    (ran : (job.readSource input).on site = (.ok source, after)) :
    ∃ src, site.tree.readText input = .ok src ∧
      SourceFile.parsePackageName input.text src = .ok source.package ∧
      source.layout = job.config.layout source.package ∧
      SourceFile.parse input.text src = .ok source.file ∧ site.tree.Quiet after.tree := by
  obtain ⟨_, _, looking, ran⟩ := SiteM.on_bind_eq_ok_iff.1 ran
  cases looking
  obtain ⟨src, _, reading, ran⟩ := SiteM.on_bind_eq_ok_iff.1 ran
  obtain ⟨read, rfl⟩ := SiteM.on_lift_eq_iff.1 reading
  obtain ⟨package, _, naming, ran⟩ := SiteM.on_bind_eq_ok_iff.1 ran
  obtain ⟨named, rfl⟩ := SiteM.on_lift_eq_iff.1 naming
  obtain ⟨_, said, saying, ran⟩ := SiteM.on_bind_eq_ok_iff.1 ran
  obtain ⟨file, _, parsing, ran⟩ := SiteM.on_bind_eq_ok_iff.1 ran
  obtain ⟨parsed, rfl⟩ := SiteM.on_lift_eq_iff.1 parsing
  obtain ⟨_, noted, noting, ran⟩ := SiteM.on_bind_eq_ok_iff.1 ran
  obtain ⟨_, told, telling, ran⟩ := SiteM.on_bind_eq_ok_iff.1 ran
  cases ran
  have ok : ∀ {ε δ α : Type} {f : ε → δ} {result : Except ε α} {a : α},
      result.mapError f = .ok a → result = .ok a := by
    intro ε δ α f result a eq
    cases result with
    | error e => cases eq
    | ok b => simpa [Except.mapError] using eq
  refine ⟨src, ok read, ok named, rfl, ok parsed, ?_⟩
  have quiet := Tree.Quiet.note noting
  rw [job.tree_of_sayIfVerbose saying] at quiet
  rwa [job.tree_of_sayIfVerbose telling]

/-- The writer of a run. -/
def writer (input : Path) (layout : Layout) : BucketWriter :=
  .forInput job.classifier job.pruner layout.root input

theorem writeBuckets_eq_ok {source : Source} {buckets : List WrittenBucket}
    (ran : (job.writeBuckets input source).on site = (.ok buckets, after)) :
    ∃ wrote,
      ((job.writer input source.layout).writeAll source.file).on site = (.ok buckets, wrote) ∧
      after.tree = wrote.tree := by
  obtain ⟨written, wrote, writing, ran⟩ := SiteM.on_bind_eq_ok_iff.1 ran
  obtain ⟨_, said, saying, ran⟩ := SiteM.on_bind_eq_ok_iff.1 ran
  cases ran
  exact ⟨wrote, writing, job.tree_of_sayEach saying⟩

/-- After shading went well, the Go files are shaded and nothing else has changed but the log. -/
theorem shade_eq_ok {root : Path} {space : Text} {report : ShadeReport} {loc : Location}
    (walkable : site.tree.Walkable root) (landed : site.tree.landing root = .ok loc)
    (ran : (job.shade root space).on site = (.ok report, after)) :
    site.tree.Stays after.tree ∧
    (∀ rel content, site.tree.GoFile root loc rel content →
      after.tree.find? (loc ++ rel) = some (.file
        ((⟨job.classifier, space⟩ : Shader).shadeContent (Tree.pathIn root rel) content))) ∧
    ∀ l, site.tree.opened ≠ some l →
      (∀ rel content, l = loc ++ rel → ¬ site.tree.GoFile root loc rel content) →
        after.tree.find? l = site.tree.find? l := by
  obtain ⟨report', shaded, shading, ran⟩ := SiteM.on_bind_eq_ok_iff.1 ran
  obtain ⟨clean, rfl⟩ := SiteM.on_lift_eq_iff.1 ran
  cases collected : site.tree.filesToShade root with
  | error e =>
    rw [Shader.on_shadeTree_of_error _ collected] at shading
    cases shading
  | ok paths =>
    obtain ⟨after', ran', through⟩ :=
      Shader.on_shadeTree ⟨job.classifier, space⟩ job.config.shadePolicy walkable collected
    rw [ran'] at shading
    cases shading
    unfold ShadeReport.result at clean
    split at clean
    · next empty =>
      obtain ⟨-, all⟩ := Shader.tally_failures_eq_nil_iff.1 (List.isEmpty_iff.1 empty)
      rw [Shader.visited_of_isOk _ all] at through
      obtain ⟨loc', node, found, -⟩ := Tree.filesToShade_eq_ok walkable.sound collected
      obtain ⟨located, -⟩ := Tree.lookup_eq_ok_iff.1 found
      have here := (Tree.locate_iff_landing.1 located).1
      rw [landed] at here
      cases here
      exact ⟨⟨through.base, through.mounts, through.refuses, through.opened⟩,
        through.find?_of_all walkable collected all located⟩
    · cases clean

/-- A private subtree that is not needed is gone, whatever was there. -/
theorem unneeded_eq_ok {source : Source} {relocation : Option RelocationReport} {rel loc : Location}
    (unneeded : job.needsVendoring source = false) (inOrder : site.tree.InOrder)
    (there : site.tree.isDir source.layout.root = true)
    (landed : site.tree.landing source.layout.root = .ok loc) (below : loc ≠ [])
    (log : ∀ l, site.tree.opened = some l → ¬ loc <+: l) (words : ∀ name ∈ rel, Tree.IsWord name)
    (thirdParty : source.layout.thirdParty = Tree.pathIn source.layout.root rel)
    (ran : (job.vendor input source).on site = (.ok relocation, after)) :
    Vacated source.layout.thirdParty site.tree after.tree := by
  rw [vendor, unneeded, if_neg Bool.false_ne_true] at ran
  obtain ⟨_, noted, noting, ran⟩ := SiteM.on_bind_eq_ok_iff.1 ran
  have quiet := Tree.Quiet.note noting
  have inOrder' := quiet.inOrder inOrder
  have landing : ∀ path, noted.tree.landing path = site.tree.landing path :=
    fun path => Tree.landing_congr quiet.rewritten.base path
  obtain ⟨_, _, looking, ran⟩ := SiteM.on_bind_eq_ok_iff.1 ran
  cases looking
  rw [thirdParty] at ran ⊢
  -- The subtree has its place below the output directory, where the log is not.
  have outside : ∀ new, site.tree.landing (Tree.pathIn source.layout.root rel) = .ok new →
      new ≠ [] ∧ ∀ l, site.tree.opened = some l → ¬ new <+: l := by
    intro new landed'
    obtain ⟨rfl, -⟩ := Tree.isName_of_landing_pathIn landed below words landed'
    exact ⟨by
      simp [below], fun l isOpen within => log l isOpen ((List.prefix_append ..).trans within)⟩
  refine Vacated.of_quiet quiet (fun new landed' => (outside new landed').2) ?_
  by_cases present : noted.tree.exists? (Tree.pathIn source.layout.root rel) = true
  · rw [if_pos present] at ran
    obtain ⟨_, told, telling, ran⟩ := SiteM.on_bind_eq_ok_iff.1 ran
    obtain ⟨_, cleared, clearing, ran⟩ := SiteM.on_bind_eq_ok_iff.1 ran
    cases ran
    cases telling
    refine vacated_of_removeDirs inOrder' (fun new landed' => ?_) clearing
    rw [quiet.rewritten.opened]
    exact outside new ((landing _).symm.trans landed')
  · rw [if_neg present] at ran
    obtain ⟨-, rfl⟩ := Prod.mk.inj ran
    refine vacated_of_absent inOrder' fun new landed' => ?_
    cases node : noted.tree.find? new with
    | none => rfl
    | some node' =>
      have located := inOrder'.sound.locate_pathIn (quiet.rewritten.isDir there)
        ((landing _).trans landed) below words landed' node
      exact absurd (Tree.exists?_iff.2 ⟨new, node', located, node⟩) present

end Job

/-! ### Names -/

theorem Path.slash_not_mem_fileName {path : Path} {name : Text}
    (named : path.fileName = some name) :
    '/' ∉ name := by
  unfold fileName at named
  split at named
  · next last found =>
    split at named
    · cases named
    · next other =>
      cases named
      have mem := List.mem_of_getLast? found
      have piece : ∀ t ∈ (Text.pieces '/' path.text).filter fun s => !s.isEmpty && s != ['.'],
          '/' ∉ t :=
        fun t mem => Text.sep_not_mem_pieces '/' path.text t (List.mem_filter.1 mem).1
      simp only [Bool.or_eq_true, decide_eq_true_eq, not_or] at other
      simp only [components] at mem
      split at mem
      · exact piece name ((List.mem_cons.1 mem).resolve_left other.2)
      · split at mem
        · exact piece name ((List.mem_cons.1 mem).resolve_left other.1.2)
        · exact piece name mem
  · cases named

theorem Path.splitExtension_sublist (name : Text) : (splitExtension name).1.Sublist name := by
  have cut := List.dropWhile_suffix (l := name.reverse) (· != '.')
  unfold splitExtension
  split
  · exact List.Sublist.refl name
  · exact List.Sublist.refl name
  · next c stem _ eq =>
    rw [eq] at cut
    have part : stem.Sublist name.reverse := (List.sublist_cons_self c stem).trans cut.sublist
    simpa using part.reverse

theorem Path.splitExtension_go {name : Text} (filled : name ≠ []) :
    splitExtension (name ++ ".go".toList) = (name, some "go".toList) := by
  obtain ⟨init, last, rfl⟩ := List.eq_nil_or_concat name |>.resolve_left filled
  simp [splitExtension]

theorem BucketWriter.slash_not_mem_stem (classifier : Classifier) (pruner : Pruner)
    (output input : Path) : '/' ∉ (forInput classifier pruner output input).stem := by
  change '/' ∉ (input.fileName.map fun name => (Path.splitExtension name).1).getD "split".toList
  cases named : input.fileName with
  | none => decide
  | some name =>
    exact fun mem => Path.slash_not_mem_fileName named
      ((Path.splitExtension_sublist name).subset mem)

/-- The private subtree of a valid configuration is given by names. -/
theorem Config.words_thirdPartyName {config : Config} (valid : config.validate = .ok config) :
    ∀ name ∈ Text.pieces '/' config.thirdPartyName, Tree.IsWord name := by
  have subtree : isValidSubtree config.thirdPartyName = true := by
    unfold validate at valid
    split at valid
    · cases valid
    · split at valid
      · cases valid
      · next fine => simpa using fine
  simp only [isValidSubtree, Bool.and_eq_true, List.all_eq_true, Bool.not_eq_true',
    List.isEmpty_eq_false_iff, bne_iff_ne, ne_eq] at subtree
  intro name mem
  obtain ⟨⟨filled, dot⟩, dots⟩ := subtree.2 name mem
  exact ⟨filled, by simp [Tree.isDots, dot, dots], Text.sep_not_mem_pieces '/' _ name mem⟩

theorem Config.thirdParty_eq (config : Config) (package : Text) :
    (config.layout package).thirdParty =
      Tree.pathIn (config.layout package).root (Text.pieces '/' config.thirdPartyName) := by
  rw [Tree.pathIn, List.isEmpty_eq_false_iff.2 (Text.pieces_ne_nil '/' config.thirdPartyName),
    if_neg Bool.false_ne_true, Location.text, Text.joinWith_pieces]
  rfl

/-- The private subtree of a valid configuration is a proper subdirectory of the output. -/
theorem Config.exists_thirdParty {config : Config} (valid : config.validate = .ok config)
    (package : Text) :
    ∃ rel : Location, rel ≠ [] ∧ (∀ name ∈ rel, Tree.IsWord name) ∧
      (config.layout package).thirdParty = Tree.pathIn (config.layout package).root rel :=
  ⟨_, Text.pieces_ne_nil '/' config.thirdPartyName, words_thirdPartyName valid,
    config.thirdParty_eq package⟩

/-- A path that leads below the root of the tree starts there. -/
theorem Tree.inside_of_landing {tree : Tree} {path : Path} {loc : Location}
    (landed : tree.landing path = .ok loc) (below : loc ≠ []) : tree.Inside path := by
  intro absolute
  obtain ⟨names, named, land⟩ := landing_eq_ok_iff.1 landed
  have found := (namesOf_eq_ok_iff.1 named).2
  rw [names?, if_neg (by simp [text_ne_nil_of_landing landed]), if_pos absolute] at found
  have start : ∀ {rest}, tree.base.isPrefixOf? path.text = some rest →
      path.text = tree.base ++ rest :=
    fun eq => (List.isPrefixOf?_eq_some_iff_append_eq.1 eq).symm
  split at found
  · next eq => exact ⟨[], start eq, .inl rfl⟩
  · next rest eq => exact ⟨_, start eq, .inr rfl⟩
  · split at found
    · cases found
      cases land
      exact absurd rfl below
    · cases found

theorem BucketWriter.isGo_fileName (writer : BucketWriter) (bucket : Bucket) (loc : Location) :
    Location.IsGo (loc ++ [writer.fileName bucket]) := by
  have suffix : bucket.suffix ≠ [] := by cases bucket <;> decide
  have filled : writer.stem ++ bucket.suffix ≠ [] := List.append_ne_nil_of_right_ne_nil _ suffix
  have ending : writer.fileName bucket = writer.stem ++ bucket.suffix ++ ".go".toList := rfl
  exact ⟨writer.fileName bucket, by simp, by rw [ending, Path.splitExtension_go filled]⟩

theorem BucketWriter.Filled.congr {writer : BucketWriter} {file : SourceFile} {tree tree' : Tree}
    {bucket : Bucket} {loc : Location} (h : writer.Filled file tree bucket loc)
    (same : ∀ content, tree'.find? loc = some (.file content) ↔
      tree.find? loc = some (.file content)) :
    writer.Filled file tree' bucket loc := by
  unfold Filled at h ⊢
  split at h
  · next empty =>
    rw [if_pos empty]
    exact fun content found => h content ((same content).1 found)
  · next filled =>
    obtain ⟨text, gives, found⟩ := h
    rw [if_neg filled]
    exact ⟨text, gives, (same _).2 found⟩

/-! ### Two runs -/

/-- Two trees that differ only below a directory, where the log is not. -/
structure Tree.DifferBelow (root : Path) (tree tree' : Tree) : Prop where
  stays : tree.Stays tree'
  inOrder : tree.InOrder
  inOrder' : tree'.InOrder
  same : ∀ loc l, tree.landing root = .ok loc → ¬ loc <+: l → tree'.find? l = tree.find? l
  log : ∀ loc l, tree.landing root = .ok loc → tree.opened = some l → ¬ loc <+: l

namespace Job

variable (job : Job) {input : Path} {site site' after after' : Site} {source : Source}

/-- The steps of a run in front of the request for dependencies. -/
def begin (input : Path) : RunM Source := do
  let source ← job.readSource input
  let _ ← job.writeBuckets input source
  job.toolchain.init source.layout.root source.layout.projectName
  return source

/-- The buckets are in place once the module has its name. -/
theorem begin_eq_ok {loc : Location} (steady : job.pruner.Steady)
    (spares : job.toolchain.SparesSources source.layout) (inOrder : site.tree.InOrder)
    (landed : site.tree.landing source.layout.root = .ok loc) (below : loc ≠ [])
    (log : ∀ l, site.tree.opened = some l → ¬ loc <+: l)
    (ran : (job.begin input).on site = (.ok source, after)) :
    site.tree.Stays after.tree ∧ after.tree.InOrder ∧
      after.tree.isDir source.layout.root = true ∧
      ∀ bucket l, site.tree.landing ((job.writer input source.layout).path bucket) = .ok l →
        (job.writer input source.layout).Filled source.file after.tree bucket l := by
  obtain ⟨source', read, reading, ran⟩ := SiteM.on_bind_eq_ok_iff.1 ran
  obtain ⟨buckets, wrote, writing, ran⟩ := SiteM.on_bind_eq_ok_iff.1 ran
  obtain ⟨_, named, naming, ran⟩ := SiteM.on_bind_eq_ok_iff.1 ran
  cases ran
  obtain ⟨src, -, -, -, -, quiet⟩ := job.readSource_eq_ok reading
  obtain ⟨wrote', writes, same⟩ := job.writeBuckets_eq_ok writing
  have places : (job.writer input source.layout).Places read.tree loc := by
    refine ⟨BucketWriter.slash_not_mem_stem _ _ _ _, ?_, below, ?_⟩
    · rwa [Tree.landing_congr quiet.rewritten.base]
    · rwa [quiet.rewritten.opened]
  obtain ⟨stays, inOrder', there, filled⟩ :=
    BucketWriter.writeAll_eq_ok steady places (quiet.inOrder inOrder) writes
  have spared := spares.init _ _ _ naming
  rw [same] at spared
  refine ⟨(quiet.rewritten.stays.trans stays).trans spared.stays, spared.inOrder inOrder',
    Tree.isDir_of_directories spared.stays.base (fun l => spared.directory l id) there,
    fun bucket l landed' => ?_⟩
  rw [← Tree.landing_congr quiet.rewritten.base] at landed'
  refine (filled bucket l landed').congr fun content => spared.source l content id ?_ ?_
  · rw [(places.landing_path landed').1]
    exact BucketWriter.isGo_fileName ..
  · rw [stays.opened]
    exact places.not_log landed'

end Job

section

variable {toolchain : Toolchain} {suffix : Text} {workDir thirdParty : Path} {site after : Site}
  {report : RelocationReport}

/-- Where vendoring succeeds, the private subtree has a place. -/
theorem exists_landing_of_vendorDependencies (inOrder : site.tree.InOrder)
    (keeps : toolchain.KeepsToWorkspace workDir) (visible : thirdParty.text ≠ [])
    (ran : (vendorDependencies toolchain suffix workDir thirdParty).on site = (.ok report, after)) :
    ∃ new, site.tree.landing thirdParty = .ok new := by
  obtain ⟨workspace, copied, manifest, line, dropped, made, moved, stocking, -, dropping,
    makes, -, -⟩ :=
    vendorDependencies_eq_ok ran
  obtain ⟨-, work, stocked⟩ := Workspace.exists_stocked inOrder keeps stocking
  have noted : copied.tree.Quiet (copied.noted line).tree := .append ..
  have base := (stocked.stays.trans noted.rewritten.stays).base
  rw [Relocation.dropOld, SiteM.on_bind_of_ok (SiteM.on_look _ _)] at dropping
  split at dropping
  · rw [SiteM.on_bind_of_ok (Site.on_note _ _)] at dropping
    obtain ⟨tree, removing, rfl⟩ := Site.on_files_eq_ok_iff.1 dropping
    obtain ⟨new, located, -, -⟩ := Tree.on_removeDirs_eq_ok removing
    have told : (copied.noted line).tree.Quiet
      ((copied.noted line).noted s!"replacing stale {thirdParty.str}").tree := .append ..
    refine ⟨new, ?_⟩
    rw [← Tree.landing_congr base, ← Tree.landing_congr told.rewritten.base]
    exact (Tree.locate_iff_landing.1 located).1
  · cases dropping
    obtain ⟨new, landed, -, -⟩ := Tree.makeDirs_eq_ok makes visible
    exact ⟨new, (Tree.landing_congr base _).symm.trans landed⟩

end

/-- A view that takes in the private subtree, wherever it has its place. -/
def Tree.Counterparts.viewSubtree {root : Path} {loc rel : Location} {places : Location → Prop}
    {tree tree' : Tree} (h : tree.Counterparts root loc places tree')
    (words : ∀ name ∈ rel, IsWord name) : View :=
  h.view (fun l => ∃ new, tree.landing (pathIn root rel) = .ok new ∧ new <+: l ∧ l ≠ new)
    fun _ isOpen ⟨_, landed, within, _⟩ => h.not_log words landed isOpen (.inr within)

namespace Job

variable (job : Job) {input : Path} {site site' after after' : Site} {source : Source}

/-- A private subtree that is not needed is gone in both trees. -/
theorem same_of_vacated {rel loc : Location} {places : Location → Prop} {root : Path}
    (h : site.tree.Counterparts root loc places site'.tree) (words : ∀ name ∈ rel, Tree.IsWord name)
    (vacated : Vacated (Tree.pathIn root rel) site.tree after.tree)
    (vacated' : Vacated (Tree.pathIn root rel) site'.tree after'.tree) :
    (h.viewSubtree words).Same after.tree after'.tree := by
  have landing : site'.tree.landing (Tree.pathIn root rel) =
      site.tree.landing (Tree.pathIn root rel) :=
    Tree.landing_congr h.stays.base _
  refine ⟨vacated.stays.base, vacated'.stays.base.trans h.stays.base,
    by rw [vacated'.stays.mounts, h.stays.mounts, vacated.stays.mounts],
    by rw [vacated'.stays.refuses, h.stays.refuses, vacated.stays.refuses], vacated.inOrder.sound,
    vacated'.inOrder.sound, ?_, fun l content place => ?_, fun l isOpen => ?_, fun l isOpen => ?_⟩
  · rintro l ⟨new, landed, within, strict⟩
    rw [vacated.gone new l landed within strict,
      vacated'.gone new l (landing.trans landed) within strict]
  · by_cases inside : ∃ new, site.tree.landing (Tree.pathIn root rel) = .ok new ∧ new <+: l
    · obtain ⟨new, landed, within⟩ := inside
      have landed' := landing.trans landed
      by_cases here : l = new
      · subst here
        exact iff_of_false (vacated'.spot l content landed').2 (vacated.spot l content landed).2
      · rw [vacated.gone new l landed within here, vacated'.gone new l landed' within here]
    · have log : site.tree.opened ≠ some l := fun isOpen => h.log l isOpen (h.source l place).1
      have out : ∀ new, site.tree.landing (Tree.pathIn root rel) = .ok new → ¬ new <+: l :=
        fun new landed within => inside ⟨new, landed, within⟩
      rw [vacated.same l out log, vacated'.same l (by rwa [landing]) (by rwa [h.stays.opened]),
        h.file l content place]
  · rw [vacated.stays.opened] at isOpen
    exact isOpen
  · rw [vacated'.stays.opened, h.stays.opened] at isOpen
    exact isOpen

/-- The steps of a run up to the point where the dependencies are in the workspace. -/
def stock (input : Path) : RunM Workspace := do
  let source ← job.begin input
  job.sayIfVerbose s!"  📥 Vendoring dependencies into {source.layout.thirdParty.str}"
  Workspace.stock job.toolchain job.config.workDir job.suffix

/-- Asked for dependencies in two runs, the toolchain puts the same into the workspace. -/
def SameDependencies (input : Path) (site site' : Site) : Prop :=
  ∀ workspace workspace' copied copied', (job.stock input).on site = (.ok workspace, copied) →
    (job.stock input).on site' = (.ok workspace', copied') →
    ∀ work l, site.tree.landing workspace.dir = .ok work → work <+: l →
      copied'.tree.find? l = copied.tree.find? l

/-- After vendoring, or without the need for it, the private subtrees are the same. -/
theorem same_of_vendor {rel loc : Location} {places : Location → Prop} {start start' : Site}
    {relocation relocation' : Option RelocationReport}
    (h : site.tree.Counterparts source.layout.root loc places site'.tree)
    (keeps : job.toolchain.KeepsToWorkspace job.config.workDir) (nonempty : rel ≠ [])
    (words : ∀ name ∈ rel, Tree.IsWord name)
    (thirdParty : source.layout.thirdParty = Tree.pathIn source.layout.root rel)
    (began : (job.begin input).on start = (.ok source, site))
    (began' : (job.begin input).on start' = (.ok source, site'))
    (base : site.tree.base = start.tree.base)
    (dependencies : job.SameDependencies input start start')
    (ran : (job.vendor input source).on site = (.ok relocation, after))
    (ran' : (job.vendor input source).on site' = (.ok relocation', after')) :
    (h.viewSubtree words).Same after.tree after'.tree := by
  cases need : job.needsVendoring source with
  | false =>
    have landed' : site'.tree.landing source.layout.root = .ok loc := by
      rw [Tree.landing_congr h.stays.base, h.landed]
    have log' : ∀ l, site'.tree.opened = some l → ¬ loc <+: l := by
      rw [h.stays.opened]
      exact h.log
    have vacated := job.unneeded_eq_ok need h.inOrder h.there h.landed h.below h.log words
      thirdParty ran
    have vacated' := job.unneeded_eq_ok need h.inOrder' h.there' landed' h.below log' words
      thirdParty ran'
    rw [thirdParty] at vacated vacated'
    exact same_of_vacated h words vacated vacated'
  | true =>
    rw [vendor, need, if_pos rfl] at ran ran'
    obtain ⟨_, said, saying, ran⟩ := SiteM.on_bind_eq_ok_iff.1 ran
    obtain ⟨_, said', saying', ran'⟩ := SiteM.on_bind_eq_ok_iff.1 ran'
    obtain ⟨report, vendored, vendoring, ran⟩ := SiteM.on_bind_eq_ok_iff.1 ran
    obtain ⟨report', vendored', vendoring', ran'⟩ := SiteM.on_bind_eq_ok_iff.1 ran'
    cases ran
    cases ran'
    have tree := job.tree_of_sayIfVerbose saying
    have tree' := job.tree_of_sayIfVerbose saying'
    have again : said.tree.Counterparts source.layout.root loc places said'.tree := by
      rw [tree, tree']
      exact h
    rw [thirdParty] at vendoring vendoring'
    have visible : (Tree.pathIn source.layout.root rel).text ≠ [] := by
      obtain ⟨more, text, -⟩ := @Tree.pathIn_text source.layout.root rel nonempty words
      rw [text]
      exact List.append_ne_nil_of_left_ne_nil (Tree.text_ne_nil_of_landing h.landed) more
    obtain ⟨new, landed⟩ := exists_landing_of_vendorDependencies again.inOrder keeps visible
      vendoring
    have same := same_of_vendorDependencies again keeps nonempty words landed ?_ vendoring
      vendoring'
    · refine same.mono (congrArg Tree.base tree.symm) ?_ (fun l => id) fun l isOpen => ?_
      · rintro l ⟨new', landed', within, strict⟩
        rw [← tree, landed] at landed'
        cases landed'
        exact ⟨within, strict⟩
      · have isOpen' : said.tree.opened = some l := isOpen
        rwa [tree] at isOpen'
    · intro workspace workspace' copied copied' stocking stocking' work landedW l within
      rw [Tree.landing_congr (congrArg Tree.base tree), Tree.landing_congr base] at landedW
      exact dependencies workspace workspace' copied copied'
        (SiteM.on_bind_eq_ok_iff.2 ⟨_, _, began,
          SiteM.on_bind_eq_ok_iff.2 ⟨_, _, saying, stocking⟩⟩)
        (SiteM.on_bind_eq_ok_iff.2 ⟨_, _, began',
          SiteM.on_bind_eq_ok_iff.2 ⟨_, _, saying', stocking'⟩⟩)
        work l landedW within

/-- The bytes of a file below the output directory after shading. -/
def shadedTo (layout : Layout) (rel : Location) (content : Content) : Content :=
  if (Tree.pathIn layout.root rel).isGoFile then
    (job.shader layout).shadeContent (Tree.pathIn layout.root rel) content
  else content

/-- What shading leaves in a file depends on the file alone. -/
theorem file_of_shade {layout : Layout} {loc rel : Location} {report : ShadeReport}
    (walkable : site.tree.Walkable layout.root) (landed : site.tree.landing layout.root = .ok loc)
    (log : site.tree.opened ≠ some (loc ++ rel))
    (ran : (job.shade layout.root layout.importPrefix).on site = (.ok report, after))
    (content : Content) :
    after.tree.find? (loc ++ rel) = some (.file content) ↔
      ∃ old, site.tree.find? (loc ++ rel) = some (.file old) ∧
        job.shadedTo layout rel old = content := by
  obtain ⟨-, shaded, same⟩ := job.shade_eq_ok walkable landed ran
  by_cases file : ∃ old, site.tree.GoFile layout.root loc rel old
  · obtain ⟨old, goFile⟩ := file
    rw [shaded rel old goFile, goFile.found]
    simp only [Option.some.injEq, Node.file.injEq, exists_eq_left', shadedTo, goFile.isGo, if_true]
    rfl
  · rw [same _ log]
    · constructor
      · intro found
        refine ⟨content, found, if_neg fun isGo => file ⟨content, found, isGo⟩⟩
      · rintro ⟨old, found, rfl⟩
        rw [shadedTo, if_neg fun isGo => file ⟨old, found, isGo⟩, found]
    · intro rel' old eq goFile
      rw [List.append_cancel_left eq] at file
      exact file ⟨old, goFile⟩

/-- What the last steps of a run leave in a file that tidying spares. -/
theorem file_of_finish {layout : Layout} {loc rel : Location} {report : ShadeReport}
    {told shaded : Site} (spares : job.toolchain.SparesSources layout)
    (walkable : told.tree.Walkable layout.root) (landed : told.tree.landing layout.root = .ok loc)
    (log : told.tree.opened ≠ some (loc ++ rel)) (spared : Location.IsGo (loc ++ rel) ∨
      ∃ new, told.tree.landing layout.thirdParty = .ok new ∧ new <+: loc ++ rel)
    (shades : (job.shade layout.root layout.importPrefix).on told = (.ok report, shaded))
    (finished : after.tree = shaded.tree ∨ ∃ tidied result,
      (job.toolchain.tidy layout.root).on shaded = (result, tidied) ∧ after.tree = tidied.tree)
    (content : Content) :
    after.tree.find? (loc ++ rel) = some (.file content) ↔
      ∃ old, told.tree.find? (loc ++ rel) = some (.file old) ∧
        job.shadedTo layout rel old = content := by
  rw [← job.file_of_shade walkable landed log shades content]
  rcases finished with same | ⟨tidied, result, tidying, same⟩
  · rw [same]
  · obtain ⟨stays, -⟩ := job.shade_eq_ok walkable landed shades
    rw [← stays.opened] at log
    rw [← Tree.landing_congr stays.base] at spared
    rw [same, spares.tidy _ _ _ tidying _ content spared log]

/-- Where two trees look the same before the last steps of a run, they hold the same files in the
end. -/
theorem same_of_finish {layout : Layout} {loc rel : Location} {places : Location → Prop}
    {told told' shaded shaded' : Site} {report report' : ShadeReport}
    (spares : job.toolchain.SparesSources layout)
    (h : site.tree.Counterparts layout.root loc places site'.tree)
    (words : ∀ name ∈ rel, Tree.IsWord name)
    (thirdParty : layout.thirdParty = Tree.pathIn layout.root rel)
    (same : (h.viewSubtree words).Same told.tree told'.tree)
    (shades : (job.shade layout.root layout.importPrefix).on told = (.ok report, shaded))
    (shades' : (job.shade layout.root layout.importPrefix).on told' = (.ok report', shaded'))
    (finished : after.tree = shaded.tree ∨ ∃ tidied result,
      (job.toolchain.tidy layout.root).on shaded = (result, tidied) ∧ after.tree = tidied.tree)
    (finished' : after'.tree = shaded'.tree ∨ ∃ tidied result,
      (job.toolchain.tidy layout.root).on shaded' = (result, tidied) ∧ after'.tree = tidied.tree)
    (l : Location) (content : Content)
    (seen : places l ∨ ∃ new, site.tree.landing (Tree.pathIn layout.root rel) = .ok new ∧
      new <+: l ∧ l ≠ new) :
    after'.tree.find? l = some (.file content) ↔ after.tree.find? l = some (.file content) := by
  have log : ∀ {tree : Tree}, (∀ l, tree.opened = some l → (h.viewSubtree words).logs l) →
      ∀ l, tree.opened = some l → ¬ loc <+: l := fun logs l isOpen => h.log l (logs l isOpen)
  have walkable : ∀ {tree : Tree}, tree.Sound → tree.base = site.tree.base →
      (∀ l, tree.opened = some l → (h.viewSubtree words).logs l) → tree.Walkable layout.root := by
    intro tree sound base logs
    have landed : tree.landing layout.root = .ok loc := by rw [Tree.landing_congr base, h.landed]
    refine ⟨sound, Tree.inside_of_landing landed h.below, fun loc' rel' located isOpen => ?_⟩
    have landed' := (Tree.locate_iff_landing.1 located).1
    rw [landed] at landed'
    cases landed'
    exact absurd (List.prefix_append ..) (log logs _ isOpen)
  have inside : loc <+: l := by
    rcases seen with place | ⟨new, landed, within, -⟩
    · exact (h.source l place).1
    · obtain ⟨rfl, -⟩ := Tree.isName_of_landing_pathIn h.landed h.below words landed
      exact (List.prefix_append ..).trans within
  have spared : ∀ {tree : Tree}, tree.base = site.tree.base → Location.IsGo l ∨
      ∃ new, tree.landing layout.thirdParty = .ok new ∧ new <+: l := by
    intro tree base
    rw [thirdParty, Tree.landing_congr base]
    exact seen.imp (fun place => (h.source l place).2)
      fun ⟨new, landed, within, _⟩ => ⟨new, landed, within⟩
  have before : ∀ old, told'.tree.find? l = some (.file old) ↔
      told.tree.find? l = some (.file old) := by
    intro old
    rcases seen with place | below
    · exact same.file l old place
    · rw [same.find l below]
  obtain ⟨more, rfl⟩ := inside
  rw [job.file_of_finish spares (walkable same.sound' same.base' same.log')
      (by rw [Tree.landing_congr same.base', ← h.landed])
      (fun isOpen => log same.log' _ isOpen (List.prefix_append ..)) (spared same.base') shades'
      finished',
    job.file_of_finish spares (walkable same.sound same.base same.log)
      (by rw [Tree.landing_congr same.base, ← h.landed])
      (fun isOpen => log same.log _ isOpen (List.prefix_append ..)) (spared same.base) shades
        finished]
  simp only [before]

/-! ### Whole runs -/

theorem readSource_of_begin (ran : (job.begin input).on site = (.ok source, after)) :
    ∃ read, (job.readSource input).on site = (.ok source, read) := by
  obtain ⟨_, read, reading, ran⟩ := SiteM.on_bind_eq_ok_iff.1 ran
  obtain ⟨_, _, -, ran⟩ := SiteM.on_bind_eq_ok_iff.1 ran
  obtain ⟨_, _, -, ran⟩ := SiteM.on_bind_eq_ok_iff.1 ran
  cases ran
  exact ⟨read, reading⟩

/-- The steps of a run, when all went well. -/
theorem split_eq_ok {report : SplitReport} (ran : (job.split input).on site = (.ok report, after)) :
    ∃ source began relocation vendored told shading shaded,
      (job.begin input).on site = (.ok source, began) ∧ report.layout = source.layout ∧
      (job.vendor input source).on began = (.ok relocation, vendored) ∧ told.tree = vendored.tree ∧
      (job.shade source.layout.root source.layout.importPrefix).on told = (.ok shading, shaded) ∧
      (after.tree = shaded.tree ∨ ∃ tidied result,
        (job.toolchain.tidy source.layout.root).on shaded = (result, tidied) ∧
          after.tree = tidied.tree) := by
  obtain ⟨source, read, reading, ran⟩ := SiteM.on_bind_eq_ok_iff.1 ran
  obtain ⟨buckets, wrote, writing, ran⟩ := SiteM.on_bind_eq_ok_iff.1 ran
  obtain ⟨_, began, naming, ran⟩ := SiteM.on_bind_eq_ok_iff.1 ran
  obtain ⟨relocation, vendored, vendoring, ran⟩ := SiteM.on_bind_eq_ok_iff.1 ran
  obtain ⟨_, told, telling, ran⟩ := SiteM.on_bind_eq_ok_iff.1 ran
  obtain ⟨shading, shaded, shades, ran⟩ := SiteM.on_bind_eq_ok_iff.1 ran
  obtain ⟨missing, checked, checking, ran⟩ := SiteM.on_bind_eq_ok_iff.1 ran
  obtain ⟨untidy, tidied, tidying, ran⟩ := SiteM.on_bind_eq_ok_iff.1 ran
  obtain ⟨_, warned, warning, ran⟩ := SiteM.on_bind_eq_ok_iff.1 ran
  obtain ⟨_, _, timing, ran⟩ := SiteM.on_bind_eq_ok_iff.1 ran
  cases timing
  obtain ⟨_, done, telling', ran⟩ := SiteM.on_bind_eq_ok_iff.1 ran
  cases ran
  obtain ⟨_, _, looking, lifting⟩ := SiteM.on_bind_eq_ok_iff.1 checking
  cases looking
  obtain ⟨-, rfl⟩ := SiteM.on_lift_eq_iff.1 lifting
  have finished : after.tree = tidied.tree := by
    rw [job.tree_of_sayIfVerbose telling', job.tree_of_sayEach warning]
  have start : (job.begin input).on site = (.ok source, began) :=
    SiteM.on_bind_eq_ok_iff.2 ⟨_, _, reading, SiteM.on_bind_eq_ok_iff.2 ⟨_, _, writing,
      SiteM.on_bind_eq_ok_iff.2 ⟨_, _, naming, rfl⟩⟩⟩
  refine ⟨source, began, relocation, vendored, told, shading, shaded, start, rfl, vendoring,
    job.tree_of_sayIfVerbose telling, shades, ?_⟩
  unfold tidy at tidying
  split at tidying
  · cases tidying
    exact .inl finished
  · obtain ⟨result, attempted, attempting, tidying⟩ := SiteM.on_bind_eq_ok_iff.1 tidying
    rw [SiteM.on_attempt, Prod.mk.injEq] at attempting
    refine .inr ⟨attempted, _, Prod.ext rfl attempting.2, ?_⟩
    rw [finished]
    split at tidying
    · cases tidying
      rfl
    · cases tidying
      rfl

/-- A run that shades its output directory has a place for it. -/
theorem exists_landing_of_begin {told shaded began : Site} {report : ShadeReport}
    (began_ok : (job.begin input).on site = (.ok source, began))
    (shades : (job.shade source.layout.root source.layout.importPrefix).on told =
      (.ok report, shaded)) :
    ∃ loc, site.tree.landing source.layout.root = .ok loc := by
  have visible : source.layout.root.text ≠ [] := by
    obtain ⟨report', _, shading, -⟩ := SiteM.on_bind_eq_ok_iff.1 shades
    cases collected : told.tree.filesToShade source.layout.root with
    | error e =>
      rw [Shader.on_shadeTree_of_error _ collected] at shading
      cases shading
    | ok paths =>
      obtain ⟨files, walked, -⟩ := Tree.filesToShade_eq_ok_iff.1 collected
      obtain ⟨loc, node, found, -, -⟩ := Tree.walk_eq_ok_iff.1 walked
      obtain ⟨located, -⟩ := Tree.lookup_eq_ok_iff.1 found
      exact Tree.text_ne_nil_of_landing (Tree.locate_iff_landing.1 located).1
  obtain ⟨source', read, reading, ran⟩ := SiteM.on_bind_eq_ok_iff.1 began_ok
  obtain ⟨buckets, wrote, writing, ran⟩ := SiteM.on_bind_eq_ok_iff.1 ran
  obtain ⟨_, named, naming, ran⟩ := SiteM.on_bind_eq_ok_iff.1 ran
  cases ran
  obtain ⟨src, -, -, -, -, quiet⟩ := job.readSource_eq_ok reading
  obtain ⟨wrote', writes, -⟩ := job.writeBuckets_eq_ok writing
  obtain ⟨_, _, making, -⟩ := SiteM.on_bind_eq_ok_iff.1 writes
  obtain ⟨made, makes, -⟩ := Site.on_files_eq_ok_iff.1 making
  obtain ⟨loc, landed, -, -⟩ := Tree.makeDirs_eq_ok makes visible
  exact ⟨loc, (Tree.landing_congr quiet.rewritten.base _).symm.trans landed⟩

/-- Two runs that read the same input have the same source. -/
theorem source_eq {source' : Source} {began began' : Site}
    (ran : (job.begin input).on site = (.ok source, began))
    (ran' : (job.begin input).on site' = (.ok source', began'))
    (same : ∀ l, site.tree.landing input = .ok l → site'.tree.find? l = site.tree.find? l)
    (base : site'.tree.base = site.tree.base) : source' = source := by
  obtain ⟨read, reading⟩ := job.readSource_of_begin ran
  obtain ⟨read', reading'⟩ := job.readSource_of_begin ran'
  obtain ⟨src, text, package, layout, file, -⟩ := job.readSource_eq_ok reading
  obtain ⟨src', text', package', layout', file', -⟩ := job.readSource_eq_ok reading'
  obtain ⟨l, content, located, found, decoded⟩ := Shader.readText_eq_ok_iff.1 text
  obtain ⟨l', content', located', found', decoded'⟩ := Shader.readText_eq_ok_iff.1 text'
  have landed := (Tree.locate_iff_landing.1 located).1
  have landed' := (Tree.locate_iff_landing.1 located').1
  rw [Tree.landing_congr base, landed] at landed'
  cases landed'
  rw [same l landed, found] at found'
  cases found'
  rw [decoded] at decoded'
  cases decoded'
  obtain ⟨name, plan, parsed⟩ := source
  obtain ⟨name', plan', parsed'⟩ := source'
  simp only at package package' layout layout' file file'
  rw [package] at package'
  rw [file] at file'
  cases package'
  cases file'
  rw [layout, layout']

/-- The input of a run that has begun has its place. -/
theorem exists_landing_of_input {began : Site}
    (ran : (job.begin input).on site = (.ok source, began)) :
    ∃ l, site.tree.landing input = .ok l := by
  obtain ⟨read, reading⟩ := job.readSource_of_begin ran
  obtain ⟨src, text, -⟩ := job.readSource_eq_ok reading
  obtain ⟨l, content, located, -⟩ := Shader.readText_eq_ok_iff.1 text
  exact ⟨l, (Tree.locate_iff_landing.1 located).1⟩

/-- The private subtree of a run. -/
theorem exists_thirdParty {began : Site} (valid : job.config.validate = .ok job.config)
    (ran : (job.begin input).on site = (.ok source, began)) :
    ∃ rel : Location, rel ≠ [] ∧ (∀ name ∈ rel, Tree.IsWord name) ∧
      source.layout.thirdParty = Tree.pathIn source.layout.root rel := by
  obtain ⟨read, reading⟩ := job.readSource_of_begin ran
  obtain ⟨src, -, -, layout, -⟩ := job.readSource_eq_ok reading
  rw [layout]
  exact Config.exists_thirdParty valid source.package

/-- Where the files of the buckets go. -/
def IsBucketPlace (input : Path) (layout : Layout) (tree : Tree) (l : Location) : Prop :=
  ∃ bucket, tree.landing ((job.writer input layout).path bucket) = .ok l

/-- Once the buckets are written, the trees differ only in what the run does not use. -/
theorem counterparts_of_begin {loc : Location} {began began' : Site} (steady : job.pruner.Steady)
    (spares : job.toolchain.SparesSources source.layout)
    (differ : site.tree.DifferBelow source.layout.root site'.tree)
    (landed : site.tree.landing source.layout.root = .ok loc) (below : loc ≠ [])
    (ran : (job.begin input).on site = (.ok source, began))
    (ran' : (job.begin input).on site' = (.ok source, began')) :
    began.tree.Counterparts source.layout.root loc (job.IsBucketPlace input source.layout site.tree)
      began'.tree := by
  have log := fun l => differ.log loc l landed
  have landing : ∀ path, site'.tree.landing path = site.tree.landing path :=
    fun path => Tree.landing_congr differ.stays.base path
  obtain ⟨stays, inOrder, there, filled⟩ :=
    job.begin_eq_ok steady spares differ.inOrder landed below log ran
  obtain ⟨stays', inOrder', there', filled'⟩ := job.begin_eq_ok steady spares differ.inOrder'
    ((landing _).trans landed) below (by rw [differ.stays.opened]; exact log) ran'
  have across := differ.stays.trans stays'
  have places : (job.writer input source.layout).Places site.tree loc :=
    ⟨BucketWriter.slash_not_mem_stem _ _ _ _, landed, below, log⟩
  refine ⟨⟨across.base.trans stays.base.symm, across.mounts.trans stays.mounts.symm,
    across.refuses.trans stays.refuses.symm, across.opened.trans stays.opened.symm⟩, inOrder,
    inOrder', ?_, below, there, there', ?_, ?_, ?_⟩
  · rw [Tree.landing_congr stays.base, landed]
  · rw [stays.opened]
    exact log
  · rintro l ⟨bucket, landed'⟩
    rw [(places.landing_path landed').1]
    exact ⟨List.prefix_append .., BucketWriter.isGo_fileName ..⟩
  · rintro l content ⟨bucket, landed'⟩
    exact (filled bucket l landed').file_iff steady
      (filled' bucket l ((landing _).trans landed')) content

theorem exists_sayIfVerbose (line : String) (site : Site) :
    ∃ told, (job.sayIfVerbose line).on site = (.ok (), told) := by
  unfold sayIfVerbose
  split
  · exact ⟨_, rfl⟩
  · exact ⟨_, rfl⟩

theorem exists_sayEach (lines : List String) (site : Site) :
    ∃ told, (job.sayEach lines).on site = (.ok (), told) := by
  induction lines generalizing site with
  | nil => exact ⟨_, rfl⟩
  | cons line rest ih =>
    obtain ⟨mid, first⟩ := job.exists_sayIfVerbose line site
    obtain ⟨told, others⟩ := ih mid
    exact ⟨told, SiteM.on_bind_eq_ok_iff.2 ⟨_, _, first, others⟩⟩

theorem exists_tidy (root : Path) (site : Site) :
    ∃ warnings tidied, (job.tidy root).on site = (.ok warnings, tidied) := by
  unfold tidy
  split
  · exact ⟨_, _, rfl⟩
  · rw [SiteM.on_bind_of_ok (SiteM.on_attempt _ site)]
    split
    · exact ⟨_, _, rfl⟩
    · exact ⟨_, _, rfl⟩

/-- Once the dependencies are in place, a run succeeds if every file can be shaded. -/
theorem exists_split_of_prepare {mid : Site} {paths : List Path}
    (prepared : (job.prepare input).on site = (.ok source, mid))
    (proper : (job.shader source.layout).Proper) (walkable : mid.tree.Walkable source.layout.root)
    (plain : Shader.PlainFiles mid.tree source.layout.root)
    (collected : mid.tree.filesToShade source.layout.root = .ok paths)
    (fine : ∀ path ∈ paths, ((job.shader source.layout).outcome mid.tree path).isOk = true) :
    ∃ report after, (job.split input).on site = (.ok report, after) := by
  obtain ⟨_, read, reading, ran⟩ := SiteM.on_bind_eq_ok_iff.1 prepared
  obtain ⟨buckets, wrote, writing, ran⟩ := SiteM.on_bind_eq_ok_iff.1 ran
  obtain ⟨_, named, naming, ran⟩ := SiteM.on_bind_eq_ok_iff.1 ran
  obtain ⟨relocation, vendored, vendoring, ran⟩ := SiteM.on_bind_eq_ok_iff.1 ran
  obtain ⟨_, told, telling, ran⟩ := SiteM.on_bind_eq_ok_iff.1 ran
  cases ran
  obtain ⟨shaded, walked, -⟩ := Shader.on_shadeTree (job.shader source.layout)
    job.config.shadePolicy walkable collected
  have clean :
      ((job.shader source.layout).tally job.config.shadePolicy mid.tree .empty paths).failures =
        [] :=
    Shader.tally_failures_eq_nil_iff.2 ⟨rfl, fine⟩
  have shades : (job.shade source.layout.root source.layout.importPrefix).on mid =
      (.ok ((job.shader source.layout).tally job.config.shadePolicy mid.tree .empty paths),
        shaded) := by
    refine SiteM.on_bind_eq_ok_iff.2 ⟨_, _, walked, ?_⟩
    rw [SiteM.on_lift, ShadeReport.result, if_pos (List.isEmpty_iff.2 clean)]
  obtain ⟨missing, checks⟩ := job.exists_missing_of_shade proper walkable plain shades
  obtain ⟨untidy, tidied, tidying⟩ := job.exists_tidy source.layout.root shaded
  refine SiteM.exists_ok_bind reading (SiteM.exists_ok_bind writing (SiteM.exists_ok_bind naming
    (SiteM.exists_ok_bind vendoring (SiteM.exists_ok_bind telling (SiteM.exists_ok_bind shades
      (SiteM.exists_ok_bind checks (SiteM.exists_ok_bind tidying ?_)))))))
  obtain ⟨warned, warning⟩ := job.exists_sayEach
    ((orderWarnings relocation ++ missing.map missingWarning ++ untidy).map fun w => s!"  ⚠️  {w}")
      tidied
  have done : (get : RunM Site).on warned = (.ok warned, warned) := rfl
  refine SiteM.exists_ok_bind warning (SiteM.exists_ok_bind done ?_)
  exact SiteM.exists_ok_bind (job.exists_sayIfVerbose ..).choose_spec ⟨_, _, rfl⟩

/-- The result of a run does not depend on what earlier runs left behind: two runs that succeed on
trees that differ only below the output directory leave the same buckets and the same files below
the private subtree. -/
theorem split_independent {report report' : SplitReport}
    (valid : job.config.validate = .ok job.config) (steady : job.pruner.Steady)
    (ran : (job.split input).on site = (.ok report, after))
    (ran' : (job.split input).on site' = (.ok report', after'))
    (differ : site.tree.DifferBelow report.layout.root site'.tree)
    (outside : ∀ loc l, site.tree.landing report.layout.root = .ok loc →
      site.tree.landing input = .ok l → ¬ loc <+: l)
    (keeps : job.toolchain.KeepsToWorkspace job.config.workDir)
    (spares : job.toolchain.SparesSources report.layout)
    (dependencies : job.SameDependencies input site site') :
    report'.layout = report.layout ∧
      (∀ bucket l content, site.tree.landing ((job.writer input report.layout).path bucket) =
        .ok l →
        (after'.tree.find? l = some (.file content) ↔ after.tree.find? l = some (.file content))) ∧
      ∀ new l content, site.tree.landing report.layout.thirdParty = .ok new → new <+: l → l ≠ new →
        (after'.tree.find? l = some (.file content) ↔
          after.tree.find? l = some (.file content)) := by
  obtain ⟨source, began, relocation, vendored, told, shading, shaded, start, layout,
    vendoring, tell, shades, tidied⟩ := job.split_eq_ok ran
  obtain ⟨source', began', relocation', vendored', told', shading', shaded', start', layout',
    vendoring', tell', shades', tidied'⟩ := job.split_eq_ok ran'
  rw [layout] at differ outside spares ⊢
  obtain ⟨loc, landed⟩ := job.exists_landing_of_begin start shades
  obtain rfl := job.source_eq start start'
    (fun l landed' => differ.same loc l landed (outside loc l landed landed')) differ.stays.base
  have below : loc ≠ [] := by
    rintro rfl
    obtain ⟨l, landed'⟩ := job.exists_landing_of_input start
    exact outside [] l landed landed' List.nil_prefix
  have h := job.counterparts_of_begin steady spares differ landed below start start'
  obtain ⟨stays, -⟩ := job.begin_eq_ok steady spares differ.inOrder landed below
    (fun l => differ.log loc l landed) start
  obtain ⟨rel, nonempty, words, thirdParty⟩ := job.exists_thirdParty valid start
  have same := job.same_of_vendor h keeps nonempty words thirdParty start start' stays.base
    dependencies
    vendoring vendoring'
  rw [← tell, ← tell'] at same
  have finish :=
    fun l => job.same_of_finish spares h words thirdParty same shades shades' tidied tidied' l
  refine ⟨layout', fun bucket l content landed' => ?_,
    fun new l content landed' within strict => ?_⟩
  · exact finish l content (.inl ⟨bucket, landed'⟩)
  · exact finish l content
      (.inr ⟨new, by rwa [← thirdParty, Tree.landing_congr stays.base], within, strict⟩)

/-- A toolchain that copies one dependency. -/
def copyist : Script where
  manifest := some "# example.com/q v1.0.0\nexample.com/q\n".toList
  files :=
    [("example.com/q/q.go".toList, .file (.ofText "package q\n\nfunc G() \x7b\x7d\n".toList))]
  failing := []

def copyistJob : Job :=
  ⟨{ Config.default with outputDir := some ⟨"out".toList⟩ }, copyist.toolchain,
    .usage .dotted, ['x']⟩

def freshTree : Tree :=
  { Tree.empty ['/', 'w'] with entries := [(["a.go".toList], .file (.ofText
      "package a\n\nimport \"example.com/q\"\n\nfunc F() \x7b q.G() \x7d\n".toList))] }

/-- The tree with the output of an earlier run: a bucket that is empty now, and a dependency that is
not needed any more. -/
def usedTree : Tree :=
  { freshTree with entries := [
      (["out".toList], .directory),
      (["out".toList, "a_types.go".toList], .file (.ofText "package a\n".toList)),
      (["out".toList, "third_party".toList], .directory),
      (["out".toList, "third_party".toList, "old.go".toList],
        .file (.ofText "package old\n".toList))] ++
      freshTree.entries }

theorem differBelow_usedTree : freshTree.DifferBelow ⟨"out".toList⟩ usedTree := by
  refine ⟨⟨rfl, rfl, rfl, rfl⟩, ⟨by decide, fun _ isOpen => by cases isOpen⟩,
    ⟨by decide +kernel, fun _ isOpen => by cases isOpen⟩, fun loc l landed out => ?_,
    fun _ _ _ isOpen => by cases isOpen⟩
  have place : freshTree.landing ⟨"out".toList⟩ = .ok ["out".toList] := by decide +kernel
  cases place.symm.trans landed
  exact Tree.find?_congr_of_filter (fun l => decide (¬ ["out".toList] <+: l)) (by decide +kernel)
    (decide_eq_true out)

theorem sameDependencies_copyistJob :
    copyistJob.SameDependencies ⟨"a.go".toList⟩ (.start freshTree 0) (.start usedTree 0) := by
  intro workspace workspace' copied copied' ran ran' work l landed within
  have stocked : ∀ {site : Site} {workspace : Workspace} {copied : Site},
      (copyistJob.stock ⟨"a.go".toList⟩).on site = (.ok workspace, copied) →
      workspace.dir = ((copyistJob.stock ⟨"a.go".toList⟩).on site).1.toOption.elim ⟨[]⟩ (·.dir) ∧
      copied.tree = ((copyistJob.stock ⟨"a.go".toList⟩).on site).2.tree := by
    intro site workspace copied ran
    rw [ran]
    exact ⟨rfl, rfl⟩
  obtain ⟨dir, tree⟩ := stocked ran
  obtain ⟨-, tree'⟩ := stocked ran'
  -- One evaluation for both facts: the checker runs the stocking of a tree once.
  have stock : (Site.start freshTree 0).tree.landing (((copyistJob.stock ⟨"a.go".toList⟩).on
      (.start freshTree 0)).1.toOption.elim ⟨[]⟩ (·.dir)) = .ok [".go-splitter-vendor-x".toList] ∧
      (((copyistJob.stock ⟨"a.go".toList⟩).on (.start usedTree 0)).2.tree.entries.filter fun e =>
        decide ([".go-splitter-vendor-x".toList] <+: e.1)) =
      ((copyistJob.stock ⟨"a.go".toList⟩).on (.start freshTree 0)).2.tree.entries.filter fun e =>
        decide ([".go-splitter-vendor-x".toList] <+: e.1) := by
    decide +kernel
  rw [dir] at landed
  cases stock.1.symm.trans landed
  refine Tree.find?_congr_of_filter (fun l => decide ([".go-splitter-vendor-x".toList] <+: l)) ?_
    (decide_eq_true within)
  rw [tree, tree']
  exact stock.2

/-- What the run is asked to produce. -/
def copyistLayout : Layout :=
  ⟨"a_split".toList, ⟨"out".toList⟩, ⟨"out/third_party".toList⟩, "a_split/third_party".toList⟩

/-- What the output directory holds when the files are to be shaded. -/
def copyistEntries : List (Location × Node) := [
  ([], .directory),
  (["a_funcs.go".toList],
    .file (.ofText "package a\n\nimport \"example.com/q\"\n\nfunc F() \x7b q.G() \x7d\n".toList)),
  (["go.mod".toList], .file (.ofText "module a_split\n".toList)),
  (["third_party".toList], .directory),
  (["third_party".toList, "example.com".toList], .directory),
  (["third_party".toList, "example.com".toList, ['q']], .directory),
  (["third_party".toList, "example.com".toList, ['q'], "q.go".toList],
    .file (.ofText "package q\n\nfunc G() \x7b\x7d\n".toList))]

theorem copyistJob_prepares : ∀ tree ∈ [freshTree, usedTree],
    let prepared := (copyistJob.prepare ⟨"a.go".toList⟩).on (.start tree 0)
    let ready := prepared.2.tree
    prepared.1.toOption.any (fun source => decide (source.layout = copyistLayout)) = true ∧
      ready.Sound ∧ ready.opened = none ∧
      ready.lookup ⟨"out".toList⟩ = .ok (["out".toList], .directory) ∧
      (ready.entries.filterMap fun e => (List.isPrefixOf? ["out".toList] e.1).map fun rest =>
        (rest, e.2)).Perm copyistEntries ∧
      (∀ e ∈ copyistEntries, e.2 = .directory →
        (ready.lookup (Tree.pathIn ⟨"out".toList⟩ e.1)).isOk = true) ∧
      (∀ e ∈ ready.entries, Shader.isPlainNode e.2 = true) ∧
      ∀ path ∈ [⟨"out/a_funcs.go".toList⟩, ⟨"out/third_party/example.com/q/q.go".toList⟩],
        ((copyistJob.shader copyistLayout).outcome ready path).isOk = true := by
  unfold usedTree freshTree copyistJob copyist copyistLayout copyistEntries
  repeat rw [String.toList_ofList]
  decide +kernel

theorem copyistJob_succeeds {tree : Tree} (mem : tree ∈ [freshTree, usedTree]) :
    ∃ report after, (copyistJob.split ⟨"a.go".toList⟩).on (.start tree 0) =
      (.ok report, after) := by
  obtain ⟨prepares, sound, closed, found, listed, directories, plain, fine⟩ :=
    copyistJob_prepares tree mem
  rcases prepared : (copyistJob.prepare ⟨"a.go".toList⟩).on (.start tree 0) with ⟨e | source, ready⟩
  · rw [prepared] at prepares
    cases prepares
  rw [prepared] at prepares sound closed found listed directories plain fine
  have layout : source.layout = copyistLayout := of_decide_eq_true prepares
  have walkable : ready.tree.Walkable copyistLayout.root :=
    { sound := sound
      inside := by simp [Tree.Inside, Path.isAbsolute, copyistLayout]
      log := by
        intro _ _ _ isOpen
        rw [closed] at isOpen
        cases isOpen }
  have collected : ready.tree.filesToShade copyistLayout.root =
      .ok [⟨"out/a_funcs.go".toList⟩, ⟨"out/third_party/example.com/q/q.go".toList⟩] := by
    rw [copyistLayout, Tree.filesToShade_eq_of_perm sound found listed (by decide +kernel)
      directories]
    decide +kernel
  have proper : (copyistJob.shader copyistLayout).Proper :=
    ⟨by decide, by decide, by decide +kernel⟩
  rw [← layout] at walkable collected fine proper
  exact copyistJob.exists_split_of_prepare prepared proper walkable
    (Shader.plainFiles_of_entries sound plain _) collected fine

/-- The buckets and the dependencies are the same, with and without an earlier run. -/
theorem split_independent_sample :
    ∃ report report' after after',
      (copyistJob.split ⟨"a.go".toList⟩).on (.start freshTree 0) = (.ok report, after) ∧
      (copyistJob.split ⟨"a.go".toList⟩).on (.start usedTree 0) = (.ok report', after') ∧
      report'.layout = report.layout ∧
      ∀ l ∈
        [["out".toList, "a_types.go".toList],
          ["out".toList, "third_party".toList, "old.go".toList]],
        ∀ content, after'.tree.find? l = some (.file content) ↔
          after.tree.find? l = some (.file content) := by
  obtain ⟨report, after, ran⟩ :=
    copyistJob_succeeds (List.mem_cons_self .. : freshTree ∈ [freshTree, usedTree])
  obtain ⟨report', after', ran'⟩ :=
    copyistJob_succeeds (List.mem_cons_of_mem _ (List.mem_cons_self ..) : usedTree ∈
      [freshTree, usedTree])
  have layout : report.layout = copyistLayout := by
    obtain ⟨source, began, -, -, -, -, -, start, same, -⟩ := copyistJob.split_eq_ok ran
    obtain ⟨read, reading⟩ := copyistJob.readSource_of_begin start
    have plan : ((copyistJob.readSource ⟨"a.go".toList⟩).on (.start freshTree 0)).1.toOption.any
        (fun source => decide (source.layout = copyistLayout)) = true := by
      decide +kernel
    rw [reading] at plan
    exact same.trans (of_decide_eq_true plan)
  have outside : ∀ loc l, freshTree.landing report.layout.root = .ok loc →
      freshTree.landing ⟨"a.go".toList⟩ = .ok l → ¬ loc <+: l := by
    intro loc l landed landed'
    rw [layout] at landed
    have place : freshTree.landing ⟨"out".toList⟩ = .ok ["out".toList] := by decide +kernel
    have place' : freshTree.landing ⟨"a.go".toList⟩ = .ok ["a.go".toList] := by decide +kernel
    cases place.symm.trans landed
    cases place'.symm.trans landed'
    decide
  obtain ⟨same, buckets, subtree⟩ :=
    copyistJob.split_independent rfl (Pruner.steady_usage .dotted) ran ran'
      (by rw [layout]; exact differBelow_usedTree) outside
      (Script.keepsToWorkspace (by decide +kernel) _)
      (Script.sparesSources copyist _) sameDependencies_copyistJob
  rw [layout] at buckets subtree
  refine ⟨report, report', after, after', ran, ran', same, ?_⟩
  refine List.forall_mem_cons.2 ⟨fun content => ?_, List.forall_mem_singleton.2 fun content => ?_⟩
  · exact buckets .types _ content (by decide +kernel)
  · exact subtree ["out".toList, "third_party".toList] _ content (by decide +kernel) (by decide)
      (by decide)

end Job

end GoSplit
