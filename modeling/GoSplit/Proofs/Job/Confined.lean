import GoSplit.Proofs.Job.Reruns
import GoSplit.Proofs.Tree.Confined

/-!
Runs keep to their output directory and clean up. However a run ends, no file outside of the
output directory has changed but the log, and the workspace is gone: all that is written, moved or
removed lies below the output directory or below the workspace, which is new and is closed in the
end.
-/

namespace GoSplit

/-! ### Paths into a region -/

namespace Region

variable {base : Text} {path q : Path} {loc rel : Location}

/-- A directory that has a place takes in all that is beneath it. -/
theorem owns_of_beneath (landed : (Tree.empty base).landing path = .ok loc)
    (beneath : q.Beneath path) : (under base path).Owns q := by
  intro l landed' l' within
  refine .inr ⟨loc, landed, ?_⟩
  by_cases root : loc = []
  · rw [root]
    exact List.nil_prefix
  · obtain ⟨names, named, land⟩ := Tree.landing_eq_ok_iff.1 landed
    exact (Tree.prefix_of_beneath beneath (Tree.namesOf_eq_ok_iff.1 named).2 land root
      landed').trans within

theorem owns_pathIn (lands : path.text ≠ [] → ∃ loc, (Tree.empty base).landing path = .ok loc)
    (words : ∀ name ∈ rel, Tree.IsWord name) : (under base path).Owns (Tree.pathIn path rel) := by
  intro l landed' l' within
  by_cases visible : path.text = []
  · exact .inl visible
  obtain ⟨loc, landed⟩ := lands visible
  refine .inr ⟨loc, landed, ?_⟩
  by_cases root : loc = []
  · rw [root]
    exact List.nil_prefix
  · obtain ⟨rfl, -⟩ := Tree.isName_of_landing_pathIn landed root words landed'
    exact (List.prefix_append ..).trans within

/-- A directory that could be made has a place. -/
theorem lands_of_makeDirs {site after : Site} (same : site.tree.base = base)
    (ran : (Site.makeDirs path).on site = (.ok (), after)) (visible : path.text ≠ []) :
    ∃ loc, (Tree.empty base).landing path = .ok loc := by
  obtain ⟨made, makes, -⟩ := Site.on_files_eq_ok_iff.1 ran
  obtain ⟨loc, landed, -, -⟩ := Tree.makeDirs_eq_ok makes visible
  have congr : site.tree.landing path = (Tree.empty base).landing path :=
    Tree.landing_congr same path
  exact ⟨loc, congr.symm.trans landed⟩

end Region

/-! ### Writing buckets -/

/-- The pruner changes nothing but the log. -/
def Pruner.LeavesTree (pruner : Pruner) : Prop :=
  ∀ name src site result after, (pruner.prune name src).on site = (result, after) →
    site.tree.Quiet after.tree

namespace BucketWriter

variable {writer : BucketWriter} {region : Region}

theorem contains_write (quiet : writer.pruner.LeavesTree)
    (owns : ∀ bucket, region.Owns (writer.path bucket)) (bucket : Bucket) (draft : Draft) :
    region.Contains (writer.write bucket draft) := by
  refine (Region.Contains.mapError (.of_quiet (quiet _ _))).bind_const fun text =>
    (Region.Contains.lift _).bind_const fun kept => ?_
  refine (Region.Contains.change fun tree tree' base inOrder ran => ?_).bind_const fun _ =>
    (Region.Contains.note _).bind_const fun _ => .pure _
  exact Region.confined_writeBytes (owns bucket) base inOrder ran

theorem contains_writeEach (quiet : writer.pruner.LeavesTree)
    (owns : ∀ bucket, region.Owns (writer.path bucket)) (file : SourceFile) (withPackageDoc : Bool)
    (buckets : List Bucket) : region.Contains (writer.writeEach file withPackageDoc buckets) := by
  induction buckets generalizing withPackageDoc with
  | nil => exact .pure _
  | cons bucket rest ih =>
    exact (contains_write quiet owns bucket _).bind_const
      fun _ => (ih false).bind_const fun _ => .pure _

theorem contains_removeStale (owns : ∀ bucket, region.Owns (writer.path bucket)) (file : SourceFile)
    (buckets : List Bucket) : region.Contains (writer.removeStale file buckets) := by
  induction buckets with
  | nil => exact .pure _
  | cons bucket rest ih =>
    refine (Region.Contains.look _).bind_const fun there => .ite ?_ ih
    refine (Region.Contains.note _).bind_const fun _ =>
      (Region.Contains.change fun tree tree' base inOrder ran => ?_).bind_const fun _ => ih
    exact Region.confined_removeFile (owns bucket) base inOrder ran

/-- Buckets are written and removed in the output directory. -/
theorem contains_writeAll (quiet : writer.pruner.LeavesTree) (plain : '/' ∉ writer.stem)
    (base : Text) (file : SourceFile) :
    (Region.under base writer.output).Contains (writer.writeAll file) := by
  refine (Region.Contains.makeDirs _).bind fun _ site after same inOrder ran => ?_
  have owns : ∀ bucket, (Region.under base writer.output).Owns (writer.path bucket) := fun bucket =>
    Region.owns_pathIn (Region.lands_of_makeDirs same ran)
      (List.forall_mem_singleton.2 (isWord_fileName plain bucket))
  exact (contains_writeEach quiet owns file true _).bind_const fun _ =>
    (contains_removeStale owns file _).bind_const fun _ => .pure _

end BucketWriter

/-! ### Shading -/

namespace Shader

variable {region : Region} (shader : Shader)

theorem contains_shadeFile {path : Path} (owns : region.Owns path) :
    region.Contains (shader.shadeFile path) := by
  refine (Region.Contains.look _).bind_const
    fun read => (Region.Contains.lift _).bind_const fun src =>
    (Region.Contains.lift _).bind_const fun shaded => ?_
  cases shaded with
  | none => exact .pure _
  | some shaded =>
    refine (Region.Contains.files (Region.Confines.change fun tree tree' base inOrder ran =>
      ?_).mapError).bind_const fun _ => (Region.Contains.note _).bind_const fun _ => .pure _
    exact Region.confined_writeBytes owns base inOrder ran

theorem contains_shadeFiles (policy : ShadePolicy) {paths : List Path}
    (owns : ∀ path ∈ paths, region.Owns path) (report : ShadeReport) :
    region.Contains (shader.shadeFiles policy report paths) := by
  induction paths generalizing report with
  | nil => exact .pure _
  | cons path rest ih =>
    obtain ⟨here, later⟩ := List.forall_mem_cons.1 owns
    exact (shader.contains_shadeFile here).attempt.bind_const fun outcome =>
      .ite (.pure _) (ih later _)

/-- The files that are shaded lie below the root of the walk. -/
theorem contains_shadeTree (policy : ShadePolicy) (base : Text) (root : Path) :
    (Region.under base root).Contains (shader.shadeTree policy root) := by
  refine (Region.Contains.look _).bind fun collected site after same inOrder looked => ?_
  cases looked
  refine (Region.Contains.lift _).bind fun paths site' after' _ _ lifted => ?_
  obtain ⟨collected, -⟩ := SiteM.on_lift_eq_iff.1 lifted
  obtain ⟨loc, node, found, -, places⟩ := Tree.filesToShade_eq_ok inOrder.sound collected
  have landed := (Tree.locate_iff_landing.1 (Tree.lookup_eq_ok_iff.1 found).1).1
  have congr : site.tree.landing root = (Tree.empty base).landing root :=
    Tree.landing_congr same root
  refine (shader.contains_shadeFiles policy (fun path mem => ?_) _).bind_const fun _ =>
    (Region.Contains.note _).bind_const fun _ => .pure _
  obtain ⟨rel, content, rfl, goFile⟩ := (places path).1 mem
  exact Region.owns_pathIn (fun _ => ⟨loc, congr.symm.trans landed⟩)
    fun name mem => (inOrder.sound.isName goFile.found mem).isWord

/-- Shading makes no entries. -/
theorem matches_shadeFile (path : Path) (site : Site) :
    site.tree.Matches ((shader.shadeFile path).on site).2.tree := by
  rw [on_shadeFile]
  split
  · exact .refl _
  · exact .refl _
  next moved moves =>
  split
  · exact .refl _
  next written wrote =>
  obtain ⟨loc, content, src, name, named, takes, found, -, -⟩ := verdict_eq_some moves
  obtain ⟨loc', takes', rfl⟩ := (Tree.writeBytes_eq_ok_iff named).1 wrote
  have same := takes'.located
  rw [takes.located] at same
  cases same
  exact (Tree.matches_put found _).trans (Tree.matches_append _ _)

theorem matches_shadeFiles (policy : ShadePolicy) (paths : List Path) (report : ShadeReport)
    (site : Site) : site.tree.Matches ((shader.shadeFiles policy report paths).on site).2.tree := by
  induction paths generalizing report site with
  | nil => exact .refl _
  | cons path rest ih =>
    have here := shader.matches_shadeFile path site
    rw [shadeFiles, SiteM.on_bind_of_ok (SiteM.on_attempt _ _)]
    split
    · exact here
    · exact here.trans (ih _ _)

theorem matches_shadeTree (policy : ShadePolicy) (root : Path) (site : Site) :
    site.tree.Matches ((shader.shadeTree policy root).on site).2.tree := by
  rw [shadeTree, SiteM.on_bind_of_ok (SiteM.on_look _ _), SiteM.on_bind, SiteM.on_lift]
  cases site.tree.filesToShade root with
  | error e => exact .refl _
  | ok paths =>
    have shaded := shader.matches_shadeFiles policy paths .empty site
    dsimp only
    rw [SiteM.on_bind]
    rcases ran : (shader.shadeFiles policy .empty paths).on site with ⟨e | report, after⟩
    · rwa [ran] at shaded
    · rw [ran] at shaded
      exact shaded.trans (Tree.matches_append _ _)

end Shader

/-! ### Vendoring -/

namespace Relocation

variable {region : Region} {vendored thirdParty : Path}

theorem contains_moveModule (source : region.Hosts vendored) (target : region.Hosts thirdParty)
    (m : Manifest.Module) : region.Contains (moveModule vendored thirdParty m) := by
  have owns := source.owns _ (Path.beneath_below source.closed m.path)
  have beneath := Path.beneath_below target.closed m.path
  refine (Region.Contains.look _).bind_const fun there => .ite ?_ ?_
  · refine (Region.Contains.files (Region.confines_moveDir owns target
      beneath)).attempt.bind_const fun result => ?_
    cases result with
    | ok _ => exact .pure _
    | error cause => exact .pure _
  · exact (Region.Contains.look _).bind_const fun there => .ite (.pure _) (.ite (.pure _) (.pure _))

theorem contains_moveModules (source : region.Hosts vendored) (target : region.Hosts thirdParty)
    (modules : List Manifest.Module) :
    region.Contains (moveModules vendored thirdParty modules) := by
  induction modules with
  | nil => exact .pure _
  | cons m rest ih =>
    exact (contains_moveModule source target m).bind_const fun _ =>
      (Region.Contains.note _).bind_const fun _ => ih.bind_const fun _ => .pure _

theorem contains_noteViolations (pairs : List (Text × Text)) :
    region.Contains (noteViolations pairs) := by
  induction pairs with
  | nil => exact .pure _
  | cons pair rest ih => exact (Region.Contains.note _).bind_const fun _ => ih

theorem contains_dropOld (owns : region.Owns thirdParty) : region.Contains (dropOld thirdParty) :=
  (Region.Contains.look _).bind_const fun _ =>
    .ite ((Region.Contains.note _).bind_const fun _ => .removeDirs owns) (.pure _)

/-- Modules are moved from the vendored tree to the private subtree, and nothing else is touched. -/
theorem contains_relocate (source : region.Hosts vendored) (owns : region.Owns thirdParty)
    (hosts : ∀ site after, site.tree.base = region.base →
      (Site.makeDirs thirdParty).on site = (.ok (), after) → region.Hosts thirdParty)
    (manifest : Manifest) : region.Contains (relocate manifest vendored thirdParty) := by
  refine (contains_dropOld owns).bind_const fun _ =>
    (Region.Contains.makeDirs thirdParty).bind fun _ site after same _ ran => ?_
  refine (contains_noteViolations _).bind_const fun _ =>
    (contains_moveModules source (hosts site after same ran) _).bind_const fun modules =>
      (Region.Contains.look _).bind_const fun tree => ?_
  exact .ite (.pure _) (.throw _)

end Relocation

/-- The toolchain writes only below the directory it is given. -/
structure Toolchain.KeepsBelow (toolchain : Toolchain) : Prop where
  init : ∀ base dir name, (Region.under base dir).Contains (toolchain.init dir name)
  vendor : ∀ base workDir out, (Region.under base out).Contains (toolchain.vendor workDir out)
  tidy : ∀ base dir, (Region.under base dir).Contains (toolchain.tidy dir)

namespace Workspace

variable {workspace : Workspace} {toolchain : Toolchain} {workDir root thirdParty : Path}
  {base suffix : Text} {work rel : Location} {site after : Site}

/-- Where vendoring works: in the vendored tree of a workspace and in the private subtree. -/
def ground (base : Text) (work : Location) (thirdParty : Path) : Region where
  base
  holds l := work ++ ["vendor".toList] <+: l ∨ (Region.under base thirdParty).holds l

theorem hosts_vendored (landed : (Tree.empty base).landing workspace.dir = .ok work)
    (below : work ≠ []) (thirdParty : Path) :
    (ground base work thirdParty).Hosts workspace.vendored := by
  refine ⟨fun q beneath l landed' l' within => .inl ?_, workspace.names_vendored.closed⟩
  exact (prefix_of_vendored landed below beneath landed').trans within

/-- Vendoring touches only what is in the vendored tree or in the private subtree. -/
theorem contains_vendorFrom (keeps : toolchain.KeepsBelow)
    (landed : (Tree.empty base).landing workspace.dir = .ok work) (below : work ≠ [])
    (nonempty : rel ≠ []) (words : ∀ name ∈ rel, Tree.IsWord name) (workDir root : Path) :
    (ground base work (Tree.pathIn root rel)).Contains
      (vendorFrom toolchain workspace workDir (Tree.pathIn root rel)) := by
  have source := hosts_vendored landed below (Tree.pathIn root rel)
  have closed :=
    (@Tree.names_pathIn root rel _ words (List.getLast?_eq_some_getLast nonempty)).closed
  have visible : ∀ {path : Path}, ¬ (path.text.isEmpty || path.text.getLast? == some '/') = true →
      path.text ≠ [] := by
    intro path closed empty
    simp [empty] at closed
  have inside : ∀ l, (Region.under base workspace.vendored).holds l →
      (ground base work (Tree.pathIn root rel)).holds l := by
    rintro l (empty | ⟨old, landedOld, within⟩)
    · exact absurd empty (visible source.closed)
    · exact source.owns _ (.inl rfl) old landedOld l within
  have copies : (ground base work (Tree.pathIn root rel)).Contains
      (toolchain.vendor workDir workspace.vendored) :=
    (keeps.vendor base workDir workspace.vendored).mono rfl inside
  refine copies.bind_const fun _ =>
    (Region.Contains.look _).bind_const fun _ => (Region.Contains.lift _).bind_const fun manifest =>
      (Region.Contains.note _).bind_const fun _ => ?_
  refine Relocation.contains_relocate source (fun new landedNew l within => ?_)
    (fun site after same ran => ⟨fun q beneath l landedQ l' within => ?_, closed⟩) manifest
  · exact .inr (.inr ⟨new, landedNew, within⟩)
  · obtain ⟨new, landedNew⟩ := Region.lands_of_makeDirs same ran (visible closed)
    exact .inr (Region.owns_of_beneath landedNew beneath l landedQ l' within)

theorem create_eq_error {e : SplitError}
    (ran : (create workDir suffix).on site = (.error e, after)) :
    after.tree = site.tree := by
  rcases SiteM.on_bind_eq_error_iff.1 ran with failed | ⟨base, looked, looking, ran⟩
  · cases failed
  cases looking
  rcases SiteM.on_bind_eq_error_iff.1 ran with failed | ⟨_, made, -, ran⟩
  · rw [SiteM.on_files, FileM.on_mapError, FileM.on_change] at failed
    split at failed
    · cases failed
    · cases failed
      rfl
  · rcases SiteM.on_bind_eq_error_iff.1 ran with failed | ⟨_, noted, -, ran⟩
    · cases failed
    · cases ran

theorem Created.confined {tree created : Tree} (h : workspace.Created work tree created)
    (places : Location → Prop) : tree.Confined places created := by
  refine ⟨h.stays.base, h.inOrder, fun l _ other => ?_, fun l _ isOpen => ?_⟩
  · by_cases here : l = work
    · rw [here]
      exact .inr ⟨h.fresh work List.prefix_rfl, h.there⟩
    · exact .inl (h.same l here other)
  · rwa [h.stays.opened] at isOpen

/-- Closing the workspace, once the modules were moved or something went wrong, deletes it with all
that is in it. -/
def Closes (toolchain : Toolchain) (suffix : Text) (workDir thirdParty : Path)
    (site : Site) : Prop :=
  ∀ workspace created result left work l, (create workDir suffix).on site =
    (.ok workspace, created) →
    (vendorFrom toolchain workspace workDir thirdParty).on created = (result, left) →
    site.tree.landing workspace.dir = .ok work → work <+: l →
      ((Tree.removeDirs workspace.dir).on left.tree).2.find? l = none

/-- A workspace can be deleted, unless the way there leads through the private subtree, which is
replaced in the meantime. -/
theorem closes_of_apart (keeps : toolchain.KeepsBelow) (inOrder : site.tree.InOrder)
    (plain : '/' ∉ suffix) (nonempty : rel ≠ []) (words : ∀ name ∈ rel, Tree.IsWord name)
    (apart : ∀ new l, site.tree.landing (Tree.pathIn root rel) = .ok new →
      l ∈ site.tree.passed (pathIn site.tree.base workDir suffix) ∨
        site.tree.landing (pathIn site.tree.base workDir suffix) = .ok l → ¬ new <+: l) :
    Closes toolchain suffix workDir (Tree.pathIn root rel) site := by
  intro workspace made result left work l making vendoring landed within
  obtain ⟨rfl, work', created⟩ := exists_created inOrder making
  cases landed.symm.trans created.landed
  -- The workspace and the way there are as they were made.
  have confined : made.tree.Confined (ground site.tree.base work (Tree.pathIn root rel)).holds
      left.tree := by
    have contains := contains_vendorFrom keeps created.landed created.below nonempty words
      workDir root
      made created.stays.base created.inOrder
    rwa [vendoring] at contains
  have way : ∀ l ∈ site.tree.passed (pathIn site.tree.base workDir suffix), work <+: l →
      l = work := by
    intro l mem within
    rcases created.way l mem with directory | here
    · rw [created.fresh l within] at directory
      cases directory
    · exact here
  have untouched : ∀ l, l ∈ site.tree.passed (pathIn site.tree.base workDir suffix) ∨ l = work →
      left.tree.find? l = some .directory := by
    intro l place
    refine confined.directory created.inOrder ?_ ?_
    · rintro (old | empty | ⟨new, landedNew, lower⟩)
      · have here : l = work :=
          place.elim (fun mem => way l mem ((List.prefix_append ..).trans old)) id
        have size := old.length_le
        rw [here, List.length_append, List.length_singleton] at size
        omega
      · have named := @Tree.names_pathIn root rel _ words (List.getLast?_eq_some_getLast nonempty)
        exact absurd named.closed (by simp [empty])
      · refine apart new l landedNew (place.imp_right ?_) lower
        rintro rfl
        exact landed
    · rcases place with mem | rfl
      · rcases created.way l mem with directory | rfl
        · exact created.directory l directory
        · exact created.there
      · exact created.there
  have base : left.tree.base = site.tree.base := confined.base.trans created.stays.base
  have word : Tree.IsWord (".go-splitter-vendor-".toList ++ suffix) := by
    refine ⟨by simp, ?_, ?_⟩
    · rw [Tree.isDots, Bool.or_eq_false_iff, decide_eq_false_iff_not, decide_eq_false_iff_not]
      exact ⟨by simp, by simp⟩
    · rw [List.mem_append, not_or]
      exact ⟨by decide, plain⟩
  have named : (pathIn site.tree.base workDir suffix).Names
      (".go-splitter-vendor-".toList ++ suffix) :=
    Tree.names_pathIn (List.forall_mem_singleton.2 word) rfl
  have located : ∀ tree : Tree, tree.base = site.tree.base →
      (∀ l, l ∈ site.tree.passed (pathIn site.tree.base workDir suffix) ∨ l = work →
        tree.find? l = some .directory) →
      tree.locate (pathIn site.tree.base workDir suffix) = .ok work := by
    intro tree base directories
    refine Tree.locate_iff_landing.2 ⟨by rwa [Tree.landing_congr base], fun l mem => ?_⟩
    rw [Tree.passed_congr base] at mem
    exact directories l (.inl mem)
  have removed := Tree.on_removeDirs_of_names named created.below
    (located left.tree base untouched) (untouched work (.inr rfl))
    (located (left.tree.clear work) base fun l place => ?_)
  · rw [removed, Tree.find?_remove created.below, if_pos within]
  · rw [Tree.find?_clear, if_neg, untouched l place]
    rintro ⟨lower, other⟩
    exact other (place.elim (fun mem => way l mem lower) id)

end Workspace

section

variable {toolchain : Toolchain} {suffix : Text} {workDir root thirdParty : Path} {rel : Location}
  {site after : Site} {result : Except SplitError RelocationReport}

/-- However vendoring ends, a workspace that was made is closed. -/
theorem vendorDependencies_cases
    (ran : (vendorDependencies toolchain suffix workDir thirdParty).on site = (result, after)) :
    (∃ e, (Workspace.create workDir suffix).on site = (.error e, after)) ∨
      ∃ workspace created r left,
        (Workspace.create workDir suffix).on site = (.ok workspace, created) ∧
        (vendorFrom toolchain workspace workDir thirdParty).on created = (r, left) ∧
        after.tree = ((Tree.removeDirs workspace.dir).on left.tree).2 := by
  rcases SiteM.on_bind_cases ran with ⟨e, failed, -⟩ | ⟨workspace, created, making, ran⟩
  · exact .inl ⟨e, failed⟩
  rcases vendoring : (vendorFrom toolchain workspace workDir thirdParty).on created with ⟨r, left⟩
  refine .inr ⟨workspace, created, r, left, making, vendoring, ?_⟩
  rw [SiteM.on_bind_of_ok (SiteM.on_attempt _ _), vendoring] at ran
  cases r with
  | error e =>
    cases ran
    rfl
  | ok report =>
    rcases SiteM.on_bind_cases ran with ⟨e, failed, -⟩ | ⟨_, closed, closing, ran⟩
    · exact congrArg (fun outcome => outcome.2.tree) failed.symm
    · cases ran
      exact congrArg (fun outcome => outcome.2.tree) closing.symm

theorem confined_of_vendorDependencies {places : Location → Prop} (keeps : toolchain.KeepsBelow)
    (inOrder : site.tree.InOrder) (nonempty : rel ≠ []) (words : ∀ name ∈ rel, Tree.IsWord name)
    (inside : ∀ l, (Region.under site.tree.base (Tree.pathIn root rel)).holds l → places l)
    (closes : Workspace.Closes toolchain suffix workDir (Tree.pathIn root rel) site)
    (ran : (vendorDependencies toolchain suffix workDir (Tree.pathIn root rel)).on site =
      (result, after)) : site.tree.Confined places after.tree := by
  rcases vendorDependencies_cases ran with ⟨e, failed⟩ |
    ⟨workspace, made, r, left, making, vendoring, closed⟩
  · rw [Workspace.create_eq_error failed]
    exact .refl _ inOrder
  obtain ⟨-, work, created⟩ := Workspace.exists_created inOrder making
  have first := created.confined fun l => places l ∨ work <+: l
  have second : made.tree.Confined
      (Workspace.ground site.tree.base work (Tree.pathIn root rel)).holds
      left.tree := by
    have contains := Workspace.contains_vendorFrom keeps created.landed created.below nonempty words
      workDir root made first.base first.inOrder
    rwa [vendoring] at contains
  have base : left.tree.base = site.tree.base := second.base.trans first.base
  have third := Region.confines_removeDirs (Region.owns_of_beneath created.landed (.inl rfl))
    left.tree
    base second.inOrder
  rw [← closed] at third
  refine Tree.Confined.of_vacant ((first.trans (second.mono ?_)).trans (third.mono ?_))
    created.fresh
    fun l within => ?_
  · rintro l (within | below)
    · exact .inr ((List.prefix_append ..).trans within)
    · exact .inl (inside l below)
  · rintro l (empty | ⟨loc, landed, within⟩)
    · exact absurd empty (Tree.text_ne_nil_of_landing created.landed)
    · cases created.landed.symm.trans landed
      exact .inr within
  · rw [closed]
    exact closes workspace made r left work l making vendoring created.landed within

theorem vacant_of_vendorDependencies {work : Location}
    (closes : Workspace.Closes toolchain suffix workDir thirdParty site)
    (ran : (vendorDependencies toolchain suffix workDir thirdParty).on site = (result, after))
    (landed : site.tree.landing (Workspace.pathIn site.tree.base workDir suffix) = .ok work)
    (free : site.tree.find? work = none) : after.tree.find? work = none := by
  rcases vendorDependencies_cases ran with ⟨e, failed⟩ |
    ⟨workspace, made, r, left, making, vendoring, closed⟩
  · rw [Workspace.create_eq_error failed, free]
  · obtain ⟨rfl, -⟩ := Workspace.create_eq_ok making
    rw [closed]
    exact closes _ made r left work work making vendoring landed List.prefix_rfl

/-- Removing makes no entries. -/
theorem Tree.find?_of_removeDirs {tree tree' : Tree} {path : Path} {l : Location}
    {result : Except IoError Unit} (ran : (Tree.removeDirs path).on tree = (result, tree'))
    (free : tree.find? l = none) : tree'.find? l = none := by
  have fewer : ∀ e ∈ tree'.entries, e ∈ tree.entries := by
    intro e mem
    rcases Tree.on_removeDirs_cases ran with ⟨rfl, -⟩ | ⟨loc, -, -, rfl | rfl⟩
    · exact mem
    · exact (List.mem_filter.1 mem).1
    · exact (List.mem_filter.1 (List.mem_filter.1 mem).1).1
  have below : l ≠ [] := by
    rintro rfl
    simp at free
  cases found : tree'.find? l with
  | none => rfl
  | some node =>
    have there := Tree.find?_isSome_of_mem (fewer _ (Tree.exists_mem_of_find? below found))
    rw [free] at there
    cases there

end

/-! ### Whole runs -/

namespace Job

variable (job : Job) {input : Path} {site after : Site} {source : Source}

/-- A place at or below the output directory of a run. -/
def Holds (input : Path) (tree : Tree) (l : Location) : Prop :=
  ∃ src package, tree.readText input = .ok src ∧
    SourceFile.parsePackageName input.text src = .ok package ∧
    (Region.under tree.base (job.config.layout package).root).holds l

/-- The workspace of a run is deleted when it is closed. -/
def Closes (input : Path) (site : Site) : Prop :=
  ∀ source began told, (job.begin input).on site = (.ok source, began) →
    job.needsVendoring source = true →
    (job.sayIfVerbose s!"  📥 Vendoring dependencies into {source.layout.thirdParty.str}").on began =
      (.ok (), told) →
    Workspace.Closes job.toolchain job.suffix job.config.workDir source.layout.thirdParty told

theorem contains_sayEach {region : Region} (lines : List String) :
    region.Contains (job.sayEach lines) := by
  refine .of_quiet fun site result after ran => ?_
  rw [job.tree_of_sayEach ran]
  exact .refl _

theorem contains_writeBuckets (quiet : job.pruner.LeavesTree) (base : Text) (input : Path)
    (source : Source) :
    (Region.under base source.layout.root).Contains (job.writeBuckets input source) :=
  (BucketWriter.contains_writeAll quiet (BucketWriter.slash_not_mem_stem _ _ _ _) base _).bind_const
    fun _ => (job.contains_sayEach _).bind_const fun _ => .pure _

/-- Whether or not the source could be read, nothing has changed but the log. -/
theorem quiet_of_readSource {result : Except SplitError Source}
    (ran : (job.readSource input).on site = (result, after)) : site.tree.Quiet after.tree := by
  cases result with
  | error e =>
    rw [job.tree_of_readSource ran]
    exact .refl _
  | ok source =>
    obtain ⟨_, -, -, -, -, quiet⟩ := job.readSource_eq_ok ran
    exact quiet

theorem holds_of_readSource (ran : (job.readSource input).on site = (.ok source, after))
    {l : Location} (holds : (Region.under site.tree.base source.layout.root).holds l) :
    job.Holds input site.tree l := by
  obtain ⟨src, text, named, layout, -, -⟩ := job.readSource_eq_ok ran
  rw [layout] at holds
  exact ⟨src, source.package, text, named, holds⟩

/-- Up to the request for dependencies, a run keeps to its output directory. -/
theorem confined_of_begin {result : Except SplitError Source} (quiet : job.pruner.LeavesTree)
    (keeps : job.toolchain.KeepsBelow) (inOrder : site.tree.InOrder)
    (ran : (job.begin input).on site = (result, after)) :
    site.tree.Confined (job.Holds input site.tree) after.tree := by
  rcases SiteM.on_bind_cases ran with ⟨e, failed, -⟩ | ⟨source, read, reading, ran⟩
  · exact (job.quiet_of_readSource failed).confined inOrder _
  have first := (job.quiet_of_readSource reading).confined inOrder (job.Holds input site.tree)
  have rest : (Region.under site.tree.base source.layout.root).Contains (do
      let _ ← job.writeBuckets input source
      job.toolchain.init source.layout.root source.layout.projectName
      return source) :=
    (job.contains_writeBuckets quiet _ input source).bind_const fun _ =>
      (keeps.init _ _ _).bind_const fun _ => .pure _
  have second := rest read first.base first.inOrder
  rw [ran] at second
  exact first.trans (second.mono fun l => job.holds_of_readSource reading)

/-- Once a run has begun, its output directory has a place. -/
theorem lands_of_begin (ran : (job.begin input).on site = (.ok source, after))
    (visible : source.layout.root.text ≠ []) :
    ∃ loc, (Tree.empty site.tree.base).landing source.layout.root = .ok loc := by
  obtain ⟨_, read, reading, ran⟩ := SiteM.on_bind_eq_ok_iff.1 ran
  obtain ⟨_, wrote, writing, ran⟩ := SiteM.on_bind_eq_ok_iff.1 ran
  obtain ⟨_, named, naming, ran⟩ := SiteM.on_bind_eq_ok_iff.1 ran
  cases ran
  obtain ⟨_, -, -, -, -, quiet⟩ := job.readSource_eq_ok reading
  obtain ⟨wrote', writes, -⟩ := job.writeBuckets_eq_ok writing
  obtain ⟨_, made, making, -⟩ := SiteM.on_bind_eq_ok_iff.1 writes
  exact Region.lands_of_makeDirs quiet.rewritten.base making visible

/-- What a run comes to after the request for dependencies was reached. -/
theorem vendor_cases {result : Except SplitError (Option RelocationReport)}
    (ran : (job.vendor input source).on site = (result, after)) :
    (job.needsVendoring source = true ∧ ∃ told r done,
      (job.sayIfVerbose s!"  📥 Vendoring dependencies into {source.layout.thirdParty.str}").on
          site = (.ok (), told) ∧
      (vendorDependencies job.toolchain job.suffix job.config.workDir source.layout.thirdParty).on
          told = (r, done) ∧
      after.tree = done.tree) ∨
      ∃ noted : Tree, site.tree.Quiet noted ∧ site.tree.Matches noted ∧
        (after.tree = noted ∨
          ∃ r, (Tree.removeDirs source.layout.thirdParty).on noted = (r, after.tree)) := by
  unfold vendor at ran
  dsimp only at ran
  split at ran
  · next need =>
    rcases SiteM.on_bind_cases ran with ⟨e, failed, -⟩ | ⟨_, told, telling, ran⟩
    · unfold sayIfVerbose at failed
      split at failed
      · cases failed
      · cases failed
    refine .inl ⟨need, told, ?_⟩
    rcases SiteM.on_bind_cases ran with ⟨e, failed, -⟩ | ⟨report, done, vendoring, ran⟩
    · exact ⟨_, _, telling, failed, rfl⟩
    · cases ran
      exact ⟨_, _, telling, vendoring, rfl⟩
  · rw [SiteM.on_bind_of_ok (Site.on_note _ _), SiteM.on_bind_of_ok (SiteM.on_look _ _)] at ran
    have noted : ∀ (site : Site) line, site.tree.Quiet (Site.noted site line).tree ∧
        site.tree.Matches (Site.noted site line).tree :=
      fun _ _ => ⟨.append _ _, Tree.matches_append _ _⟩
    refine .inr ?_
    split at ran
    · have removes : ∀ told : Site, (Site.removeDirs source.layout.thirdParty >>= fun _ =>
          (pure none : RunM (Option RelocationReport))).on told = (result, after) →
          ∃ r, (Tree.removeDirs source.layout.thirdParty).on told.tree = (r, after.tree) := by
        intro told ran
        rcases SiteM.on_bind_cases ran with ⟨e, failed, -⟩ | ⟨_, removed, removing, ran⟩
        · exact ⟨_, Prod.ext rfl (congrArg (fun outcome => outcome.2.tree) failed)⟩
        · cases ran
          exact ⟨_, Prod.ext rfl (congrArg (fun outcome => outcome.2.tree) removing)⟩
      rw [SiteM.on_bind_of_ok (Site.on_note _ _)] at ran
      exact ⟨_, (noted _ _).1.trans (noted _ _).1, (noted _ _).2.trans (noted _ _).2,
        .inr (removes _ ran)⟩
    · cases ran
      exact ⟨_, (noted _ _).1, (noted _ _).2, .inl rfl⟩

/-- However the request for dependencies ends, it keeps to the output directory and leaves nothing
at the place of the workspace. -/
theorem confined_of_vendor {result : Except SplitError (Option RelocationReport)} {rel : Location}
    (keeps : job.toolchain.KeepsBelow) (inOrder : site.tree.InOrder) (nonempty : rel ≠ [])
    (words : ∀ name ∈ rel, Tree.IsWord name)
    (thirdParty : source.layout.thirdParty = Tree.pathIn source.layout.root rel)
    (lands : source.layout.root.text ≠ [] →
      ∃ loc, (Tree.empty site.tree.base).landing source.layout.root = .ok loc)
    (closes : job.needsVendoring source = true → ∀ told,
      (job.sayIfVerbose s!"  📥 Vendoring dependencies into {source.layout.thirdParty.str}").on
          site = (.ok (), told) →
      Workspace.Closes job.toolchain job.suffix job.config.workDir source.layout.thirdParty told)
    (ran : (job.vendor input source).on site = (result, after)) :
    site.tree.Confined (Region.under site.tree.base source.layout.root).holds after.tree ∧
      ∀ work, site.tree.landing (Workspace.pathIn site.tree.base job.config.workDir job.suffix) =
        .ok work → site.tree.find? work = none → after.tree.find? work = none := by
  have owns : (Region.under site.tree.base source.layout.root).Owns source.layout.thirdParty := by
    rw [thirdParty]
    exact Region.owns_pathIn lands words
  rcases job.vendor_cases ran with ⟨need, told, r, done, telling, vendoring, same⟩ |
    ⟨noted, quiet, matched, same⟩
  · have still := job.tree_of_sayIfVerbose telling
    have closing := closes need told telling
    rw [same, ← still]
    refine ⟨?_, fun work landed free => vacant_of_vendorDependencies closing vendoring landed free⟩
    rw [thirdParty] at closing vendoring owns
    refine confined_of_vendorDependencies keeps (still ▸ inOrder) nonempty words ?_ closing
      vendoring
    rintro l (empty | ⟨new, landed, within⟩)
    · have named := @Tree.names_pathIn source.layout.root rel _ words
        (List.getLast?_eq_some_getLast nonempty)
      exact absurd named.closed (by simp [empty])
    · rw [still] at landed ⊢
      exact owns new landed l within
  · have first := quiet.confined inOrder (Region.under site.tree.base source.layout.root).holds
    rcases same with same | ⟨r, removing⟩
    · rw [same]
      exact ⟨first, fun work _ free => matched.missing.2 free⟩
    · refine ⟨?_, fun work _ free => Tree.find?_of_removeDirs removing (matched.missing.2 free)⟩
      have second := Region.confines_removeDirs owns noted first.base first.inOrder
      rw [removing] at second
      exact first.trans second

theorem contains_shade (base : Text) (root : Path) (space : Text) :
    (Region.under base root).Contains (job.shade root space) :=
  (Shader.contains_shadeTree _ _ base root).bind_const fun _ => .lift _

theorem matches_shade (root : Path) (space : Text) (site : Site) :
    site.tree.Matches ((job.shade root space).on site).2.tree := by
  have shaded := Shader.matches_shadeTree ⟨job.classifier, space⟩ job.config.shadePolicy root site
  rw [shade, SiteM.on_bind]
  rcases ran : ((⟨job.classifier, space⟩ : Shader).shadeTree job.config.shadePolicy root).on
    site with
    ⟨e | report, after⟩
  · rwa [ran] at shaded
  · rw [ran] at shaded
    dsimp only
    rwa [SiteM.on_lift]

/-- Tidying is left to the toolchain, or left out. -/
theorem tidy_cases {root : Path} {result : Except SplitError (List String)}
    (ran : (job.tidy root).on site = (result, after)) :
    after = site ∨ ∃ r, (job.toolchain.tidy root).on site = (r, after) := by
  unfold tidy at ran
  split at ran
  · cases ran
    exact .inl rfl
  · rw [SiteM.on_bind_of_ok (SiteM.on_attempt _ _)] at ran
    rcases tidying : (job.toolchain.tidy root).on site with ⟨e | _, tidied⟩
    · rw [tidying] at ran
      cases ran
      exact .inr ⟨_, rfl⟩
    · rw [tidying] at ran
      cases ran
      exact .inr ⟨_, rfl⟩

/-- The stages of a run, at any of which it may end. -/
theorem split_cases {result : Except SplitError SplitReport}
    (ran : (job.split input).on site = (result, after)) :
    ∃ r began, (job.begin input).on site = (r, began) ∧ (after.tree = began.tree ∨
      ∃ source, r = .ok source ∧ ∃ r' vendored,
        (job.vendor input source).on began = (r', vendored) ∧
        (after.tree = vendored.tree ∨ ∃ told shaded r'', told.tree = vendored.tree ∧
          (job.shade source.layout.root source.layout.importPrefix).on told = (r'', shaded) ∧
          (after.tree = shaded.tree ∨ ∃ r₃ tidied,
            (job.toolchain.tidy source.layout.root).on shaded = (r₃, tidied) ∧
              after.tree = tidied.tree))) := by
  rcases SiteM.on_bind_cases ran with ⟨e, failed, -⟩ | ⟨source, read, reading, ran⟩
  · exact ⟨_, after, SiteM.on_bind_eq_error_iff.2 (.inl failed), .inl rfl⟩
  rcases SiteM.on_bind_cases ran with ⟨e, failed, -⟩ | ⟨buckets, wrote, writing, ran⟩
  · exact ⟨_, after, SiteM.on_bind_eq_error_iff.2 (.inr ⟨_, _, reading,
      SiteM.on_bind_eq_error_iff.2 (.inl failed)⟩), .inl rfl⟩
  rcases SiteM.on_bind_cases ran with ⟨e, failed, -⟩ | ⟨_, began, naming, ran⟩
  · exact ⟨_, after, SiteM.on_bind_eq_error_iff.2 (.inr ⟨_, _, reading,
      SiteM.on_bind_eq_error_iff.2 (.inr ⟨_, _, writing,
        SiteM.on_bind_eq_error_iff.2 (.inl failed)⟩)⟩), .inl rfl⟩
  refine ⟨.ok source, began, SiteM.on_bind_eq_ok_iff.2 ⟨_, _, reading,
    SiteM.on_bind_eq_ok_iff.2 ⟨_, _, writing,
      SiteM.on_bind_eq_ok_iff.2 ⟨_, _, naming, rfl⟩⟩⟩, .inr ⟨source, rfl, ?_⟩⟩
  rcases SiteM.on_bind_cases ran with ⟨e, failed, -⟩ | ⟨relocation, vendored, vendoring, ran⟩
  · exact ⟨_, after, failed, .inl rfl⟩
  refine ⟨_, vendored, vendoring, ?_⟩
  rcases SiteM.on_bind_cases ran with ⟨e, failed, -⟩ | ⟨_, told, telling, ran⟩
  · exact .inl (job.tree_of_sayIfVerbose failed)
  rcases SiteM.on_bind_cases ran with ⟨e, failed, -⟩ | ⟨shading, shaded, shades, ran⟩
  · exact .inr ⟨told, after, _, job.tree_of_sayIfVerbose telling, failed, .inl rfl⟩
  refine .inr ⟨told, shaded, _, job.tree_of_sayIfVerbose telling, shades, ?_⟩
  have checks : ∀ {r : Except SplitError (List MissingPackage)} {checked : Site},
      (job.missing source.layout).on shaded = (r, checked) → shaded = checked := by
    intro r checked ran
    rw [missing, SiteM.on_bind_of_ok (SiteM.on_look _ _)] at ran
    exact (SiteM.on_lift_eq_iff.1 ran).2
  rcases SiteM.on_bind_cases ran with ⟨e, failed, -⟩ | ⟨packages, checked, checking, ran⟩
  · exact .inl (by rw [checks failed])
  cases checks checking
  have tidies : ∀ {r : Except SplitError (List String)} {tidied : Site},
      (job.tidy source.layout.root).on shaded = (r, tidied) → after.tree = tidied.tree →
      after.tree = shaded.tree ∨ ∃ r₃ tidied,
        (job.toolchain.tidy source.layout.root).on shaded = (r₃, tidied) ∧
        after.tree = tidied.tree := by
    intro r tidied ran same
    rcases job.tidy_cases ran with rfl | ⟨r₃, tidying⟩
    · exact .inl same
    · exact .inr ⟨r₃, tidied, tidying, same⟩
  rcases SiteM.on_bind_cases ran with ⟨e, failed, -⟩ | ⟨untidy, tidied, tidying, ran⟩
  · exact tidies failed rfl
  refine tidies tidying ?_
  rcases SiteM.on_bind_cases ran with ⟨e, failed, -⟩ | ⟨_, warned, warning, ran⟩
  · exact job.tree_of_sayEach failed
  rcases SiteM.on_bind_cases ran with ⟨e, failed, -⟩ | ⟨_, timed, timing, ran⟩
  · cases failed
  cases timing
  rcases SiteM.on_bind_cases ran with ⟨e, failed, -⟩ | ⟨_, done, telling', ran⟩
  · rw [job.tree_of_sayIfVerbose failed, job.tree_of_sayEach warning]
  · cases ran
    rw [job.tree_of_sayIfVerbose telling', job.tree_of_sayEach warning]

/-- A run keeps to its output directory and cleans up after itself. However it ends, every file
outside of the output directory is the same as before, but for the log, and there is nothing at the
place of the workspace that was not there before the request for dependencies. The toolchain is
relied on to write only below the directory it is given, and not to take the place of the workspace
when it tidies; and closing a workspace is relied on to delete it. -/
theorem split_stays_inside {result : Except SplitError SplitReport}
    (valid : job.config.validate = .ok job.config) (quiet : job.pruner.LeavesTree)
    (keeps : job.toolchain.KeepsBelow) (inOrder : site.tree.InOrder)
    (closes : job.Closes input site)
    (elsewhere : ∀ work, site.tree.landing (Workspace.pathIn site.tree.base job.config.workDir
      job.suffix) = .ok work → ∀ root shaded r tidied,
        (job.toolchain.tidy root).on shaded = (r, tidied) → shaded.tree.find? work = none →
          tidied.tree.find? work = none)
    (ran : (job.split input).on site = (result, after)) :
    (∀ l content, ¬ job.Holds input site.tree l → site.tree.opened ≠ some l →
      (after.tree.find? l = some (.file content) ↔ site.tree.find? l = some (.file content))) ∧
      ∀ work, site.tree.landing (Workspace.pathIn site.tree.base job.config.workDir job.suffix) =
        .ok work → ((job.begin input).on site).2.tree.find? work = none →
          after.tree.find? work = none := by
  suffices whole : site.tree.Confined (job.Holds input site.tree) after.tree ∧
      ∀ work, site.tree.landing (Workspace.pathIn site.tree.base job.config.workDir job.suffix) =
        .ok work → ((job.begin input).on site).2.tree.find? work = none →
          after.tree.find? work = none from
    ⟨fun l content out other => whole.1.file_iff out other content, whole.2⟩
  obtain ⟨r, began, start, same | ⟨source, rfl, r', vendored, vendoring, rest⟩⟩ :=
    job.split_cases ran
  · rw [same, start]
    exact ⟨job.confined_of_begin quiet keeps inOrder start, fun _ _ free => free⟩
  have first := job.confined_of_begin quiet keeps inOrder start
  obtain ⟨rel, nonempty, words, thirdParty⟩ := job.exists_thirdParty valid start
  obtain ⟨read, reading⟩ := job.readSource_of_begin start
  have inside : ∀ l, (Region.under site.tree.base source.layout.root).holds l →
      job.Holds input site.tree l := fun l => job.holds_of_readSource reading
  have lands : source.layout.root.text ≠ [] →
      ∃ loc, (Tree.empty began.tree.base).landing source.layout.root = .ok loc := by
    rw [first.base]
    exact job.lands_of_begin start
  obtain ⟨second, gone⟩ := job.confined_of_vendor keeps first.inOrder nonempty words
    thirdParty lands (fun need told telling => closes source began told start need telling)
    vendoring
  rw [first.base] at second gone
  have through := first.trans (second.mono inside)
  have vacant : ∀ work, site.tree.landing (Workspace.pathIn site.tree.base job.config.workDir
      job.suffix) = .ok work → ((job.begin input).on site).2.tree.find? work = none →
        vendored.tree.find? work = none := by
    intro work landed free
    rw [start] at free
    exact gone work (by rwa [Tree.landing_congr first.base]) free
  rcases rest with same | ⟨told, shaded, r'', tell, shades, rest⟩
  · rw [same]
    exact ⟨through, vacant⟩
  have third := job.contains_shade site.tree.base source.layout.root source.layout.importPrefix told
    (by rw [tell]; exact through.base) (by rw [tell]; exact through.inOrder)
  have matched := job.matches_shade source.layout.root source.layout.importPrefix told
  rw [shades, tell] at third matched
  have through' := through.trans (third.mono inside)
  rcases rest with same | ⟨r₃, tidied, tidying, same⟩
  · rw [same]
    exact ⟨through', fun work landed free => matched.missing.2 (vacant work landed free)⟩
  · have fourth := keeps.tidy site.tree.base source.layout.root shaded through'.base
      through'.inOrder
    rw [tidying] at fourth
    rw [same]
    refine ⟨through'.trans (fourth.mono inside), fun work landed free => ?_⟩
    exact elsewhere work landed _ _ _ _ tidying (matched.missing.2 (vacant work landed free))

/-! ### A run that fails -/

/-- Writes a file into a directory that is there. -/
def writeInto (dir : Path) (name text : Text) : RunM Unit := do
  if ← SiteM.look fun tree => tree.isDir dir then
    Site.change (dir.join name) fun tree => tree.writeText (dir.join name) text

theorem contains_writeInto {name : Text} (word : Tree.IsWord name) (base : Text) (dir : Path)
    (text : Text) : (Region.under base dir).Contains (writeInto dir name text) := by
  refine (Region.Contains.look _).bind fun there site _ same _ looked => ?_
  cases looked
  split
  · next there =>
    obtain ⟨loc, located, -⟩ := Tree.isDir_iff.1 there
    have landed : (Tree.empty base).landing dir = .ok loc := by
      have congr : site.tree.landing dir = (Tree.empty base).landing dir :=
        Tree.landing_congr same dir
      exact congr.symm.trans (Tree.locate_iff_landing.1 located).1
    have owns : (Region.under base dir).Owns (dir.join name) :=
      @Region.owns_pathIn base dir [name] (fun _ => ⟨loc, landed⟩)
        (List.forall_mem_singleton.2 word)
    exact .change fun tree tree' same inOrder ran =>
      Region.confined_writeBytes owns same inOrder ran
  · exact .pure _

/-- A toolchain that names a module and fails to find its dependencies half way. -/
def offline : Toolchain where
  init dir name := writeInto dir Toolchain.goMod ("module ".toList ++ name)
  vendor _ out := do
    Site.makeDirs out
    writeInto out Manifest.fileName []
    throw (.toolchain "go mod vendor".toList "no network")
  tidy _ := pure ()

theorem keepsBelow_offline : offline.KeepsBelow where
  init base dir _ := contains_writeInto (by decide : Tree.IsName Toolchain.goMod).isWord base dir _
  vendor base _ out := (Region.Contains.makeDirs out).bind_const fun _ =>
    (contains_writeInto (by decide : Tree.IsName Manifest.fileName).isWord base out _).bind_const
      fun _ => .throw _
  tidy _ _ := .pure _

def offlineJob : Job :=
  ⟨{ Config.default with outputDir := some ⟨"out".toList⟩ }, offline, .usage .dotted, ['x']⟩

/-- A source with a dependency. -/
def dependentSource : Text :=
  "package a\n\nimport \"example.com/q\"\n\nfunc F() \x7b q.G() \x7d\n".toList

def dependentSite : Site :=
  .start
    { Tree.empty ['/', 'w'] with entries := [(["a.go".toList], .file (.ofText dependentSource))] } 0

theorem offlineJob_closes : offlineJob.Closes ⟨"a.go".toList⟩ dependentSite := by
  intro source began told start _ telling
  have quiet := (Pruner.steady_usage .dotted).quiet
  have inOrder : dependentSite.tree.InOrder := ⟨by decide, fun _ isOpen => by cases isOpen⟩
  have confined := offlineJob.confined_of_begin quiet keepsBelow_offline inOrder start
  obtain ⟨read, reading⟩ := offlineJob.readSource_of_begin start
  obtain ⟨_, -, -, layout, -, -⟩ := offlineJob.readSource_eq_ok reading
  have tree := offlineJob.tree_of_sayIfVerbose telling
  have base : told.tree.base = (Tree.empty ['/', 'w']).base := by
    rw [tree]
    exact confined.base
  have thirdParty : source.layout.thirdParty =
      Tree.pathIn ⟨"out".toList⟩ ["third_party".toList] := by
    rw [layout]
    rfl
  rw [thirdParty]
  refine Workspace.closes_of_apart keepsBelow_offline (by rw [tree]; exact confined.inOrder)
    (by decide) (by decide)
    (List.forall_mem_singleton.2 (by decide : Tree.IsName "third_party".toList).isWord)
    fun new l landed place => ?_
  rw [Tree.landing_congr base] at landed
  rw [Tree.landing_congr base, Tree.passed_congr base, base] at place
  have subtree : (Tree.empty ['/', 'w']).landing
      (Tree.pathIn ⟨"out".toList⟩ ["third_party".toList]) =
      .ok ["out".toList, "third_party".toList] := by
    decide +kernel
  have workspace : (Tree.empty ['/', 'w']).landing (Workspace.pathIn ['/', 'w'] ⟨['.']⟩ ['x']) =
      .ok [".go-splitter-vendor-x".toList] := by
    decide +kernel
  have way : ∀ l ∈ (Tree.empty ['/', 'w']).passed (Workspace.pathIn ['/', 'w'] ⟨['.']⟩ ['x']),
      l = [] := by
    decide +kernel
  cases subtree.symm.trans landed
  rcases place with mem | here
  · rw [way l mem]
    simp
  · cases workspace.symm.trans here
    decide

theorem split_stays_inside_sample :
    ∃ e after, (offlineJob.split ⟨"a.go".toList⟩).on dependentSite = (.error e, after) ∧
      after.tree.isFile ⟨"out/go.mod".toList⟩ = true ∧
      after.tree.find? ["a.go".toList] = some (.file (.ofText dependentSource)) ∧
      after.tree.find? [".go-splitter-vendor-x".toList] = none := by
  have failed : (match (offlineJob.split ⟨"a.go".toList⟩).on dependentSite with
      | (.error _, after) => after.tree.isFile ⟨"out/go.mod".toList⟩
      | (.ok _, _) => false) = true := by
    decide +kernel
  have free : ((offlineJob.begin ⟨"a.go".toList⟩).on dependentSite).2.tree.find?
      [".go-splitter-vendor-x".toList] = none := by
    decide +kernel
  have inOrder : dependentSite.tree.InOrder := ⟨by decide, fun _ isOpen => by cases isOpen⟩
  rcases ran : (offlineJob.split ⟨"a.go".toList⟩).on dependentSite with ⟨e | report, after⟩
  · rw [ran] at failed
    obtain ⟨outside, gone⟩ := offlineJob.split_stays_inside rfl (Pruner.steady_usage .dotted).quiet
      keepsBelow_offline inOrder offlineJob_closes
        (fun _ _ _ _ _ _ tidied free => by cases tidied; exact free) ran
    refine ⟨e, after, rfl, failed, ?_, gone _ (by decide +kernel) free⟩
    refine (outside _ _ ?_ (by simp [dependentSite, Site.start, Tree.empty])).2 (by decide +kernel)
    rintro ⟨src, package, -, -, empty | ⟨loc, landed, within⟩⟩
    · cases empty
    · have place : (Tree.empty ['/', 'w']).landing ⟨"out".toList⟩ = .ok ["out".toList] := by
        decide +kernel
      cases place.symm.trans landed
      revert within
      decide
  · rw [ran] at failed
    cases failed

end Job

end GoSplit
