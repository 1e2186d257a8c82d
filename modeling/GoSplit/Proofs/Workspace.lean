import GoSplit.Proofs.Bucket.Outcome
import GoSplit.Proofs.Relocation.SideBySide

/-!
Vendoring in two trees. The workspace is new in both, so that what the toolchain copies there is
all there is; the old private subtree is dropped before the modules are moved. With the same
dependencies in both workspaces, both private subtrees come to be the same.
-/

namespace GoSplit

/-- Whether a location is named like a Go file. -/
def Location.IsGo (loc : Location) : Prop :=
  ∃ name, loc.getLast? = some name ∧ (Path.splitExtension name).2 = some "go".toList

/-- What a request to the toolchain spares: except in some places no directory goes away, and no
Go file is touched but the log. -/
structure Tree.Spares (except : Location → Prop) (tree tree' : Tree) : Prop where
  stays : tree.Stays tree'
  inOrder : tree.InOrder → tree'.InOrder
  directory : ∀ l, ¬ except l → tree.find? l = some .directory → tree'.find? l = some .directory
  source : ∀ l content, ¬ except l → Location.IsGo l → tree.opened ≠ some l →
    (tree'.find? l = some (.file content) ↔ tree.find? l = some (.file content))

namespace Tree.Spares

variable {except : Location → Prop} {tree tree' tree'' : Tree}

theorem refl (except : Location → Prop) (tree : Tree) : tree.Spares except tree :=
  ⟨⟨rfl, rfl, rfl, rfl⟩, id, fun _ _ => id, fun _ _ _ _ _ => Iff.rfl⟩

theorem trans (h : tree.Spares except tree') (h' : tree'.Spares except tree'') :
    tree.Spares except tree'' := by
  refine ⟨h.stays.trans h'.stays, h'.inOrder ∘ h.inOrder,
    fun l out found => h'.directory l out (h.directory l out found),
    fun l content out isGo log => ?_⟩
  rw [h'.source l content out isGo (by rwa [h.stays.opened]), h.source l content out isGo log]

theorem of_makeDirs (except : Location → Prop) {path : Path} {result : Except IoError Unit}
    (ran : (Tree.makeDirs path).on tree = (result, tree')) : tree.Spares except tree' := by
  have grown := Tree.makeDirs_grown ran
  refine ⟨⟨grown.base, grown.mounts, grown.refuses, grown.opened⟩,
    fun inOrder => inOrder.makeDirs ran, fun l _ => grown.directory, fun l content _ _ _ => ?_⟩
  rcases grown.find l with same | ⟨-, free, made⟩
  · rw [same]
  · rw [free, made]
    simp

/-- A file is written in one of the places, or is no Go file. -/
theorem of_writeBytes {path : Path} {content : Content}
    (ran : tree.writeBytes path content = .ok tree')
    (place : ∀ loc, tree.landing path = .ok loc → loc ≠ [] → except loc ∨ ¬ Location.IsGo loc) :
    tree.Spares except tree' := by
  obtain ⟨loc, landed, free, rfl, keeps⟩ := Tree.writeBytes_eq_ok ran
  have rewritten := Tree.rewritten_put free content
  refine ⟨rewritten.stays, keeps, fun l _ => (rewritten.directory l).2, fun l text out isGo _ => ?_⟩
  rw [rewritten.same l]
  rintro rfl
  have below : l ≠ [] := by
    rintro rfl
    simp at free
  exact (place l landed below).elim out fun other => other isGo

end Tree.Spares

/-- Directories that stay can still be reached. -/
theorem Tree.isDir_of_directories {tree tree' : Tree} (base : tree'.base = tree.base)
    (kept : ∀ l, tree.find? l = some .directory → tree'.find? l = some .directory) {path : Path}
    (there : tree.isDir path = true) : tree'.isDir path = true := by
  obtain ⟨loc, located, directory⟩ := isDir_iff.1 there
  obtain ⟨landed, passed⟩ := locate_iff_landing.1 located
  refine isDir_iff.2 ⟨loc, locate_iff_landing.2 ⟨by rwa [landing_congr base], fun l mem => ?_⟩,
    kept loc directory⟩
  rw [passed_congr base] at mem
  exact kept l (passed l mem)

/-- Asked for the dependencies of a module, the toolchain keeps to the workspace. -/
def Toolchain.KeepsToWorkspace (toolchain : Toolchain) (workDir : Path) : Prop :=
  ∀ (workspace : Workspace) (site after : Site) (loc : Location),
    (toolchain.vendor workDir workspace.vendored).on site = (.ok (), after) →
    site.tree.landing workspace.dir = .ok loc → site.tree.Spares (loc <+: ·) after.tree

/-- Naming and tidying the module of a layout touches no Go file, nothing below the private
subtree and no directory. -/
structure Toolchain.SparesSources (toolchain : Toolchain) (layout : Layout) : Prop where
  init : ∀ name (site after : Site), (toolchain.init layout.root name).on site = (.ok (), after) →
    site.tree.Spares (fun _ => False) after.tree
  tidy : ∀ (site after : Site) result, (toolchain.tidy layout.root).on site = (result, after) →
    ∀ l content, (Location.IsGo l ∨ ∃ new, site.tree.landing layout.thirdParty = .ok new ∧
      new <+: l) →
      site.tree.opened ≠ some l →
      (after.tree.find? l = some (.file content) ↔ site.tree.find? l = some (.file content))

namespace Workspace

theorem names_vendored (workspace : Workspace) : workspace.vendored.Names "vendor".toList :=
  Tree.names_pathIn (List.forall_mem_singleton.2 (by decide : Tree.IsName "vendor".toList).isWord)
    rfl

/-- What is beneath the vendored tree lies below the workspace. -/
theorem prefix_of_vendored {workspace : Workspace} {tree : Tree} {path : Path} {loc l : Location}
    (landed : tree.landing workspace.dir = .ok loc) (below : loc ≠ [])
    (beneath : path.Beneath workspace.vendored) (landed' : tree.landing path = .ok l) :
    loc ++ ["vendor".toList] <+: l := by
  have proper : ∀ name ∈ ["vendor".toList], Tree.IsName name := by decide
  obtain ⟨names, found, land⟩ := Tree.landing_eq_ok_iff.1 landed
  obtain ⟨front, found', land', -⟩ :=
    Tree.exists_names?_pathIn (Tree.namesOf_eq_ok_iff.1 found).2 land
    below (List.cons_ne_nil _ _) fun name mem => (proper name mem).isWord
  refine Tree.prefix_of_beneath beneath found' ?_ (by simp) landed'
  rw [Tree.land_append land', Tree.land_of_isName proper]

variable {workspace : Workspace} {workDir : Path} {suffix : Text} {site after : Site}

theorem create_eq_ok (ran : (create workDir suffix).on site = (.ok workspace, after)) :
    workspace = ⟨pathIn site.tree.base workDir suffix⟩ ∧
      ∃ made, site.tree.makeDir workspace.dir = .ok made ∧ made.Quiet after.tree := by
  obtain ⟨base, looked, looking, ran⟩ := SiteM.on_bind_eq_ok_iff.1 ran
  cases looking
  obtain ⟨_, made, making, ran⟩ := SiteM.on_bind_eq_ok_iff.1 ran
  obtain ⟨_, noted, noting, ran⟩ := SiteM.on_bind_eq_ok_iff.1 ran
  cases ran
  obtain ⟨tree, changed, rfl⟩ := Site.on_files_eq_ok_iff.1 making
  refine ⟨rfl, tree, ?_, .note noting⟩
  rw [FileM.on_change] at changed
  split at changed
  · next eq =>
    cases changed
    exact eq
  · cases changed

/-- A workspace that was made in a tree, at a place where nothing was. -/
structure Created (workspace : Workspace) (loc : Location) (tree created : Tree) : Prop where
  stays : tree.Stays created
  inOrder : created.InOrder
  landed : tree.landing workspace.dir = .ok loc
  below : loc ≠ []
  fresh : ∀ l, loc <+: l → tree.find? l = none
  way : ∀ l ∈ tree.passed workspace.dir, tree.find? l = some .directory ∨ l = loc
  there : created.find? loc = some .directory
  directory : ∀ l, tree.find? l = some .directory → created.find? l = some .directory
  same : ∀ l, l ≠ loc → tree.opened ≠ some l → created.find? l = tree.find? l

theorem exists_created (inOrder : site.tree.InOrder)
    (ran : (create workDir suffix).on site = (.ok workspace, after)) :
    workspace = ⟨pathIn site.tree.base workDir suffix⟩ ∧
      ∃ loc, workspace.Created loc site.tree after.tree := by
  obtain ⟨eq, made, makes, quiet⟩ := create_eq_ok ran
  obtain ⟨dir, name, loc, entered, stepped, free, rfl⟩ := Tree.makeDir_eq_ok makes
  obtain ⟨landed, way⟩ := Tree.landing_of_enter entered stepped
  obtain ⟨below, above, names⟩ := inOrder.sound.entered entered stepped (by simp [free])
  have fresh : ∀ l, loc <+: l → site.tree.find? l = none := by
    intro l within
    cases found : site.tree.find? l with
    | none => rfl
    | some node =>
      by_cases here : loc = l
      · rw [← here, free] at found
        cases found
      · rw [inOrder.sound.closed.directory found within here] at free
        cases free
  have elsewhere : ∀ l, l ≠ loc → (site.tree.put loc .directory).find? l = site.tree.find? l := by
    intro l other
    rw [Tree.find?_put below, if_neg other]
  have put : (site.tree.put loc .directory).InOrder := by
    refine inOrder.keep (inOrder.sound.put below above names (.inl rfl)) rfl
      fun l content _ found => ⟨content, ?_⟩
    rw [elsewhere l, found]
    rintro rfl
    rw [free] at found
    cases found
  refine ⟨eq, loc, ⟨⟨quiet.rewritten.base, quiet.rewritten.mounts, quiet.rewritten.refuses,
    quiet.rewritten.opened⟩, quiet.inOrder put, landed, below, fresh, way, ?_, fun l found => ?_,
    fun l other log => ?_⟩⟩
  · rw [quiet.rewritten.directory, Tree.find?_put below, if_pos rfl]
  · rw [quiet.rewritten.directory, elsewhere l, found]
    rintro rfl
    rw [free] at found
    cases found
  · rw [quiet.rewritten.same l log, elsewhere l other]

/-- A new workspace with the dependencies of a module. -/
def stock (toolchain : Toolchain) (workDir : Path) (suffix : Text) : RunM Workspace := do
  let workspace ← create workDir suffix
  toolchain.vendor workDir workspace.vendored
  return workspace

/-- A workspace that was made in a tree, with what the toolchain has copied there since. -/
structure Stocked (workspace : Workspace) (loc : Location) (tree stocked : Tree) : Prop where
  stays : tree.Stays stocked
  inOrder : stocked.InOrder
  landed : tree.landing workspace.dir = .ok loc
  below : loc ≠ []
  /-- Nothing was there before. -/
  fresh : ∀ l node, loc <+: l → tree.find? l ≠ some node
  way : ∀ l ∈ tree.passed workspace.dir, tree.find? l = some .directory ∨ l = loc
  directory : ∀ l, tree.find? l = some .directory → stocked.find? l = some .directory
  source : ∀ l content, ¬ loc <+: l → Location.IsGo l → tree.opened ≠ some l →
    (stocked.find? l = some (.file content) ↔ tree.find? l = some (.file content))

theorem exists_stocked {toolchain : Toolchain} (inOrder : site.tree.InOrder)
    (keeps : toolchain.KeepsToWorkspace workDir)
    (ran : (stock toolchain workDir suffix).on site = (.ok workspace, after)) :
    workspace = ⟨pathIn site.tree.base workDir suffix⟩ ∧
      ∃ loc, workspace.Stocked loc site.tree after.tree := by
  obtain ⟨_, made, making, ran⟩ := SiteM.on_bind_eq_ok_iff.1 ran
  obtain ⟨_, copied, copying, ran⟩ := SiteM.on_bind_eq_ok_iff.1 ran
  cases ran
  obtain ⟨eq, loc, created⟩ := exists_created inOrder making
  have fresh : ∀ l node, loc <+: l → site.tree.find? l ≠ some node := by
    intro l node within
    simp [created.fresh l within]
  have spares := keeps workspace made after loc copying
    (by rw [Tree.landing_congr created.stays.base, created.landed])
  refine ⟨eq, loc, ⟨created.stays.trans spares.stays, spares.inOrder created.inOrder,
    created.landed, created.below, fresh, created.way, fun l found => ?_,
    fun l content out isGo log => ?_⟩⟩
  · exact spares.directory l (fun within => fresh l _ within found) (created.directory l found)
  · rw [spares.source l content out isGo (by rwa [created.stays.opened]), created.same l _ log]
    rintro rfl
    exact out List.prefix_rfl

end Workspace

/-- The steps of vendoring, when all went well. -/
theorem vendorDependencies_eq_ok {toolchain : Toolchain} {suffix : Text} {workDir thirdParty : Path}
    {site after : Site} {report : RelocationReport}
    (ran : (vendorDependencies toolchain suffix workDir thirdParty).on site = (.ok report, after)) :
    ∃ workspace copied manifest line dropped made moved,
      (Workspace.stock toolchain workDir suffix).on site = (.ok workspace, copied) ∧
      Manifest.load copied.tree workspace.manifestPath = .ok manifest ∧
      (Relocation.dropOld thirdParty).on (copied.noted line) = (.ok (), dropped) ∧
      (Tree.makeDirs thirdParty).on dropped.tree = (.ok (), made) ∧
      (Relocation.moveAll manifest workspace.vendored thirdParty).on { dropped with tree := made } =
        (.ok report, moved) ∧
      (Tree.removeDirs workspace.dir).on moved.tree = (.ok (), after.tree) := by
  obtain ⟨workspace, created, making, ran⟩ := SiteM.on_bind_eq_ok_iff.1 ran
  obtain ⟨result, vendored, trying, ran⟩ := SiteM.on_bind_eq_ok_iff.1 ran
  rw [SiteM.on_attempt, Prod.mk.injEq, Except.ok.injEq] at trying
  cases result with
  | error e =>
    obtain ⟨_, _, -, ran⟩ := SiteM.on_bind_eq_ok_iff.1 ran
    cases ran
  | ok report' =>
    have vendoring : (vendorFrom toolchain workspace workDir thirdParty).on created =
        (.ok report', vendored) := Prod.ext trying.1 trying.2
    obtain ⟨_, closed, closing, ran⟩ := SiteM.on_bind_eq_ok_iff.1 ran
    cases ran
    obtain ⟨tree, removing, rfl⟩ := Site.on_files_eq_ok_iff.1 closing
    obtain ⟨_, copied, copying, vendoring⟩ := SiteM.on_bind_eq_ok_iff.1 vendoring
    obtain ⟨_, looked, looking, vendoring⟩ := SiteM.on_bind_eq_ok_iff.1 vendoring
    cases looking
    obtain ⟨manifest, lifted, lifting, vendoring⟩ := SiteM.on_bind_eq_ok_iff.1 vendoring
    obtain ⟨loaded, rfl⟩ := SiteM.on_lift_eq_iff.1 lifting
    obtain ⟨_, noted, noting, relocating⟩ := SiteM.on_bind_eq_ok_iff.1 vendoring
    cases noting
    rw [Relocation.relocate_eq] at relocating
    obtain ⟨_, dropped, dropping, relocating⟩ := SiteM.on_bind_eq_ok_iff.1 relocating
    obtain ⟨_, _, renewing, moving⟩ := SiteM.on_bind_eq_ok_iff.1 relocating
    obtain ⟨made, makes, rfl⟩ := Site.on_files_eq_ok_iff.1 renewing
    refine ⟨workspace, copied, manifest, _, dropped, made, vendored, ?_, loaded, dropping, makes,
      moving, removing⟩
    exact SiteM.on_bind_eq_ok_iff.2 ⟨_, _, making, SiteM.on_bind_eq_ok_iff.2 ⟨_, _, copying, rfl⟩⟩

/-! ### Two trees -/

/-- A tree and its counterpart in another run: the output directory is there in both, and the Go
files at some places of it are the same. -/
structure Tree.Counterparts (root : Path) (loc : Location) (places : Location → Prop)
    (tree tree' : Tree) : Prop where
  stays : tree.Stays tree'
  inOrder : tree.InOrder
  inOrder' : tree'.InOrder
  landed : tree.landing root = .ok loc
  below : loc ≠ []
  there : tree.isDir root = true
  there' : tree'.isDir root = true
  log : ∀ l, tree.opened = some l → ¬ loc <+: l
  source : ∀ l, places l → loc <+: l ∧ Location.IsGo l
  file : ∀ l content, places l →
    (tree'.find? l = some (.file content) ↔ tree.find? l = some (.file content))

namespace Tree.Counterparts

variable {root : Path} {loc : Location} {places : Location → Prop} {tree tree' : Tree}

/-- A view that takes in the same files and more, out of which the log stays. -/
def view (h : tree.Counterparts root loc places tree') (all : Location → Prop)
    (apart : ∀ l, tree.opened = some l → ¬ all l) : View where
  base := tree.base
  all := all
  files := places
  logs l := tree.opened = some l
  apart l isOpen := ⟨apart l isOpen, fun place => h.log l isOpen (h.source l place).1⟩

end Tree.Counterparts

variable {root : Path} {loc rel new : Location} {places : Location → Prop} {tree tree' : Tree}

namespace Workspace.Stocked

variable {workspace : Workspace} {work : Location} {stocked stocked' : Tree}

/-- The workspace and the way there. -/
def Around (tree : Tree) (workspace : Workspace) (work : Location) (l : Location) : Prop :=
  l ∈ tree.passed workspace.dir ∨ work <+: l

theorem not_log (h : workspace.Stocked work tree stocked) (inOrder : tree.InOrder) {l : Location}
    (isOpen : tree.opened = some l) : ¬ Around tree workspace work l := by
  obtain ⟨content, found⟩ := inOrder.log l isOpen
  rintro (mem | within)
  · rcases h.way l mem with directory | rfl
    · rw [found] at directory
      cases directory
    · exact h.fresh l _ List.prefix_rfl found
  · exact h.fresh l _ within found

/-- Two trees with the same dependencies in their workspaces look the same around these. -/
theorem same (h : tree.Counterparts root loc places tree')
    (first : workspace.Stocked work tree stocked) (second : workspace.Stocked work tree' stocked')
    (copies : ∀ l, work <+: l → stocked'.find? l = stocked.find? l) :
    (h.view (Around tree workspace work) fun _ => first.not_log h.inOrder).Same stocked
      stocked' := by
  refine ⟨first.stays.base, second.stays.base.trans h.stays.base,
    by rw [second.stays.mounts, h.stays.mounts, first.stays.mounts],
    by rw [second.stays.refuses, h.stays.refuses, first.stays.refuses], first.inOrder.sound,
    second.inOrder.sound, fun l around => ?_, fun l content place => ?_, fun l isOpen => ?_,
    fun l isOpen => ?_⟩
  · rcases around with mem | within
    · rcases first.way l mem with directory | rfl
      · have mem' : l ∈ tree'.passed workspace.dir := by rwa [Tree.passed_congr h.stays.base]
        rcases second.way l mem' with directory' | rfl
        · rw [first.directory l directory, second.directory l directory']
        · exact copies l List.prefix_rfl
      · exact copies l List.prefix_rfl
    · exact copies l within
  · by_cases within : work <+: l
    · rw [copies l within]
    · obtain ⟨inside, isGo⟩ := h.source l place
      have log : tree.opened ≠ some l := fun isOpen => h.log l isOpen inside
      rw [second.source l content within isGo (by rwa [h.stays.opened]), h.file l content place,
        first.source l content within isGo log]
  · rw [first.stays.opened] at isOpen
    exact isOpen
  · rw [second.stays.opened, h.stays.opened] at isOpen
    exact isOpen

end Workspace.Stocked

/-- A manifest is the same where the tree looks the same. -/
theorem Manifest.load_congr {view : View} {path : Path} (same : view.Same tree tree')
    (covers : view.Covers path) : Manifest.load tree' path = Manifest.load tree path := by
  rw [Manifest.load, Manifest.load, Tree.readText, Tree.readText, same.readBytes covers]

/-- A directory below the output directory is on no way that the log is on. -/
theorem Tree.Counterparts.not_log (h : tree.Counterparts root loc places tree')
    (words : ∀ name ∈ rel, IsWord name) (landed : tree.landing (pathIn root rel) = .ok new)
    {l : Location} (isOpen : tree.opened = some l) :
    ¬ (l ∈ tree.passed (pathIn root rel) ∨ new <+: l) := by
  obtain ⟨rfl, names⟩ := isName_of_landing_pathIn h.landed h.below words landed
  have outside := h.log l isOpen
  rintro (mem | within)
  · obtain ⟨parts, named, -⟩ := landing_eq_ok_iff.1 landed
    rcases mem_passed_pathIn h.landed h.below names (namesOf_eq_ok_iff.1 named).1 mem with
      mem | ⟨up, -, -, rfl⟩
    · obtain ⟨content, found⟩ := h.inOrder.log l isOpen
      obtain ⟨top, located, -⟩ := isDir_iff.1 h.there
      rw [(locate_iff_landing.1 located).2 l mem] at found
      cases found
    · exact outside (List.prefix_append ..)
  · exact outside ((List.prefix_append ..).trans within)

/-- A view that takes in what is below a directory of the output. -/
def Tree.Counterparts.viewBelow (h : tree.Counterparts root loc places tree')
    (words : ∀ name ∈ rel, IsWord name)
    (landed : tree.landing (pathIn root rel) = .ok new) : View :=
  h.view (fun l => new <+: l ∧ l ≠ new) fun _ isOpen within =>
    h.not_log words landed isOpen (.inr within.1)

variable {toolchain : Toolchain} {suffix : Text} {workDir : Path} {site site' after after' : Site}
  {report report' : RelocationReport}

/-- Once the dependencies are in the workspace, the private subtree is made anew. -/
theorem renewed_of_stocked {workspace : Workspace} {work : Location} {copied dropped : Site}
    {made : Tree} {line : String} (stocked : workspace.Stocked work tree copied.tree)
    (there : tree.isDir root = true) (landedRoot : tree.landing root = .ok loc) (below : loc ≠ [])
    (log : ∀ l, tree.opened = some l → ¬ loc <+: l) (nonempty : rel ≠ [])
    (words : ∀ name ∈ rel, Tree.IsWord name)
    (landed : tree.landing (Tree.pathIn root rel) = .ok new)
    (dropping : (Relocation.dropOld (Tree.pathIn root rel)).on (copied.noted line) =
      (.ok (), dropped))
    (makes : (Tree.makeDirs (Tree.pathIn root rel)).on dropped.tree = (.ok (), made)) :
    Relocation.Renewed new (tree.passed (Tree.pathIn root rel)) (copied.noted line).tree made := by
  have noted : copied.tree.Quiet (copied.noted line).tree := .append ..
  have stays := stocked.stays.trans noted.rewritten.stays
  have inOrder := noted.inOrder stocked.inOrder
  have there : (copied.noted line).tree.isDir root = true :=
    noted.rewritten.isDir (Tree.isDir_of_directories stocked.stays.base stocked.directory there)
  have landedRoot : (copied.noted line).tree.landing root = .ok loc := by
    rwa [Tree.landing_congr stays.base]
  have landedNew : (copied.noted line).tree.landing (Tree.pathIn root rel) = .ok new := by
    rwa [Tree.landing_congr stays.base]
  obtain ⟨eq, -⟩ := Tree.isName_of_landing_pathIn landedRoot below words landedNew
  rw [← Tree.passed_congr stays.base]
  refine Relocation.renewed inOrder landedNew (by simp [eq, nonempty]) ?_
    (fun l isOpen within => ?_)
    dropping makes
  · cases found : (copied.noted line).tree.find? new with
    | none => exact .inl rfl
    | some node =>
      have located := inOrder.sound.locate_pathIn there landedRoot below words landedNew found
      exact .inr (Tree.exists?_iff.2 ⟨new, node, located, found⟩)
  · rw [stays.opened] at isOpen
    rw [eq] at within
    exact log l isOpen ((List.prefix_append ..).trans within)

/-- When vendoring succeeds in both trees, with the same dependencies, the private subtrees come
to be the same, and the files that were the same still are. -/
theorem same_of_vendorDependencies (h : site.tree.Counterparts root loc places site'.tree)
    (keeps : toolchain.KeepsToWorkspace workDir) (nonempty : rel ≠ [])
    (words : ∀ name ∈ rel, Tree.IsWord name)
    (landed : site.tree.landing (Tree.pathIn root rel) = .ok new)
    (copies : ∀ workspace workspace' copied copied',
      (Workspace.stock toolchain workDir suffix).on site = (.ok workspace, copied) →
      (Workspace.stock toolchain workDir suffix).on site' = (.ok workspace', copied') →
      ∀ work, site.tree.landing workspace.dir = .ok work →
        ∀ l, work <+: l → copied'.tree.find? l = copied.tree.find? l)
    (ran : (vendorDependencies toolchain suffix workDir (Tree.pathIn root rel)).on site =
      (.ok report, after))
    (ran' : (vendorDependencies toolchain suffix workDir (Tree.pathIn root rel)).on site' =
      (.ok report', after')) :
    (h.viewBelow words landed).Same after.tree after'.tree := by
  obtain ⟨workspace, copied, manifest, line, dropped, made, moved, stocking, loaded,
    dropping, makes, moving, removing⟩ := vendorDependencies_eq_ok ran
  obtain ⟨workspace', copied', manifest', line', dropped', made', moved', stocking', loaded',
    dropping', makes', moving', removing'⟩ := vendorDependencies_eq_ok ran'
  -- Both workspaces have the same name.
  obtain ⟨eq, work, stocked⟩ := Workspace.exists_stocked h.inOrder keeps stocking
  obtain ⟨eq', work', stocked'⟩ := Workspace.exists_stocked h.inOrder' keeps stocking'
  rw [h.stays.base, ← eq] at eq'
  obtain rfl := eq'.symm
  have landedW := stocked'.landed
  rw [Tree.landing_congr h.stays.base, stocked.landed] at landedW
  cases landedW
  have same := Workspace.Stocked.same h stocked stocked'
    (copies _ _ _ _ stocking stocking' work stocked.landed)
  -- They hold the same manifest.
  have vendor : ∀ name ∈ ["vendor".toList], Tree.IsName name := by decide
  have named := workspace.names_vendored
  have takesIn : ∀ view : View, view.base = site.tree.base →
      (∀ l, Workspace.Stocked.Around site.tree workspace work l → view.all l) →
        view.TakesIn workspace.dir ∧ view.TakesIn workspace.vendored := by
    intro view base around
    have dir := View.takesIn_of_landing base.symm stocked.landed stocked.below
      (fun l mem => around l (.inl mem)) fun l within => around l (.inr within)
    exact ⟨dir, dir.pathIn (by simp) vendor⟩
  have manifests : manifest = manifest' := by
    have beneath : workspace.manifestPath.Beneath workspace.vendored :=
      Path.Beneath.join (.inl rfl) named.closed (by decide)
    have covers := ((takesIn (h.view _ fun _ => stocked.not_log h.inOrder) rfl fun l => id).2.owns
      beneath).covers
    rw [Manifest.load_congr same covers, loaded] at loaded'
    cases loaded'
    rfl
  subst manifests
  -- The old subtrees are gone, and the new ones look the same.
  have renewed := renewed_of_stocked stocked h.there h.landed h.below h.log nonempty words
    landed dropping makes
  have renewed' := renewed_of_stocked stocked' h.there'
    (by rw [Tree.landing_congr h.stays.base, h.landed])
    h.below (by rw [h.stays.opened]; exact h.log) nonempty words
    (by rw [Tree.landing_congr h.stays.base, landed]) dropping' makes'
  rw [Tree.passed_congr h.stays.base] at renewed'
  have apart : ∀ l, site.tree.opened = some l →
      ¬ (Workspace.Stocked.Around site.tree workspace work l ∨
        l ∈ site.tree.passed (Tree.pathIn root rel) ∨ new <+: l) :=
    fun l isOpen => not_or.2 ⟨stocked.not_log h.inOrder isOpen, h.not_log words landed isOpen⟩
  have made_same := Relocation.same_of_renewed (h.view _ apart) renewed renewed'
    (same.append _ _) rfl rfl
    rfl fun l => id
  -- Moving the modules, and removing the workspace, comes to the same.
  have around : ∀ l, Workspace.Stocked.Around site.tree workspace work l → (h.view _ apart).all l :=
    fun l => .inl
  obtain ⟨dir, vendored⟩ := takesIn (h.view _ apart) rfl around
  obtain ⟨place, names⟩ := Tree.isName_of_landing_pathIn h.landed h.below words landed
  have belowNew : new ≠ [] := by simp [place, nonempty]
  have thirdParty : (h.view _ apart).TakesIn (Tree.pathIn root rel) :=
    View.takesIn_of_landing rfl landed belowNew (fun l mem => .inr (.inl mem))
      fun l within => .inr (.inr within)
  have last : (Tree.pathIn root rel).Names (rel.getLast nonempty) :=
    Tree.names_pathIn words (List.getLast?_eq_some_getLast nonempty)
  have spans : (h.view _ apart).Spans workspace.vendored (Tree.pathIn root rel) workspace.vendored
      (Tree.pathIn root rel) :=
    ⟨vendored, thirdParty, named.closed, last.closed, .inl rfl, .inl rfl⟩
  obtain ⟨-, moved_same⟩ := Relocation.conforms_moveAll spans manifest { dropped with tree := made }
    { dropped' with tree := made' } made_same
  rw [moving, moving'] at moved_same
  obtain ⟨-, final⟩ := View.agrees_removeDirs (dir.owns (.inl rfl)) _ _ moved_same
  rw [removing, removing'] at final
  exact final.mono rfl (fun l within => .inr (.inr within.1)) (fun l => id) fun l => id

end GoSplit
