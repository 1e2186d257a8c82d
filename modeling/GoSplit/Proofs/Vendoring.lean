import GoSplit.Proofs.Shading.Finished
import GoSplit.Proofs.Tree.Ways
import GoSplit.Relocation
import Mathlib.Data.List.TakeWhile

/-!
Shaded imports and relocated packages meet. An import is moved to the namespace without its
leading slashes, a package to a directory named by its visible elements; both come to the
same place, so after shading no import of the namespace is without its package.
-/

namespace GoSplit

/-! ### Paths in the namespace -/

namespace ImportPath

/-- Leading slashes name no directory. -/
theorem directories_dropSlashes (path : Text) :
    directories (path.dropWhile (· == '/')) = directories path := by
  induction path with
  | nil => rfl
  | cons c path ih =>
    by_cases slash : c = '/'
    · subst slash
      rw [List.dropWhile_cons_of_pos (by simp), ih, directories, directories, segments, segments,
        Text.pieces, if_pos rfl, List.filter_cons_of_neg (by simp)]
    · rw [List.dropWhile_cons_of_neg (by simpa using slash)]

end ImportPath

namespace Shader

variable {shader : Shader} {tree : Tree} {thirdParty : Path}

/-- A moved import has its package where relocation puts it. -/
theorem isVendored_append {path : Text} (visible : ∃ c ∈ path, c ≠ '/') :
    shader.isVendored tree thirdParty (shader.space ++ '/' :: path.dropWhile (· == '/')) =
      tree.isDir (thirdParty.below path) := by
  have inner : (shader.space ++ ['/']).isPrefixOf?
      (shader.space ++ '/' :: path.dropWhile (· == '/')) =
      some (path.dropWhile (· == '/')) := by
    rw [List.isPrefixOf?_eq_some_iff_append_eq, List.append_assoc, List.singleton_append]
  have nonempty : path.dropWhile (· == '/') ≠ [] := by
    obtain ⟨c, mem, visible⟩ := visible
    intro empty
    rw [List.dropWhile_eq_nil_iff] at empty
    exact visible (beq_iff_eq.1 (empty c mem))
  rw [isVendored, inner, Option.getD_some, Path.below, ImportPath.directories_dropSlashes]
  simp only [List.isEmpty_eq_false_iff.2 nonempty, Bool.not_false, Bool.true_and]
  rfl

end Shader

/-! ### Relocated packages -/

/-- When relocation succeeds, every listed package is there. -/
theorem isDir_of_relocate {manifest : Manifest} {vendored thirdParty : Path} {site after : Site}
    {report : RelocationReport}
    (relocated : (relocate manifest vendored thirdParty).on site = (.ok report, after))
    {package : Text} (mem : package ∈ manifest.packages) :
    after.tree.isDir (thirdParty.below package) = true := by
  obtain ⟨-, dropped, -, relocated⟩ := SiteM.on_bind_eq_ok_iff.1 relocated
  obtain ⟨-, made, -, relocated⟩ := SiteM.on_bind_eq_ok_iff.1 relocated
  obtain ⟨-, noted, -, relocated⟩ := SiteM.on_bind_eq_ok_iff.1 relocated
  obtain ⟨modules, moved, -, relocated⟩ := SiteM.on_bind_eq_ok_iff.1 relocated
  obtain ⟨tree, looked, look, relocated⟩ := SiteM.on_bind_eq_ok_iff.1 relocated
  cases look
  dsimp only [id_eq] at relocated
  split at relocated
  · next none =>
    cases relocated
    rw [List.isEmpty_iff, List.append_eq_nil_iff, List.flatMap_eq_nil_iff] at none
    have fine := none.2 package mem
    rw [Relocation.packageProblems, List.append_eq_nil_iff] at fine
    by_contra absent
    rw [if_neg absent] at fine
    cases fine.2
  · cases relocated

/-! ### Complete trees -/

namespace Shader

variable {shader : Shader} {root thirdParty : Path}

/-- What the Go files below a root import: nothing from the namespace yet, and of what is
external only the packages given, none of them by slashes alone. -/
def ImportsFrom (shader : Shader) (tree : Tree) (root : Path) (packages : List Text) : Prop :=
  ∀ loc rel content src file, tree.locate root = .ok loc → tree.GoFile root loc rel content →
    content.text? = some src → SourceFile.ofSource src = .ok file →
    ∀ spec ∈ file.importSpecs, ImportPath.isUnder spec.path shader.space = false ∧
      (shader.classifier.classify spec.path shader.space = .externalCanonical →
        spec.path ∈ packages ∧ ∃ c ∈ spec.path, c ≠ '/')

/-- The imports of a shaded file that lie in the namespace are those that were moved. -/
theorem Shades.moved_of_isUnder {old new : SourceFile} (h : shader.Shades old new)
    (fresh : ∀ spec ∈ old.importSpecs, ImportPath.isUnder spec.path shader.space = false)
    {spec' : ImportSpec} (mem : spec' ∈ new.importSpecs)
    (under : ImportPath.isUnder spec'.path shader.space = true) :
    ∃ spec ∈ old.importSpecs, shader.moves spec = true ∧
      spec'.path = shader.space ++ '/' :: spec.path.dropWhile (· == '/') := by
  have specs := h.specs
  generalize new.importSpecs = specs' at specs mem
  generalize old.importSpecs = specs₀ at specs fresh
  induction specs with
  | nil => cases mem
  | @cons first' first _ _ here _ ih =>
    obtain ⟨before, others⟩ := List.forall_mem_cons.1 fresh
    rcases List.mem_cons.1 mem with rfl | mem
    · obtain ⟨-, -, -, path⟩ := here
      by_cases moves : shader.moves first = true
      · rw [if_pos moves] at path
        exact ⟨first, List.mem_cons_self .., moves, path⟩
      · rw [if_neg moves] at path
        rw [path, before] at under
        cases under
    · obtain ⟨spec, memSpec, rest⟩ := ih mem others
      exact ⟨spec, List.mem_cons_of_mem _ memSpec, rest⟩

/-- The imports of a file from the namespace whose packages are not there. -/
def absent (shader : Shader) (tree : Tree) (thirdParty : Path) (file : SourceFile) : List Text :=
  ((file.importSpecs.map (·.path)).filter fun p => ImportPath.isUnder p shader.space).filter
    fun p => !shader.isVendored tree thirdParty p

/-- A file that parses is checked. -/
theorem missingIn_eq_ok {tree : Tree} {path : Path} {l : Location} {content : Content}
    (located : tree.locate path = .ok l) (found : tree.find? l = some (.file content)) {src : Text}
    (decoded : content.text? = some src) {file : SourceFile}
    (parsed : SourceFile.ofSource src = .ok file) :
    shader.missingIn tree thirdParty path =
      .ok ((shader.absent tree thirdParty file).map (MissingPackage.mk path)) := by
  simp only [missingIn, readText_eq_ok_iff.2 ⟨l, content, located, found, decoded⟩,
    SourceFile.parse_eq_ok_iff.2 parsed, Except.mapError, Bind.bind, Except.bind]
  rfl

/-- When every file can be checked, so can the tree. -/
theorem missingPackages_eq_ok {tree : Tree} {paths : List Path}
    (collected : tree.filesToShade root = .ok paths) {missing : Path → List MissingPackage}
    (all : ∀ path ∈ paths, shader.missingIn tree thirdParty path = .ok (missing path)) :
    shader.missingPackages tree root thirdParty =
      .ok ((paths.flatMap missing).mergeSort MissingPackage.le).eraseDups := by
  have each : paths.mapM (shader.missingIn tree thirdParty) = .ok (paths.map missing) := by
    clear collected
    induction paths with
    | nil => rfl
    | cons path rest ih =>
      obtain ⟨first, others⟩ := List.forall_mem_cons.1 all
      rw [List.mapM_cons, first, ih others]
      rfl
  simp only [missingPackages, collected, each, Bind.bind, Except.bind, List.flatMap]
  rfl

/-- A tree that was shaded without failures can be checked. -/
theorem exists_missingPackages (proper : shader.Proper) {site after : Site}
    (walkable : site.tree.Walkable root) (plain : PlainFiles site.tree root) {report : ShadeReport}
    (walks : shader.Walks root site (.ok report) after) (clean : report.failures = [])
    (thirdParty : Path) :
    ∃ missing, shader.missingPackages after.tree root thirdParty = .ok missing := by
  obtain ⟨paths, collected, all, through⟩ := walks.all_through walkable clean
  have walkable' := through.walkable walkable
  obtain ⟨paths', collected'⟩ :=
    through.exists_filesToShade walkable.sound walkable'.sound collected
  obtain ⟨loc, node, found, -, mem⟩ := Tree.filesToShade_eq_ok walkable'.sound collected'
  have located := (Tree.lookup_eq_ok_iff.1 found).1
  rw [through.locate] at located
  have checked : ∀ path ∈ paths', ∃ missing,
      shader.missingIn after.tree thirdParty path = .ok missing := by
    intro path memP
    obtain ⟨rel, content, rfl, file⟩ := (mem path).1 memP
    obtain ⟨here, src, parsed, decoded, parses, -⟩ :=
      through.settled proper walkable plain collected all located file
    exact ⟨_, missingIn_eq_ok here file.found decoded (SourceFile.parse_eq_ok_iff.1 parses)⟩
  choose! missing each using checked
  exact ⟨_, missingPackages_eq_ok collected' each⟩

/-- When the modules were moved and the files below the root import nothing but listed
packages, every shaded import has its package in the private subtree. -/
theorem missingPackages_eq_nil (proper : shader.Proper) {manifest : Manifest} {vendored : Path}
    {start site after : Site} {relocation : RelocationReport}
    (relocated : (relocate manifest vendored thirdParty).on start = (.ok relocation, site))
    (walkable : site.tree.Walkable root) (plain : PlainFiles site.tree root)
    (imports : shader.ImportsFrom site.tree root manifest.packages) {report : ShadeReport}
    (walks : shader.Walks root site (.ok report) after) (clean : report.failures = []) :
    shader.missingPackages after.tree root thirdParty = .ok [] := by
  obtain ⟨paths, collected, all, through⟩ := walks.all_through walkable clean
  have walkable' := through.walkable walkable
  obtain ⟨paths', collected'⟩ :=
    through.exists_filesToShade walkable.sound walkable'.sound collected
  obtain ⟨loc, node, found, -, mem⟩ := Tree.filesToShade_eq_ok walkable'.sound collected'
  have located := (Tree.lookup_eq_ok_iff.1 found).1
  rw [through.locate] at located
  have complete : ∀ path ∈ paths', shader.missingIn after.tree thirdParty path = .ok [] := by
    intro path memP
    obtain ⟨rel, content, rfl, file⟩ := (mem path).1 memP
    obtain ⟨here, before, src, src', old, new, file', decoded, decoded', parsed, parsed', shades⟩ :=
      through.exists_shades proper walkable plain collected all located file
    have imported := imports loc rel before src old located file' decoded parsed
    have none : shader.absent after.tree thirdParty new = [] := by
      rw [absent, List.filter_eq_nil_iff]
      intro p memP'
      obtain ⟨memPath, under⟩ := List.mem_filter.1 memP'
      obtain ⟨spec', memSpec, rfl⟩ := List.mem_map.1 memPath
      obtain ⟨spec, memOld, moves, path⟩ :=
        shades.moved_of_isUnder (fun spec mem => (imported spec mem).1) memSpec under
      obtain ⟨listed, visible⟩ := (imported spec memOld).2 (beq_iff_eq.1 moves)
      obtain ⟨l, landed, directory⟩ := Tree.isDir_iff.1 (isDir_of_relocate relocated listed)
      have there : shader.isVendored after.tree thirdParty spec'.path = true := by
        rw [path, isVendored_append visible]
        exact Tree.isDir_iff.2 ⟨l, by rw [through.locate, landed], through.directory.2 directory⟩
      simp [there]
    rw [missingIn_eq_ok here file.found decoded' parsed', none, List.map_nil]
  have empty : (paths'.flatMap fun _ => ([] : List MissingPackage)) = [] :=
    List.flatMap_eq_nil_iff.2 fun _ _ => rfl
  rw [missingPackages_eq_ok collected' complete, empty, List.mergeSort_nil, List.eraseDups_nil]

/-- A vendored package beside a file that imports it. -/
def vendoredSite : Site :=
  .start { Tree.empty ['/', 'w'] with
    entries := [([['v']], .directory), ([['v'], "a.b".toList], .directory),
      ([['v'], "a.b".toList, ['c']], .directory), ([['m']], .directory),
      ([['m'], "a.go".toList], .file (.ofText sampleSource))] } 0

def sampleManifest : Manifest := ⟨[⟨"a.b/c".toList, none, none, false, none, ["a.b/c".toList]⟩]⟩

/-- The same with the package in the private subtree. -/
def relocatedSite : Site := ((relocate sampleManifest ⟨['v']⟩ ⟨['t']⟩).on vendoredSite).2

theorem missingPackages_sample :
    ∃ report after, (sample.shadeTree .abort ⟨['m']⟩).on relocatedSite = (.ok report, after) ∧
      sample.missingPackages after.tree ⟨['m']⟩ ⟨['t']⟩ = .ok [] := by
  have result : ((relocate sampleManifest ⟨['v']⟩ ⟨['t']⟩).on vendoredSite).1 =
      .ok ⟨[⟨"a.b/c".toList, .moved⟩], []⟩ := by
    decide +kernel
  have relocated : (relocate sampleManifest ⟨['v']⟩ ⟨['t']⟩).on vendoredSite =
      (.ok ⟨[⟨"a.b/c".toList, .moved⟩], []⟩, relocatedSite) := Prod.ext result rfl
  have walkable : relocatedSite.tree.Walkable ⟨['m']⟩ :=
    { sound := by decide +kernel
      inside := by simp [Tree.Inside, Path.isAbsolute]
      log := by
        have closed : relocatedSite.tree.opened = none := by decide +kernel
        intro _ _ _ isOpen
        rw [closed] at isOpen
        cases isOpen }
  have takes : relocatedSite.tree.Takes ⟨"m/a.go".toList⟩ [['m'], "a.go".toList] :=
    ⟨by decide +kernel, by decide +kernel, by decide +kernel⟩
  have only : ∀ e ∈ relocatedSite.tree.entries,
      e.2 = .directory ∨ e.2 = .file (.ofText sampleSource) := by
    decide +kernel
  have found : relocatedSite.tree.lookup ⟨['m']⟩ = .ok ([['m']], .directory) := by decide +kernel
  have listed : (relocatedSite.tree.entries.filterMap fun e =>
      (List.isPrefixOf? [['m']] e.1).map fun rest => (rest, e.2)).Perm
      [([], .directory), (["a.go".toList], .file (.ofText sampleSource))] := by
    decide +kernel
  have files : relocatedSite.tree.filesToShade ⟨['m']⟩ = .ok [⟨"m/a.go".toList⟩] := by
    rw [Tree.filesToShade_eq_of_perm walkable.sound found listed (by decide +kernel)
      (by decide +kernel)]
    decide +kernel
  obtain ⟨report, after, ran, clean⟩ := sample_walks walkable files takes (by decide +kernel)
  have walks := @Walks.inOrder sample ⟨['m']⟩ relocatedSite .abort
  rw [ran] at walks
  have plain : PlainFiles relocatedSite.tree ⟨['m']⟩ :=
    fun _ _ _ _ _ _ goFile decoded parsed =>
      (sample_parsed walkable.sound only goFile decoded parsed).1
  have imports : sample.ImportsFrom relocatedSite.tree ⟨['m']⟩ sampleManifest.packages := by
    intro loc rel content src file located goFile decoded parsed spec mem
    have path := List.mem_map_of_mem (f := (·.path)) mem
    rw [(sample_parsed walkable.sound only goFile decoded parsed).2] at path
    simp only [List.mem_cons, List.not_mem_nil, or_false] at path
    rcases path with path | path
    · rw [path]
      exact ⟨by decide, fun _ => ⟨by decide, 'a', by decide, by decide⟩⟩
    · rw [path]
      exact ⟨by decide, fun canonical => absurd canonical (by decide)⟩
  exact ⟨report, after, ran,
    missingPackages_eq_nil sample_proper relocated walkable plain imports walks clean⟩

end Shader

end GoSplit
