import GoSplit.Proofs.Workspace
import GoSplit.Toolchain.Script

/-!
A toolchain that follows a script does what is asked of any toolchain. It keeps to the workspace
when it copies dependencies, and naming or tidying a module touches no source.
-/

namespace GoSplit

namespace Script

variable {except : Location → Prop} {site after : Site}

theorem request_eq_ok {script : Script} {verb : String} {rest : Text} {answer : RunM Unit}
    (ran : (script.request verb rest answer).on site = (.ok (), after)) :
    ∃ asked : Site, asked.tree = site.tree ∧ answer.on asked = (.ok (), after) := by
  obtain ⟨_, asked, asking, ran⟩ := SiteM.on_bind_eq_ok_iff.1 ran
  cases asking
  split at ran
  · cases ran
  · refine ⟨_, ?_, ran⟩
    rfl

theorem spares_write {path : Path} {node : Node}
    (place : ∀ loc, site.tree.landing path = .ok loc → loc ≠ [] → except loc ∨ ¬ Location.IsGo loc)
    (ran : (write path node).on site = (.ok (), after)) : site.tree.Spares except after.tree := by
  cases node with
  | directory =>
    have made : (Site.makeDirs path).on site = (.ok (), after) := ran
    obtain ⟨made, makes, rfl⟩ := Site.on_files_eq_ok_iff.1 made
    exact .of_makeDirs except makes
  | file content =>
    -- The directory above is made first, if there is one.
    have writes : ∀ {mid : Site}, site.tree.Spares except mid.tree →
        (Site.change path fun tree => tree.writeBytes path content).on mid = (.ok (), after) →
        site.tree.Spares except after.tree := by
      intro mid spares ran
      obtain ⟨changed, wrote, rfl⟩ := Site.on_change_eq_ok_iff.1 ran
      refine spares.trans (.of_writeBytes wrote fun loc landed => place loc ?_)
      rwa [← Tree.landing_congr spares.stays.base]
    unfold write at ran
    dsimp only at ran
    split at ran
    · obtain ⟨_, mid, making, ran⟩ := SiteM.on_bind_eq_ok_iff.1 ran
      obtain ⟨made, makes, rfl⟩ := Site.on_files_eq_ok_iff.1 making
      exact writes (.of_makeDirs except makes) ran
    · exact writes (.refl except site.tree) ran

/-- A place in the vendored tree is given by names that do not lead up. -/
def IsPlace (rel : Text) : Prop :=
  rel.head? ≠ some '/' ∧ ∀ name ∈ Text.pieces '/' rel, name ≠ ['.', '.']

instance (rel : Text) : Decidable (IsPlace rel) := inferInstanceAs (Decidable (_ ∧ _))

theorem beneath_join {dir : Path} {name rel : Text} (named : dir.Names name) (place : IsPlace rel) :
    (dir.join rel).Beneath dir := by
  refine .inr ⟨rel, ?_, place.2⟩
  rw [Path.join, if_neg place.1, if_neg named.closed]

theorem spares_writeAll {workspace : Workspace} {loc : Location} {files : List (Text × Node)}
    (places : ∀ file ∈ files, IsPlace file.1) (landed : site.tree.landing workspace.dir = .ok loc)
    (ran : (writeAll workspace.vendored files).on site = (.ok (), after)) :
    site.tree.Spares (loc <+: ·) after.tree := by
  induction files generalizing site with
  | nil =>
    cases ran
    exact .refl ..
  | cons file rest ih =>
    obtain ⟨here, others⟩ := List.forall_mem_cons.1 places
    obtain ⟨_, mid, writing, ran⟩ := SiteM.on_bind_eq_ok_iff.1 ran
    have first : site.tree.Spares (loc <+: ·) mid.tree := by
      refine spares_write (fun l landed' _ => .inl ?_) writing
      by_cases root : loc = []
      · rw [root]
        exact List.nil_prefix
      · exact (List.prefix_append ..).trans (Workspace.prefix_of_vendored landed root
          (beneath_join workspace.names_vendored here) landed')
    refine first.trans (ih others ?_ ran)
    rwa [Tree.landing_congr first.stays.base]

theorem keepsToWorkspace {script : Script} (places : ∀ file ∈ script.files, IsPlace file.1)
    (workDir : Path) : script.toolchain.KeepsToWorkspace workDir := by
  intro workspace site after loc ran landed
  obtain ⟨asked, tree, ran⟩ := request_eq_ok ran
  rw [← tree] at landed ⊢
  obtain ⟨_, made, making, ran⟩ := SiteM.on_bind_eq_ok_iff.1 ran
  obtain ⟨dirs, makes, rfl⟩ := Site.on_files_eq_ok_iff.1 making
  have first : asked.tree.Spares (loc <+: ·) dirs := .of_makeDirs _ makes
  obtain ⟨_, copied, copying, ran⟩ := SiteM.on_bind_eq_ok_iff.1 ran
  have second : dirs.Spares (loc <+: ·) copied.tree :=
    @spares_writeAll { asked with tree := dirs } _ _ _ _ places
      (by rwa [Tree.landing_congr first.stays.base]) copying
  have through := first.trans second
  split at ran
  · next text _ =>
    have last :
        (writeAll workspace.vendored [("modules.txt".toList, .file (.ofText text))]).on copied =
          (.ok (), after) := SiteM.on_bind_eq_ok_iff.2 ⟨_, _, ran, rfl⟩
    refine through.trans (spares_writeAll (by simp; decide) ?_ last)
    rwa [Tree.landing_congr through.stays.base]
  · cases ran
    exact through

theorem sparesSources (script : Script) (layout : Layout) :
    script.toolchain.SparesSources layout := by
  refine ⟨fun name site after ran => ?_, fun site after result ran l content _ _ => ?_⟩
  · obtain ⟨asked, tree, ran⟩ := request_eq_ok ran
    rw [← tree]
    refine spares_write (fun loc landed below => .inr ?_) ran
    -- The file is named go.mod.
    have named : (layout.root.join Toolchain.goMod).Names Toolchain.goMod :=
      Tree.names_pathIn (List.forall_mem_singleton.2
        (by decide : Tree.IsName Toolchain.goMod).isWord) rfl
    rintro ⟨last, ends, isGo⟩
    rw [Tree.getLast?_of_landing named below landed] at ends
    cases ends
    revert isGo
    decide
  · have tree : after.tree = site.tree := by
      rcases SiteM.on_bind_cases ran with ⟨e, failed, -⟩ | ⟨_, asked, asking, ran⟩
      · cases failed
      · cases asking
        split at ran
        · cases ran
          rfl
        · cases ran
          rfl
    rw [tree]

end Script

end GoSplit
