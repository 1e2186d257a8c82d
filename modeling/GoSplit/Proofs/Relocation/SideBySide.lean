import GoSplit.Proofs.Relocation
import GoSplit.Proofs.Tree.SideBySide
import GoSplit.Vendoring

/-!
Relocating in two trees. Once the old private subtree is gone, moving the modules has the same
outcome in any two trees that look the same where the modules are and where they go.
-/

namespace GoSplit

namespace View

variable {ε α β : Type} {view : View}

/-! ### Actions on a site -/

/-- The action cannot tell sites apart whose trees look the same. -/
def Conforms (view : View) (action : SiteM ε α) : Prop :=
  ∀ site site', view.Same site.tree site'.tree →
    (action.on site').1 = (action.on site).1 ∧
      view.Same (action.on site).2.tree (action.on site').2.tree

namespace Conforms

theorem pure (a : α) : view.Conforms (Pure.pure a : SiteM ε α) := fun _ _ same => ⟨rfl, same⟩

theorem throw (e : ε) : view.Conforms (throw e : SiteM ε α) := fun _ _ same => ⟨rfl, same⟩

theorem bind {action : SiteM ε α} {next : α → SiteM ε β} (first : view.Conforms action)
    (second : ∀ a, view.Conforms (next a)) : view.Conforms (action >>= next) := by
  intro site site' h
  obtain ⟨result, same⟩ := first site site' h
  rw [SiteM.on_bind, SiteM.on_bind]
  generalize action.on site = outcome at result same
  generalize action.on site' = outcome' at result same
  obtain ⟨result₁, after⟩ := outcome
  obtain ⟨result₂, after'⟩ := outcome'
  cases result
  cases result₁ with
  | error e => exact ⟨rfl, same⟩
  | ok a => exact second a after after' same

/-- What follows a look at the tree, when it comes to the same. -/
theorem look {f : Tree → α} {next : α → SiteM ε β}
    (same : ∀ tree tree', view.Same tree tree' → next (f tree') = next (f tree))
    (rest : ∀ a, view.Conforms (next a)) : view.Conforms (SiteM.look f >>= next) := by
  intro site site' h
  rw [SiteM.on_bind_of_ok (SiteM.on_look f site), SiteM.on_bind_of_ok (SiteM.on_look f site'),
    same _ _ h]
  exact rest _ site site' h

theorem note (line : String) : view.Conforms (SiteM.note line : SiteM ε Unit) :=
  fun _ _ same => ⟨rfl, same.append _ _⟩

theorem files {action : FileM ε α} (agrees : view.Agrees action) :
    view.Conforms (SiteM.files action) := by
  intro site site' h
  obtain ⟨result, same⟩ := agrees site.tree site'.tree h
  rw [SiteM.on_files, SiteM.on_files]
  exact ⟨result, same⟩

theorem attempt {δ : Type} {action : SiteM ε α} (conforms : view.Conforms action) :
    view.Conforms (SiteM.attempt action : SiteM δ (Except ε α)) := by
  intro site site' h
  obtain ⟨result, same⟩ := conforms site site' h
  rw [SiteM.on_attempt, SiteM.on_attempt]
  exact ⟨by rw [result], same⟩

end Conforms

end View

/-- The directory of an import path lies beneath the one it is looked for in. -/
theorem Path.beneath_below {path : Path}
    (closed : ¬ (path.text.isEmpty || path.text.getLast? == some '/') = true) (importPath : Text) :
    (path.below importPath).Beneath path := by
  have proper : ∀ name ∈ ImportPath.directories importPath,
      name ≠ [] ∧ name ≠ ['.', '.'] ∧ '/' ∉ name := by
    intro name mem
    obtain ⟨piece, kept⟩ := List.mem_filter.1 mem
    simp only [Bool.and_eq_true, Bool.not_eq_true', List.isEmpty_eq_false_iff, bne_iff_ne] at kept
    exact ⟨kept.1.1, kept.2, Text.sep_not_mem_pieces '/' importPath name piece⟩
  rw [Path.below]
  generalize ImportPath.directories importPath = names at proper
  have relative : (Text.joinWith ['/'] names).head? ≠ some '/' :=
    Text.head?_joinWith (fun name mem => (proper name mem).1) fun name mem => (proper name mem).2.2
  refine .inr ⟨Text.joinWith ['/'] names, ?_, ?_⟩
  · rw [Path.join, if_neg relative, if_neg closed]
  · by_cases empty : names = []
    · rw [empty]
      decide
    · rw [Text.pieces_joinWith empty fun name mem => (proper name mem).2.2]
      exact fun name mem => (proper name mem).2.1

namespace Relocation

variable {view : View} {vendored thirdParty : Path}

/-- What is left to do once there is a new private subtree. -/
def moveAll (manifest : Manifest) (vendored thirdParty : Path) : RunM RelocationReport := do
  noteViolations manifest.orderingViolations
  let modules ← moveModules vendored thirdParty manifest.relocationOrder
  let tree ← SiteM.look id
  let problems := modules.filterMap failureOf
    ++ manifest.packages.flatMap (packageProblems tree vendored thirdParty)
  if problems.isEmpty then return ⟨modules, manifest.orderingViolations⟩
  else throw (.relocation problems)

theorem relocate_eq (manifest : Manifest) (vendored thirdParty : Path) :
    relocate manifest vendored thirdParty = (do
      dropOld thirdParty
      Site.makeDirs thirdParty
      moveAll manifest vendored thirdParty) := rfl

/-- Both directories are in view, and the modules of a manifest lie and go beneath them. -/
theorem spans_below (h : view.Spans vendored thirdParty vendored thirdParty) (path : Text) :
    view.Spans vendored thirdParty (vendored.below path) (thirdParty.below path) :=
  { h with
    beneath := Path.beneath_below h.closed path
    beneath' := Path.beneath_below h.closed' path }

theorem conforms_moveModule (h : view.Spans vendored thirdParty vendored thirdParty)
    (m : Manifest.Module) : view.Conforms (moveModule vendored thirdParty m) := by
  have spans := spans_below h m.path
  refine .look (fun tree tree' same => by rw [same.isDir spans.owns.covers]) fun there => ?_
  split
  · refine (View.Conforms.files (View.agrees_moveDir spans)).attempt.bind fun result => ?_
    cases result with
    | ok _ => exact .pure _
    | error cause => exact .pure _
  · refine .look (fun tree tree' same => by rw [same.isDir spans.owns'.covers]) fun there => ?_
    split
    · exact .pure _
    split
    · exact .pure _
    · exact .pure _

theorem conforms_moveModules (h : view.Spans vendored thirdParty vendored thirdParty)
    (modules : List Manifest.Module) : view.Conforms (moveModules vendored thirdParty modules) := by
  induction modules with
  | nil => exact .pure _
  | cons m rest ih =>
    exact (conforms_moveModule h m).bind fun _ => (View.Conforms.note _).bind fun _ =>
      ih.bind fun _ => .pure _

theorem conforms_noteViolations (pairs : List (Text × Text)) :
    view.Conforms (noteViolations pairs) := by
  induction pairs with
  | nil => exact .pure _
  | cons pair rest ih => exact (View.Conforms.note _).bind fun _ => ih

theorem conforms_moveAll (h : view.Spans vendored thirdParty vendored thirdParty)
    (manifest : Manifest) : view.Conforms (moveAll manifest vendored thirdParty) := by
  have problems : ∀ tree tree', view.Same tree tree' →
      packageProblems tree' vendored thirdParty = packageProblems tree vendored thirdParty := by
    intro tree tree' same
    funext package
    have spans := spans_below h package
    rw [packageProblems, packageProblems, same.isDir spans.owns.covers,
      same.isDir spans.owns'.covers]
  refine (conforms_noteViolations _).bind fun _ => (conforms_moveModules h _).bind fun modules =>
    .look (fun tree tree' same => ?_) fun tree => ?_
  · simp only [id, problems tree tree' same]
  · dsimp only
    split
    · exact .pure _
    · exact .throw _

/-! ### A new subtree -/

/-- The tree with a new directory in the place of an old one: of what was below it only the
directories on the way are left. -/
structure Renewed (new : Location) (passed : List Location) (tree made : Tree) : Prop where
  base : made.base = tree.base
  mounts : made.mounts = tree.mounts
  refuses : made.refuses = tree.refuses
  opened : made.opened = tree.opened
  inOrder : made.InOrder
  way : ∀ l, l ∈ passed ∨ l = new → made.find? l = some .directory
  gone : ∀ l, new <+: l → ¬ (l ∈ passed ∨ l = new) → made.find? l = none
  same : ∀ l, ¬ new <+: l → l ∉ passed → tree.opened ≠ some l → made.find? l = tree.find? l

/-- Removing the directory at a path, with a note on it. -/
theorem cleared_of_removeDirs {site cleared : Site} {new : Location} {line : String}
    (inOrder : site.tree.InOrder) (landed : site.tree.landing thirdParty = .ok new)
    (below : new ≠ []) (quiet : ∀ log ∈ site.tree.opened, ¬ new <+: log)
    (ran : (Site.removeDirs thirdParty).on (site.noted line) = (.ok (), cleared)) :
    Cleared new site.tree cleared.tree ∧ cleared.tree.InOrder := by
  obtain ⟨tree, removed, rfl⟩ := Site.on_files_eq_ok_iff.1 ran
  exact ⟨cleared_removeDirs _ landed below quiet removed, (inOrder.append _).removeDirs removed⟩

theorem inOrder_of_dropOld {site dropped : Site} {new : Location} (inOrder : site.tree.InOrder)
    (landed : site.tree.landing thirdParty = .ok new) (below : new ≠ [])
    (quiet : ∀ log ∈ site.tree.opened, ¬ new <+: log)
    (ran : (dropOld thirdParty).on site = (.ok (), dropped)) : dropped.tree.InOrder := by
  rw [dropOld, SiteM.on_bind_of_ok (SiteM.on_look _ site)] at ran
  split at ran
  · rw [SiteM.on_bind_of_ok (Site.on_note _ _)] at ran
    exact (cleared_of_removeDirs inOrder landed below quiet ran).2
  · cases ran
    exact inOrder

theorem renewed {site dropped : Site} {made : Tree} {new : Location} (inOrder : site.tree.InOrder)
    (landed : site.tree.landing thirdParty = .ok new) (below : new ≠ [])
    (seen : site.tree.find? new = none ∨ site.tree.exists? thirdParty = true)
    (quiet : ∀ log ∈ site.tree.opened, ¬ new <+: log)
    (ranDrop : (dropOld thirdParty).on site = (.ok (), dropped))
    (ranMake : (Tree.makeDirs thirdParty).on dropped.tree = (.ok (), made)) :
    Renewed new (site.tree.passed thirdParty) site.tree made := by
  have cleared := cleared_of_dropOld inOrder.sound.closed landed below seen quiet ranDrop
  obtain ⟨loc, landed', grown, paved⟩ :=
    Tree.makeDirs_eq_ok ranMake (Tree.text_ne_nil_of_landing landed)
  rw [Tree.landing_congr cleared.base, landed] at landed'
  cases landed'
  rw [Tree.passed_congr cleared.base] at grown paved
  refine ⟨grown.base.trans cleared.base, grown.mounts.trans cleared.mounts,
    grown.refuses.trans cleared.refuses, grown.opened.trans cleared.opened,
    (inOrder_of_dropOld inOrder landed below quiet ranDrop).makeDirs ranMake, paved,
    fun l within off => ?_, fun l out off log => ?_⟩
  · obtain ⟨rel, rfl⟩ := within
    have proper : rel ≠ [] := by
      rintro rfl
      exact off (.inr (List.append_nil new))
    rcases grown.find (new ++ rel) with same | ⟨place, -, -⟩
    · rw [same, cleared.gone rel proper]
    · exact absurd place off
  · rcases grown.find l with same | ⟨place, -, -⟩
    · rw [same, cleared.same l out log]
    · rcases place with mem | rfl
      · exact absurd mem off
      · exact absurd List.prefix_rfl out

/-- Where there is a new subtree in two trees, it looks the same, whatever the old ones were. -/
theorem same_of_renewed (view' : View) {view : View} {tree tree' made made' : Tree} {new : Location}
    {passed : List Location} (renewed : Renewed new passed tree made)
    (renewed' : Renewed new passed tree' made') (same : view.Same tree tree')
    (base : view'.base = view.base) (logs : view'.logs = view.logs)
    (files : view'.files = view.files)
    (all : ∀ l, view'.all l → view.all l ∨ l ∈ passed ∨ new <+: l) : view'.Same made made' := by
  have isLog : ∀ l, tree.opened = some l ∨ tree'.opened = some l → view'.logs l := by
    rw [logs]
    exact fun l isOpen => isOpen.elim (same.log l) (same.log' l)
  -- A place of the new subtree is a directory or empty; any other is as it was.
  have places : ∀ l, (tree.opened ≠ some l) → (tree'.opened ≠ some l) →
      made'.find? l = made.find? l ∧ (l ∈ passed ∨ new <+: l) ∨
        made.find? l = tree.find? l ∧ made'.find? l = tree'.find? l ∧
        ¬ (l ∈ passed ∨ new <+: l) := by
    intro l log log'
    by_cases way : l ∈ passed ∨ l = new
    · refine .inl ⟨by rw [renewed.way l way, renewed'.way l way], way.imp_right ?_⟩
      rintro rfl
      exact List.prefix_rfl
    · by_cases within : new <+: l
      · exact .inl ⟨by rw [renewed.gone l within way, renewed'.gone l within way], .inr within⟩
      · have off : l ∉ passed := fun mem => way (.inl mem)
        exact .inr ⟨renewed.same l within off log, renewed'.same l within off log',
          not_or.2 ⟨off, within⟩⟩
  refine ⟨by rw [renewed.base, same.base, base], by rw [renewed'.base, same.base', base],
    by rw [renewed'.mounts, same.mounts, renewed.mounts],
    by rw [renewed'.refuses, same.refuses, renewed.refuses], renewed.inOrder.sound,
    renewed'.inOrder.sound, fun l mem => ?_, fun l content mem => ?_, fun l isOpen => ?_,
    fun l isOpen => ?_⟩
  · have log := fun isOpen => (view'.apart l (isLog l isOpen)).1 mem
    rcases places l (log ∘ .inl) (log ∘ .inr) with ⟨eq, -⟩ | ⟨eq, eq', off⟩
    · exact eq
    · rw [eq, eq', same.find l ((all l mem).resolve_right off)]
  · have log := fun isOpen => (view'.apart l (isLog l isOpen)).2 mem
    rcases places l (log ∘ .inl) (log ∘ .inr) with ⟨eq, -⟩ | ⟨eq, eq', off⟩
    · rw [eq]
    · rw [eq, eq', same.file l content (files ▸ mem)]
  · exact isLog l (.inl (renewed.opened ▸ isOpen))
  · exact isLog l (.inr (renewed'.opened ▸ isOpen))

end Relocation

end GoSplit
