import GoSplit.Proofs.Site
import GoSplit.Proofs.Tree.Views

/-!
Changes that stay in one part of a tree. Whatever is done through paths that lead there, all
other files are as they were, but for the log; elsewhere only directories come to be that were
missing. What holds for each operation holds for every action built from them.
-/

namespace GoSplit

namespace Tree

/-! ### Trees before and after -/

/-- Outside of some places the other tree has at most more directories, and another text in the
log. -/
structure Confined (places : Location → Prop) (tree tree' : Tree) : Prop where
  base : tree'.base = tree.base
  inOrder : tree'.InOrder
  find : ∀ l, ¬ places l → tree.opened ≠ some l → tree'.find? l = tree.find? l ∨
    tree.find? l = none ∧ tree'.find? l = some .directory
  log : ∀ l, ¬ places l → tree'.opened = some l → tree.opened = some l

namespace Confined

variable {places places' : Location → Prop} {tree tree' tree'' : Tree}

theorem refl (places : Location → Prop) (inOrder : tree.InOrder) : Confined places tree tree :=
  ⟨rfl, inOrder, fun _ _ _ => .inl rfl, fun _ _ => id⟩

theorem trans (h : Confined places tree tree') (h' : Confined places tree' tree'') :
    Confined places tree tree'' := by
  refine ⟨h'.base.trans h.base, h'.inOrder, fun l out other => ?_,
    fun l out isOpen => h.log l out (h'.log l out isOpen)⟩
  have later := h'.find l out fun isOpen => other (h.log l out isOpen)
  rcases h.find l out other with same | ⟨free, made⟩
  · rwa [same] at later
  · rcases later with same | ⟨free', -⟩
    · exact .inr ⟨free, same.trans made⟩
    · rw [made] at free'
      cases free'

theorem mono (h : Confined places tree tree') (sub : ∀ l, places l → places' l) :
    Confined places' tree tree' :=
  ⟨h.base, h.inOrder, fun l out => h.find l fun inside => out (sub l inside),
    fun l out => h.log l fun inside => out (sub l inside)⟩

/-- A place where nothing is before or after does not count. -/
theorem of_vacant {top : Location} (h : Confined (fun l => places l ∨ top <+: l) tree tree')
    (before : ∀ l, top <+: l → tree.find? l = none)
    (behind : ∀ l, top <+: l → tree'.find? l = none) : Confined places tree tree' := by
  refine ⟨h.base, h.inOrder, fun l out other => ?_, fun l out isOpen => ?_⟩
  · by_cases within : top <+: l
    · exact .inl (by rw [before l within, behind l within])
    · exact h.find l (not_or.2 ⟨out, within⟩) other
  · refine h.log l (not_or.2 ⟨out, fun within => ?_⟩) isOpen
    obtain ⟨content, found⟩ := h.inOrder.log l isOpen
    rw [behind l within] at found
    cases found

/-- Every file outside is the same file as before. -/
theorem file_iff (h : Confined places tree tree') {l : Location} (out : ¬ places l)
    (other : tree.opened ≠ some l) (content : Content) :
    tree'.find? l = some (.file content) ↔ tree.find? l = some (.file content) := by
  rcases h.find l out other with same | ⟨free, made⟩
  · rw [same]
  · rw [free, made]
    simp

/-- Directories outside are still there. -/
theorem directory (h : Confined places tree tree') (inOrder : tree.InOrder) {l : Location}
    (out : ¬ places l) (found : tree.find? l = some .directory) :
    tree'.find? l = some .directory := by
  have other : tree.opened ≠ some l := by
    intro isOpen
    obtain ⟨content, file⟩ := inOrder.log l isOpen
    rw [found] at file
    cases file
  rcases h.find l out other with same | ⟨-, made⟩
  · rw [same, found]
  · exact made

end Confined

section

variable {places : Location → Prop} {tree tree' : Tree} {loc : Location}

theorem Quiet.confined (h : tree.Quiet tree') (inOrder : tree.InOrder) (places : Location → Prop) :
    Confined places tree tree' := by
  refine ⟨h.rewritten.base, h.inOrder inOrder, fun l _ other => .inl (h.rewritten.same l other),
    fun l _ isOpen => ?_⟩
  rwa [h.rewritten.opened] at isOpen

theorem Grown.confined {places' : Location → Prop} (h : Grown places' tree tree')
    (inOrder : tree'.InOrder) (places : Location → Prop) : Confined places tree tree' := by
  refine ⟨h.base, inOrder, fun l _ _ => (h.find l).imp_right And.right, fun l _ isOpen => ?_⟩
  rwa [h.opened] at isOpen

theorem confined_put {content : Content} (inside : places loc)
    (free : tree.find? loc ≠ some .directory) (inOrder : (tree.put loc (.file content)).InOrder) :
    Confined places tree (tree.put loc (.file content)) := by
  refine ⟨rfl, inOrder, fun l out _ => .inl ((rewritten_put free content).same l ?_), fun _ _ => id⟩
  rintro rfl
  exact out inside

theorem confined_remove (inOrder : tree.InOrder) (inside : ∀ l, loc <+: l → places l) :
    Confined places tree (tree.remove loc) := by
  refine ⟨rfl, inOrder.remove loc, fun l out _ => .inl ?_, fun l _ isOpen => ?_⟩
  · have below : loc ≠ [] := by
      rintro rfl
      exact out (inside l List.nil_prefix)
    rw [find?_remove below, if_neg fun within => out (inside l within)]
  · rw [remove, Option.filter_eq_some_iff] at isOpen
    exact isOpen.1

theorem confined_clear (inOrder : tree.InOrder) (inside : ∀ l, loc <+: l → places l) :
    Confined places tree (tree.clear loc) := by
  refine ⟨rfl, inOrder.clear loc, fun l out _ => .inl ?_, fun l _ isOpen => ?_⟩
  · rw [find?_clear, if_neg fun within => out (inside l within.1)]
  · rw [clear, Option.filter_eq_some_iff] at isOpen
    exact isOpen.1

/-- An entry that takes over another name takes along the log, if it is there. -/
theorem opened_of_takeOver {src dst l : Location}
    (isOpen : ((tree.remove dst).move src dst).opened = some l) :
    ∃ old, tree.opened = some old ∧ ¬ dst <+: old ∧
      (¬ src <+: old ∧ l = old ∨ ∃ more, old = src ++ more ∧ l = dst ++ more) := by
  rw [move, Option.map_eq_some_iff] at isOpen
  obtain ⟨old, kept, rfl⟩ := isOpen
  rw [remove, Option.filter_eq_some_iff, Bool.not_eq_true', ← Bool.not_eq_true, Location.isWithin,
    List.isPrefixOf_iff_prefix] at kept
  refine ⟨old, kept.1, kept.2, ?_⟩
  by_cases within : src <+: old
  · obtain ⟨more, rfl⟩ := within
    exact .inr ⟨more, rfl, moved_append ..⟩
  · exact .inl ⟨within, moved_of_outside within⟩

theorem confined_takeOver {src dst : Location} (inOrder : tree.InOrder) (apart : ¬ src <+: dst)
    (apart' : ¬ dst <+: src) (above : tree.find? dst.dropLast = some .directory)
    (names : ∀ name ∈ dst, IsName name) (inside : ∀ l, src <+: l → places l)
    (inside' : ∀ l, dst <+: l → places l) :
    Confined places tree ((tree.remove dst).move src dst) := by
  have below : src ≠ [] := by
    rintro rfl
    exact apart List.nil_prefix
  have below' : dst ≠ [] := by
    rintro rfl
    exact apart' List.nil_prefix
  have sound := inOrder.sound.takeOver below below' apart apart' above names
  refine ⟨rfl, ⟨sound, fun l isOpen => ?_⟩, fun l out _ => .inl ?_, fun l out isOpen => ?_⟩
  · obtain ⟨old, was, outside, ⟨stays, rfl⟩ | ⟨more, rfl, rfl⟩⟩ := opened_of_takeOver isOpen
    · obtain ⟨content, found⟩ := inOrder.log l was
      exact ⟨content, by rw [find?_takeOver_of_outside below below' outside, if_neg stays, found]⟩
    · obtain ⟨content, found⟩ := inOrder.log _ was
      exact ⟨content, by rw [find?_takeOver_append below below' apart apart', found]⟩
  · rw [find?_takeOver_of_outside below below' fun within => out (inside' l within),
      if_neg fun within => out (inside l within)]
  · obtain ⟨old, was, -, ⟨-, rfl⟩ | ⟨more, rfl, rfl⟩⟩ := opened_of_takeOver isOpen
    · exact was
    · exact absurd (inside' _ (List.prefix_append ..)) out

end

/-! ### Operations on paths -/

section

variable {tree tree' : Tree}

/-- An entry keeps its place or moves to another, which is in a directory and has a name. -/
theorem rename_eq_ok {source target : Path} (ran : tree.rename source target = .ok tree') :
    (tree' = tree ∧ ∃ loc, tree.landing source = .ok loc ∧ tree.landing target = .ok loc) ∨
      ∃ src dst, tree.landing source = .ok src ∧ tree.landing target = .ok dst ∧
        ¬ src <+: dst ∧ ¬ dst <+: src ∧ tree' = (tree.remove dst).move src dst ∧
        ∃ dir name, dst = dir ++ [name] ∧ tree.find? dir = some .directory ∧ IsName name := by
  simp only [rename, Bind.bind, Except.bind] at ran
  split at ran
  · cases ran
  cases entered : tree.enter source with
  | error e => simp [entered] at ran
  | ok entry =>
    cases entered' : tree.enter target with
    | error e => simp [entered, entered'] at ran
    | ok entry' =>
      simp only [entered, entered'] at ran
      split at ran
      · cases ran
      split at ran
      · cases ran
      next dots =>
      cases stepped : step entry.1 entry.2 with
      | error e => simp [stepped] at ran
      | ok src =>
        simp only [stepped] at ran
        split at ran
        · cases ran
        cases stepped' : step entry'.1 entry'.2 with
        | error e => simp [stepped'] at ran
        | ok dst =>
          simp only [stepped'] at ran
          split at ran
          · cases ran
          have landed := (landing_of_enter entered stepped).1
          have landed' := (landing_of_enter entered' stepped').1
          unfold takeOver at ran
          split at ran
          · next same =>
            cases ran
            exact .inl ⟨rfl, src, landed, same ▸ landed'⟩
          split at ran
          · cases ran
          next out =>
          split at ran
          · cases ran
          next out' =>
          split at ran
          · cases ran
          cases ran
          rw [Location.isWithin, List.isPrefixOf_iff_prefix] at out out'
          refine .inr ⟨src, dst, landed, landed', out, out', rfl, ?_⟩
          have below : dst ≠ [] := by
            rintro rfl
            exact out' List.nil_prefix
          obtain ⟨directory, whole, atRoot⟩ := enter_eq_ok entered'
          rw [Bool.or_eq_true, not_or, Bool.not_eq_true, Bool.not_eq_true] at dots
          rcases step_eq_ok stepped' with ⟨rfl, still⟩ | ⟨-, up⟩ | ⟨rfl, visible, plain, short⟩
          · rcases still with blank | dot
            · exact absurd (atRoot blank) below
            · rw [dot] at dots
              exact absurd dots.2 (by decide)
          · rw [up] at dots
            exact absurd dots.2 (by decide)
          · exact ⟨_, _, rfl, directory, visible, plain, whole, short⟩

end

end Tree

/-! ### Actions -/

/-- A part of a tree. -/
structure Region where
  /-- The name of the root, from which paths start. -/
  base : Text
  holds : Location → Prop

namespace Region

variable {ε δ α β : Type} {region : Region} {path source target : Path}

/-- What is at or below a path. The empty path stands for the root of the tree. -/
def under (base : Text) (path : Path) : Region where
  base
  holds l := path.text = [] ∨ ∃ loc, (Tree.empty base).landing path = .ok loc ∧ loc <+: l

/-- All that is at or below a path belongs to the region. -/
def Owns (region : Region) (path : Path) : Prop :=
  ∀ loc, (Tree.empty region.base).landing path = .ok loc → ∀ l, loc <+: l → region.holds l

theorem Owns.landing (owns : region.Owns path) {tree : Tree} (base : tree.base = region.base)
    {loc : Location} (landed : tree.landing path = .ok loc) : ∀ l, loc <+: l → region.holds l :=
  owns loc (by rwa [Tree.landing_congr base.symm])

/-- Run on a tree in order, the action changes nothing outside of the region. -/
def Confines (region : Region) (action : FileM ε α) : Prop :=
  ∀ tree : Tree, tree.base = region.base → tree.InOrder →
    tree.Confined region.holds (action.on tree).2

namespace Confines

theorem pure (a : α) : region.Confines (Pure.pure a : FileM ε α) :=
  fun _ _ inOrder => .refl _ inOrder

theorem bind {action : FileM ε α} {next : α → FileM ε β} (first : region.Confines action)
    (second : ∀ a, region.Confines (next a)) : region.Confines (action >>= next) := by
  intro tree base inOrder
  have before := first tree base inOrder
  rw [FileM.on_bind]
  rcases ran : action.on tree with ⟨e | a, mid⟩
  · rwa [ran] at before
  · rw [ran] at before
    exact before.trans (second a mid (before.base.trans base) before.inOrder)

/-- What follows a look at the tree. -/
theorem get {next : Tree → FileM ε α} (rest : ∀ tree : Tree, tree.base = region.base →
    tree.InOrder → tree.Confined region.holds ((next tree).on tree).2) : region.Confines
      (get >>= next) := by
  intro tree base inOrder
  rw [FileM.on_bind_of_ok (FileM.on_get tree)]
  exact rest tree base inOrder

theorem look {f : Tree → Except ε α} {next : α → FileM ε β}
    (rest : ∀ tree a, tree.InOrder → f tree = .ok a → region.Confines (next a)) :
    region.Confines (FileM.look f >>= next) := by
  intro tree base inOrder
  rw [FileM.on_bind, FileM.on_look]
  cases result : f tree with
  | error e => exact .refl _ inOrder
  | ok a => exact rest tree a inOrder result tree base inOrder

theorem mapError {f : ε → δ} {action : FileM ε α} (confines : region.Confines action) :
    region.Confines (FileM.mapError f action) := by
  intro tree base inOrder
  rw [FileM.on_mapError]
  exact confines tree base inOrder

theorem change {f : Tree → Except ε Tree} (changed : ∀ tree tree', tree.base = region.base →
    tree.InOrder → f tree = .ok tree' → tree.Confined region.holds tree') :
    region.Confines (FileM.change f) := by
  intro tree base inOrder
  rw [FileM.on_change]
  cases result : f tree with
  | error e => exact .refl _ inOrder
  | ok tree' => exact changed tree tree' base inOrder result

end Confines

theorem confined_writeBytes (owns : region.Owns path) {tree tree' : Tree}
    (base : tree.base = region.base) (inOrder : tree.InOrder) {content : Content}
    (ran : tree.writeBytes path content = .ok tree') : tree.Confined region.holds tree' := by
  obtain ⟨loc, landed, free, rfl, keeps⟩ := Tree.writeBytes_eq_ok ran
  exact Tree.confined_put (owns.landing base landed loc List.prefix_rfl) free (keeps inOrder)

theorem confined_removeFile (owns : region.Owns path) {tree tree' : Tree}
    (base : tree.base = region.base) (inOrder : tree.InOrder)
    (ran : tree.removeFile path = .ok tree') : tree.Confined region.holds tree' := by
  unfold Tree.removeFile at ran
  split at ran
  · cases ran
  · cases ran
  next loc content looked =>
  cases ran
  have landed := (Tree.locate_iff_landing.1 (Tree.lookup_eq_ok_iff.1 looked).1).1
  exact Tree.confined_remove inOrder (owns.landing base landed)

/-- Making directories touches no file, wherever they are. -/
theorem confines_makeDirs (path : Path) : region.Confines (Tree.makeDirs path) := by
  intro tree _ inOrder
  rcases ran : (Tree.makeDirs path).on tree with ⟨result, made⟩
  exact (Tree.makeDirs_grown ran).confined (inOrder.makeDirs ran) _

theorem confines_removeDirs (owns : region.Owns path) : region.Confines (Tree.removeDirs path) := by
  intro tree base inOrder
  rcases ran : (Tree.removeDirs path).on tree with ⟨result, after⟩
  rcases Tree.on_removeDirs_cases ran with ⟨rfl, -⟩ | ⟨loc, located, -, kept⟩
  · exact .refl _ inOrder
  have inside := owns.landing base (Tree.locate_iff_landing.1 located).1
  have cleared := Tree.confined_clear inOrder inside
  rcases kept with rfl | rfl
  · exact cleared
  · exact cleared.trans (Tree.confined_remove cleared.inOrder inside)

theorem confined_rename (owns : region.Owns source) (owns' : region.Owns target) {tree tree' : Tree}
    (base : tree.base = region.base) (inOrder : tree.InOrder)
    (ran : tree.rename source target = .ok tree') : tree.Confined region.holds tree' := by
  rcases Tree.rename_eq_ok ran with ⟨rfl, -⟩ |
    ⟨src, dst, landed, landed', apart, apart', rfl, dir, name, rfl, directory, isName⟩
  · exact .refl _ inOrder
  refine Tree.confined_takeOver inOrder apart apart' ?_ (fun part mem => ?_)
    (owns.landing base landed)
    (owns'.landing base landed')
  · rwa [List.dropLast_concat]
  · rcases List.mem_append.1 mem with mem | mem
    · exact inOrder.sound.isName_of_find? directory part mem
    · rw [List.mem_singleton.1 mem]
      exact isName

/-! ### Copying and moving directories -/

section Copy

variable {to' : Path}

/-- The region takes in a directory with all beneath it, whose path can be extended. -/
structure Hosts (region : Region) (path : Path) : Prop where
  owns : ∀ q : Path, q.Beneath path → region.Owns q
  closed : ¬ (path.text.isEmpty || path.text.getLast? == some '/') = true

theorem confines_copyEntries {copyDir : Path → Path → FileM FileOpError Unit}
    (hosts : region.Hosts to')
    (copies : ∀ source target, target.Beneath to' → region.Confines (copyDir source target))
    (beneath : target.Beneath to') {names : List Text} (proper : ∀ name ∈ names, Tree.IsName name) :
    region.Confines (Tree.copyEntries copyDir source target names) := by
  induction names with
  | nil => exact .pure ()
  | cons name names ih =>
    obtain ⟨here, rest⟩ := List.forall_mem_cons.1 proper
    have lower := beneath.join hosts.closed here
    unfold Tree.copyEntries
    apply Confines.get
    intro tree base inOrder
    split
    · exact (copies _ _ lower).bind (fun _ => ih rest) tree base inOrder
    · refine Confines.bind (.change fun tree tree' base inOrder ran => ?_) (fun _ => ih rest)
        tree base inOrder
      unfold Tree.copyFile at ran
      split at ran
      · cases ran
      · next content _ =>
        generalize wrote : tree.writeBytes (target.join name) _ = written at ran
        cases written with
        | error e => cases ran
        | ok tree'' =>
          cases ran
          exact confined_writeBytes (hosts.owns _ lower) base inOrder wrote

theorem confines_copyLevels (hosts : region.Hosts to') (levels : Nat) :
    ∀ source target, target.Beneath to' →
      region.Confines (Tree.copyLevels levels source target) := by
  induction levels with
  | zero => exact fun _ _ _ => .pure ()
  | succ levels ih =>
    intro source target beneath
    refine Confines.bind (.get fun tree base inOrder => ?_)
      fun _ => .look fun tree names inOrder listed =>
      confines_copyEntries hosts ih beneath fun name mem => ?_
    · split
      · exact (confines_makeDirs target).mapError tree base inOrder
      · exact .refl _ inOrder
    · unfold Tree.namesAt at listed
      split at listed
      · cases listed
      · cases listed
      · cases listed
        obtain ⟨node, found⟩ := (Tree.mem_namesIn inOrder.sound).1 mem
        exact inOrder.sound.isName_of_find? found name (by simp)

theorem confines_copyAway (owns : region.Owns source) (hosts : region.Hosts to')
    (beneath : target.Beneath to') (cause : IoError) :
    region.Confines (Tree.copyAway source target cause) := by
  unfold Tree.copyAway Tree.copyDir
  apply Confines.get
  intro tree base inOrder
  by_cases there : tree.isDir source = true
  · simp only [there, Bool.not_true, Bool.false_eq_true, if_false]
    have copied := confines_copyLevels hosts Path.byteLimit source target beneath tree base inOrder
    generalize (Tree.copyLevels Path.byteLimit source target).on tree = outcome at copied
    obtain ⟨e | _, after⟩ := outcome
    · exact copied.trans (confines_removeDirs (hosts.owns _ beneath) after (copied.base.trans base)
        copied.inOrder)
    · exact copied.trans ((confines_removeDirs owns).mapError after (copied.base.trans base)
        copied.inOrder)
  · simp only [there, Bool.not_false, if_true]
    exact .refl _ inOrder

theorem confines_moveDir (owns : region.Owns source) (hosts : region.Hosts to')
    (beneath : target.Beneath to') : region.Confines (Tree.moveDir source target) := by
  -- Renaming, and copying where that is not possible.
  have renames : ∀ next : Tree → FileM FileOpError Unit,
      (∀ tree moved, tree.rename source target = .ok moved → next tree = set moved) →
      (∀ tree cause, tree.rename source target = .error cause →
        next tree = Tree.copyAway source target cause) → region.Confines (get >>= next) := by
    intro next renamed refused
    apply Confines.get
    intro tree base inOrder
    cases result : tree.rename source target with
    | ok moved =>
      rw [renamed tree moved result]
      exact confined_rename owns (hosts.owns _ beneath) base inOrder result
    | error cause =>
      rw [refused tree cause result]
      exact confines_copyAway owns hosts beneath cause tree base inOrder
  unfold Tree.moveDir
  apply Confines.get
  intro tree base inOrder
  by_cases taken : tree.exists? target = true
  · simp only [taken, if_true]
    exact .refl _ inOrder
  · simp only [taken]
    cases target.parent with
    | none =>
      refine renames _ (fun tree moved eq => ?_) (fun tree cause eq => ?_) tree base inOrder
      · simp only [eq]
      · simp only [eq]
    | some parent =>
      refine (confines_makeDirs parent).mapError.bind (fun _ => renames _ (fun tree moved eq => ?_)
        fun tree cause eq => ?_) tree base inOrder
      · simp only [eq]
      · simp only [eq]

end Copy

/-! ### Actions on a site -/

/-- Run on a site whose tree is in order, the action changes nothing outside of the region. -/
def Contains (region : Region) (action : SiteM ε α) : Prop :=
  ∀ site : Site, site.tree.base = region.base → site.tree.InOrder →
    site.tree.Confined region.holds (action.on site).2.tree

namespace Contains

theorem pure (a : α) : region.Contains (Pure.pure a : SiteM ε α) :=
  fun _ _ inOrder => .refl _ inOrder

theorem throw (e : ε) : region.Contains (throw e : SiteM ε α) := fun _ _ inOrder => .refl _ inOrder

/-- An action and then another, which may rely on what the first one has found. -/
theorem bind {action : SiteM ε α} {next : α → SiteM ε β} (first : region.Contains action)
    (second : ∀ a site after, site.tree.base = region.base → site.tree.InOrder →
      action.on site = (.ok a, after) → region.Contains (next a)) :
    region.Contains (action >>= next) := by
  intro site base inOrder
  have before := first site base inOrder
  rw [SiteM.on_bind]
  rcases ran : action.on site with ⟨e | a, mid⟩
  · rwa [ran] at before
  · rw [ran] at before
    exact before.trans (second a site mid base inOrder ran mid (before.base.trans base)
      before.inOrder)

theorem bind_const {action : SiteM ε α} {next : α → SiteM ε β} (first : region.Contains action)
    (second : ∀ a, region.Contains (next a)) : region.Contains (action >>= next) :=
  first.bind fun a _ _ _ _ _ => second a

theorem look (f : Tree → α) : region.Contains (SiteM.look f : SiteM ε α) :=
  fun _ _ inOrder => .refl _ inOrder

theorem lift (result : Except ε α) : region.Contains (SiteM.lift result) := by
  intro site _ inOrder
  rw [SiteM.on_lift]
  exact .refl _ inOrder

theorem note (line : String) : region.Contains (SiteM.note line : SiteM ε Unit) :=
  fun site _ inOrder => (Tree.Quiet.append site.tree _).confined inOrder _

theorem ite {c : Prop} [Decidable c] {action other : SiteM ε α} (first : region.Contains action)
    (second : region.Contains other) : region.Contains (if c then action else other) := by
  split
  · exact first
  · exact second

theorem files {action : FileM ε α} (confines : region.Confines action) :
    region.Contains (SiteM.files action) := by
  intro site base inOrder
  rw [SiteM.on_files]
  exact confines site.tree base inOrder

theorem mapError {f : ε → δ} {action : SiteM ε α} (contains : region.Contains action) :
    region.Contains (SiteM.mapError f action) := by
  intro site base inOrder
  rw [SiteM.on_mapError]
  exact contains site base inOrder

theorem attempt {action : SiteM ε α} (contains : region.Contains action) :
    region.Contains (SiteM.attempt action : SiteM δ (Except ε α)) := by
  intro site base inOrder
  rw [SiteM.on_attempt]
  exact contains site base inOrder

theorem mono {region' : Region} {action : SiteM ε α} (contains : region.Contains action)
    (base : region'.base = region.base) (sub : ∀ l, region.holds l → region'.holds l) :
    region'.Contains action :=
  fun site base' inOrder => (contains site (base'.trans base) inOrder).mono sub

theorem of_quiet {action : SiteM ε α}
    (quiet : ∀ site result after, action.on site = (result, after) →
      site.tree.Quiet after.tree) : region.Contains action :=
  fun site _ inOrder => (quiet site _ _ rfl).confined inOrder _

theorem makeDirs (path : Path) : region.Contains (Site.makeDirs path) :=
  files (confines_makeDirs path).mapError

theorem removeDirs (owns : region.Owns path) : region.Contains (Site.removeDirs path) :=
  files (confines_removeDirs owns).mapError

theorem change {f : Tree → Except IoError Tree} (changed : ∀ tree tree', tree.base = region.base →
    tree.InOrder → f tree = .ok tree' → tree.Confined region.holds tree') :
    region.Contains (Site.change path f) :=
  files (Confines.change changed).mapError

end Contains

end Region

end GoSplit
