import GoSplit.Proofs.Tree.Views

/-!
Doing the same to two trees. An operation on paths that are in view has the same outcome in two
trees that look the same, and leaves two trees that look the same. So does an action built from
such operations, as long as what it looks up is in view.
-/

namespace GoSplit

namespace View

variable {ε δ α β : Type} {view : View} {tree tree' : Tree} {path source target : Path}

/-! ### Changes -/

namespace Same

/-- An entry, the same in both trees. -/
theorem put (h : view.Same tree tree') {loc : Location} {node : Node} (below : loc ≠ [])
    (sound : (tree.put loc node).Sound) (sound' : (tree'.put loc node).Sound) :
    view.Same (tree.put loc node) (tree'.put loc node) := by
  refine ⟨h.base, h.base', h.mounts, h.refuses, sound, sound', fun l mem => ?_,
    fun l content mem => ?_, h.log, h.log'⟩
  · rw [Tree.find?_put below, Tree.find?_put below, h.find l mem]
  · rw [Tree.find?_put below, Tree.find?_put below]
    split
    · exact Iff.rfl
    · exact h.file l content mem

theorem remove (h : view.Same tree tree') {loc : Location} (below : loc ≠ []) :
    view.Same (tree.remove loc) (tree'.remove loc) := by
  refine ⟨h.base, h.base', h.mounts, h.refuses, h.sound.remove loc, h.sound'.remove loc,
    fun l mem => ?_, fun l content mem => ?_, fun l isOpen => ?_, fun l isOpen => ?_⟩
  · rw [Tree.find?_remove below, Tree.find?_remove below, h.find l mem]
  · rw [Tree.find?_remove below, Tree.find?_remove below]
    split
    · exact Iff.rfl
    · exact h.file l content mem
  · rw [Tree.remove, Option.filter_eq_some_iff] at isOpen
    exact h.log l isOpen.1
  · rw [Tree.remove, Option.filter_eq_some_iff] at isOpen
    exact h.log' l isOpen.1

theorem clear (h : view.Same tree tree') (loc : Location) :
    view.Same (tree.clear loc) (tree'.clear loc) := by
  refine ⟨h.base, h.base', h.mounts, h.refuses, h.sound.clear loc, h.sound'.clear loc,
    fun l mem => ?_, fun l content mem => ?_, fun l isOpen => ?_, fun l isOpen => ?_⟩
  · rw [Tree.find?_clear, Tree.find?_clear, h.find l mem]
  · rw [Tree.find?_clear, Tree.find?_clear]
    split
    · exact Iff.rfl
    · exact h.file l content mem
  · rw [Tree.clear, Option.filter_eq_some_iff] at isOpen
    exact h.log l isOpen.1
  · rw [Tree.clear, Option.filter_eq_some_iff] at isOpen
    exact h.log' l isOpen.1

/-- What is noted in the logs is out of sight. -/
theorem append (h : view.Same tree tree') (line line' : Text) :
    view.Same (tree.append line) (tree'.append line') := by
  have noted := Tree.rewritten_append tree line
  have noted' := Tree.rewritten_append tree' line'
  refine ⟨noted.base.trans h.base, noted'.base.trans h.base', ?_, ?_, h.sound.append line,
    h.sound'.append line', fun l mem => ?_, fun l content mem => ?_, ?_, ?_⟩
  · rw [noted.mounts, noted'.mounts, h.mounts]
  · rw [noted.refuses, noted'.refuses, h.refuses]
  · rw [noted.same l fun isOpen => (view.apart l (h.log l isOpen)).1 mem,
      noted'.same l fun isOpen => (view.apart l (h.log' l isOpen)).1 mem, h.find l mem]
  · rw [noted.same l fun isOpen => (view.apart l (h.log l isOpen)).2 mem,
      noted'.same l fun isOpen => (view.apart l (h.log' l isOpen)).2 mem]
    exact h.file l content mem
  · rw [noted.opened]
    exact h.log
  · rw [noted'.opened]
    exact h.log'

theorem takeOver (h : view.Same tree tree') {src dst : Location}
    (deep : ∀ l, src <+: l → view.all l) (deep' : ∀ l, dst <+: l → view.all l)
    (below : src ≠ []) (below' : dst ≠ []) (apart : ¬ src <+: dst) (apart' : ¬ dst <+: src)
    (above : tree.find? dst.dropLast = some .directory)
    (above' : tree'.find? dst.dropLast = some .directory) (names : ∀ name ∈ dst, Tree.IsName name) :
    view.Same ((tree.remove dst).move src dst) ((tree'.remove dst).move src dst) := by
  have out : ∀ log, view.logs log → ¬ src <+: log ∧ ¬ dst <+: log := fun log isLog =>
    ⟨fun within => (view.apart log isLog).1 (deep log within),
      fun within => (view.apart log isLog).1 (deep' log within)⟩
  have inside : ∀ rest, ((tree'.remove dst).move src dst).find? (dst ++ rest) =
      ((tree.remove dst).move src dst).find? (dst ++ rest) := by
    intro rest
    rw [Tree.find?_takeOver_append below below' apart apart',
      Tree.find?_takeOver_append below below' apart apart',
      h.find _ (deep _ (List.prefix_append ..))]
  refine ⟨h.base, h.base', h.mounts, h.refuses,
    h.sound.takeOver below below' apart apart' above names,
    h.sound'.takeOver below below' apart apart' above' names, fun l mem => ?_,
    fun l content mem => ?_, ?_, ?_⟩
  · by_cases within : dst <+: l
    · obtain ⟨rest, rfl⟩ := within
      exact inside rest
    · rw [Tree.find?_takeOver_of_outside below below' within,
        Tree.find?_takeOver_of_outside below below' within, h.find l mem]
  · by_cases within : dst <+: l
    · obtain ⟨rest, rfl⟩ := within
      rw [inside]
    · rw [Tree.find?_takeOver_of_outside below below' within,
        Tree.find?_takeOver_of_outside below below' within]
      split
      · exact Iff.rfl
      · exact h.file l content mem
  · rw [Tree.opened_takeOver fun log isOpen => out log (h.log log isOpen)]
    exact h.log
  · rw [Tree.opened_takeOver fun log isOpen => out log (h.log' log isOpen)]
    exact h.log'

end Same

/-! ### Single operations -/

/-- Two results: the same error, or trees that look the same. -/
inductive Both (view : View) : Except ε Tree → Except ε Tree → Prop
  | ok {tree tree' : Tree} : view.Same tree tree' → Both view (.ok tree) (.ok tree')
  | error (e : ε) : Both view (.error e) (.error e)

theorem Both.mapError {f : ε → δ} {result result' : Except ε Tree} (h : view.Both result result') :
    view.Both (result.mapError f) (result'.mapError f) := by
  cases h with
  | ok same => exact .ok same
  | error e => exact .error _

namespace Same

/-- An entry is made in the directory that was entered. -/
theorem create (h : view.Same tree tree') (covers : view.Covers path) {dir loc : Location}
    {name : Text} (entered : tree.enter path = .ok (dir, name))
    (stepped : Tree.step dir name = .ok loc) (free : tree.find? loc ≠ some .directory)
    (node : Node) :
    view.Both (tree.create loc node) (tree'.create loc node) := by
  have entered' : tree'.enter path = .ok (dir, name) := by rw [h.enter covers, entered]
  have inView := h.all_of_landing covers (Tree.landing_of_enter entered stepped).1
  have free' : tree'.find? loc ≠ some .directory := by rwa [h.find loc inView]
  obtain ⟨below, above, names⟩ := h.sound.entered entered stepped free
  obtain ⟨-, above', -⟩ := h.sound'.entered entered' stepped free'
  rw [Tree.create, Tree.create, h.refuses]
  cases tree.refuses loc with
  | some e => exact .error e
  | none =>
    exact .ok (h.put below (h.sound.put below above names (.inr free))
      (h.sound'.put below above' names (.inr free')))

theorem makeDir (h : view.Same tree tree') (covers : view.Covers path) :
    view.Both (tree.makeDir path) (tree'.makeDir path) := by
  simp only [Tree.makeDir, h.enter covers, Bind.bind, Except.bind]
  cases entered : tree.enter path with
  | error e => exact .error e
  | ok entry =>
    dsimp only
    cases stepped : Tree.step entry.1 entry.2 with
    | error e => exact .error e
    | ok loc =>
      have inView := h.all_of_landing covers (Tree.landing_of_enter entered stepped).1
      dsimp only
      rw [h.find loc inView]
      cases found : tree.find? loc with
      | some node => exact .error _
      | none =>
        refine h.create covers entered stepped ?_ .directory
        simp [found]

theorem ensureDir (h : view.Same tree tree') (covers : view.Covers path) :
    view.Both (tree.ensureDir path) (tree'.ensureDir path) := by
  have made := h.makeDir covers
  unfold Tree.ensureDir
  generalize tree.makeDir path = result at made
  generalize tree'.makeDir path = result' at made
  cases made with
  | ok same => exact .ok same
  | error e =>
    dsimp only
    rw [h.isDir covers]
    split
    · exact .ok h
    · exact .error e

theorem writeBytes (h : view.Same tree tree') (covers : view.Covers path) (content : Content) :
    view.Both (tree.writeBytes path content) (tree'.writeBytes path content) := by
  simp only [Tree.writeBytes, h.enter covers, Bind.bind, Except.bind]
  cases entered : tree.enter path with
  | error e => exact .error e
  | ok entry =>
    dsimp only
    split
    · exact .error _
    cases stepped : Tree.step entry.1 entry.2 with
    | error e => exact .error e
    | ok loc =>
      have inView := h.all_of_landing covers (Tree.landing_of_enter entered stepped).1
      dsimp only
      rw [h.find loc inView]
      by_cases taken : tree.find? loc = some .directory
      · rw [if_pos taken, if_pos taken]
        exact .error _
      · rw [if_neg taken, if_neg taken]
        exact h.create covers entered stepped taken _

theorem copyFile (h : view.Same tree tree') (covers : view.Covers source)
    (covers' : view.Covers target) :
    view.Both (tree.copyFile source target) (tree'.copyFile source target) := by
  rw [Tree.copyFile, Tree.copyFile, h.readBytes covers, h.locate covers, h.locate covers']
  cases tree.readBytes source with
  | error e => exact .error e
  | ok content => exact h.writeBytes covers' _

theorem obstacle (h : view.Same tree tree') {dst : Location} (deep : ∀ l, dst <+: l → view.all l)
    (below : dst ≠ []) (node : Node) : tree'.obstacle node dst = tree.obstacle node dst := by
  have full : ∀ tree : Tree, (tree.entries.any fun e => e.1.isBelow dst) = true ↔
      ∃ l, dst <+: l ∧ l ≠ dst ∧ (tree.find? l).isSome = true := by
    intro tree
    rw [List.any_eq_true]
    constructor
    · rintro ⟨e, mem, lower⟩
      rw [Location.isBelow, Location.isWithin, Bool.and_eq_true, List.isPrefixOf_iff_prefix,
        Bool.not_eq_true', ← Bool.not_eq_true, Location.same_eq_true] at lower
      exact ⟨e.1, lower.1, lower.2, Tree.find?_isSome_of_mem mem⟩
    · rintro ⟨l, within, proper, some⟩
      obtain ⟨node, found⟩ := Option.isSome_iff_exists.1 some
      have lower : l ≠ [] := by
        rintro rfl
        exact below (List.prefix_nil.1 within)
      refine ⟨(l, node), Tree.exists_mem_of_find? lower found, ?_⟩
      rw [Location.isBelow, Location.isWithin, Bool.and_eq_true, List.isPrefixOf_iff_prefix,
        Bool.not_eq_true', ← Bool.not_eq_true, Location.same_eq_true]
      exact ⟨within, proper⟩
  have same : (tree'.entries.any fun e => e.1.isBelow dst) =
      tree.entries.any fun e => e.1.isBelow dst := by
    rw [Bool.eq_iff_iff, full, full]
    refine exists_congr fun l => and_congr_right fun within => ?_
    rw [h.find l (deep l within)]
  unfold Tree.obstacle
  rw [h.find dst (deep dst List.prefix_rfl), same]

theorem rename (h : view.Same tree tree') (owns : view.Owns source) (owns' : view.Owns target) :
    view.Both (tree.rename source target) (tree'.rename source target) := by
  have device : ∀ l, tree'.device l = tree.device l := fun l => by
    rw [Tree.device, Tree.device, h.mounts]
  simp only [Tree.rename, h.enter owns.covers, h.enter owns'.covers, device, Bind.bind, Except.bind]
  split
  · exact .error _
  cases entered : tree.enter source with
  | error e => exact .error e
  | ok entry =>
    dsimp only
    cases entered' : tree.enter target with
    | error e => exact .error e
    | ok entry' =>
      dsimp only
      split
      · exact .error _
      split
      · exact .error _
      next dots =>
      cases stepped : Tree.step entry.1 entry.2 with
      | error e => exact .error e
      | ok src =>
        obtain ⟨below, deep⟩ := h.owns_of_landing owns (Tree.landing_of_enter entered stepped).1
        dsimp only
        rw [h.find src (deep src List.prefix_rfl)]
        cases found : tree.find? src with
        | none => exact .error _
        | some node =>
          dsimp only
          cases stepped' : Tree.step entry'.1 entry'.2 with
          | error e => exact .error e
          | ok dst =>
            obtain ⟨below', deep'⟩ :=
              h.owns_of_landing owns' (Tree.landing_of_enter entered' stepped').1
            dsimp only
            split
            · exact .error _
            rw [Tree.takeOver, Tree.takeOver, h.obstacle deep' below', h.refuses]
            split
            · exact .ok h
            split
            · exact .error _
            next out =>
            split
            · exact .error _
            next out' =>
            cases (tree.obstacle node dst).or (tree.refuses dst) with
            | some e => exact .error e
            | none =>
              rw [Location.isWithin, List.isPrefixOf_iff_prefix] at out out'
              -- The name was looked up in a directory, which is the one above.
              obtain ⟨directory, whole, atRoot⟩ := Tree.enter_eq_ok entered'
              have directory' : tree'.find? entry'.1 = some .directory :=
                (Tree.enter_eq_ok (h.enter owns'.covers ▸ entered')).1
              rw [Bool.or_eq_true, not_or, Bool.not_eq_true, Bool.not_eq_true] at dots
              rcases Tree.step_eq_ok stepped' with
                ⟨rfl, still⟩ | ⟨-, up⟩ | ⟨rfl, visible, plain, short⟩
              · rcases still with blank | dot
                · exact absurd (atRoot blank) below'
                · rw [dot] at dots
                  exact absurd dots.2 (by decide)
              · rw [up] at dots
                exact absurd dots.2 (by decide)
              · refine .ok (h.takeOver deep deep' below below' out out' ?_ ?_ fun name mem => ?_)
                · rwa [List.dropLast_concat]
                · rwa [List.dropLast_concat]
                · rcases List.mem_append.1 mem with mem | mem
                  · exact h.sound.isName_of_find? directory name mem
                  · rw [List.mem_singleton.1 mem]
                    exact ⟨visible, plain, whole, short⟩

end Same

/-! ### Actions -/

/-- Two outcomes of an action: the same result, and trees that look the same. -/
def Pair (view : View) (outcome outcome' : Except ε α × Tree) : Prop :=
  outcome'.1 = outcome.1 ∧ view.Same outcome.2 outcome'.2

/-- The action cannot tell trees apart that look the same. -/
def Agrees (view : View) (action : FileM ε α) : Prop :=
  ∀ tree tree', view.Same tree tree' → view.Pair (action.on tree) (action.on tree')

namespace Agrees

theorem pure (a : α) : view.Agrees (Pure.pure a : FileM ε α) := fun _ _ h => ⟨rfl, h⟩

theorem throw (e : ε) : view.Agrees (throw e : FileM ε α) := fun _ _ h => ⟨rfl, h⟩

theorem bind {action : FileM ε α} {next : α → FileM ε β} (first : view.Agrees action)
    (second : ∀ a, view.Agrees (next a)) : view.Agrees (action >>= next) := by
  intro tree tree' h
  obtain ⟨result, same⟩ := first tree tree' h
  rw [FileM.on_bind, FileM.on_bind]
  generalize action.on tree = outcome at result same
  generalize action.on tree' = outcome' at result same
  obtain ⟨result₁, after⟩ := outcome
  obtain ⟨result₂, after'⟩ := outcome'
  cases result
  cases result₁ with
  | error e => exact ⟨rfl, same⟩
  | ok a => exact second a after after' same

/-- What follows a look at the tree. -/
theorem get {next : Tree → FileM ε α}
    (rest : ∀ tree tree', view.Same tree tree' →
      view.Pair ((next tree).on tree) ((next tree').on tree')) : view.Agrees (get >>= next) := by
  intro tree tree' h
  rw [FileM.on_bind_of_ok (FileM.on_get tree), FileM.on_bind_of_ok (FileM.on_get tree')]
  exact rest tree tree' h

theorem look {f : Tree → Except ε α} {next : α → FileM ε β}
    (same : ∀ tree tree', view.Same tree tree' → f tree' = f tree)
    (rest : ∀ tree a, tree.Sound → f tree = .ok a → view.Agrees (next a)) :
    view.Agrees (FileM.look f >>= next) := by
  intro tree tree' h
  rw [FileM.on_bind, FileM.on_bind, FileM.on_look, FileM.on_look, same tree tree' h]
  cases result : f tree with
  | error e => exact ⟨rfl, h⟩
  | ok a => exact rest tree a h.sound result tree tree' h

theorem modify {f : Tree → Tree}
    (same : ∀ tree tree', view.Same tree tree' → view.Same (f tree) (f tree')) :
    view.Agrees (modify f : FileM ε PUnit) := fun tree tree' h => ⟨rfl, same tree tree' h⟩

theorem mapError {f : ε → δ} {action : FileM ε α} (agrees : view.Agrees action) :
    view.Agrees (FileM.mapError f action) := by
  intro tree tree' h
  obtain ⟨result, same⟩ := agrees tree tree' h
  rw [FileM.on_mapError, FileM.on_mapError]
  exact ⟨by rw [result], same⟩

theorem change {f : Tree → Except ε Tree}
    (both : ∀ tree tree', view.Same tree tree' → view.Both (f tree) (f tree')) :
    view.Agrees (FileM.change f) := by
  intro tree tree' h
  have results := both tree tree' h
  rw [FileM.on_change, FileM.on_change]
  generalize f tree = result at results
  generalize f tree' = result' at results
  cases results with
  | ok same => exact ⟨rfl, same⟩
  | error e => exact ⟨rfl, h⟩

end Agrees

theorem Same.makeDirsFrom (covers : ∀ q : Path, q.Above target → view.Covers q)
    (above : path.Above target) (h : view.Same tree tree') (levels : Nat) :
    view.Pair (tree.makeDirsFrom path levels) (tree'.makeDirsFrom path levels) := by
  induction levels generalizing path with
  | zero => exact ⟨rfl, h⟩
  | succ levels ih =>
    have here := h.ensureDir (covers path above)
    unfold Tree.makeDirsFrom
    split
    · exact ⟨rfl, h⟩
    generalize tree.ensureDir path = first at here
    generalize tree'.ensureDir path = first' at here
    cases here with
    | ok same => exact ⟨rfl, same⟩
    | error e =>
      cases e with
      | notFound =>
        dsimp only
        cases up : path.parent with
        | none => exact ⟨rfl, h⟩
        | some parent =>
          obtain ⟨result, same⟩ := ih (above.parent up)
          dsimp only
          generalize tree.makeDirsFrom parent levels = outcome at result same
          generalize tree'.makeDirsFrom parent levels = outcome' at result same
          obtain ⟨result₁, after⟩ := outcome
          obtain ⟨result₂, after'⟩ := outcome'
          cases result
          cases result₁ with
          | error e => exact ⟨rfl, same⟩
          | ok _ =>
            have again := same.ensureDir (covers path above)
            dsimp only at again ⊢
            generalize after.ensureDir path = second at again
            generalize after'.ensureDir path = second' at again
            cases again with
            | ok same => exact ⟨rfl, same⟩
            | error e => exact ⟨rfl, same⟩
      | _ => exact ⟨rfl, h⟩

theorem agrees_makeDirs (covers : ∀ q : Path, q.Above path → view.Covers q) :
    view.Agrees (Tree.makeDirs path) :=
  fun _ _ h => h.makeDirsFrom covers (.inl rfl) _

theorem agrees_removeDirs (owns : view.Owns path) : view.Agrees (Tree.removeDirs path) := by
  unfold Tree.removeDirs
  apply Agrees.get
  intro tree tree' h
  rw [h.lookup owns.covers]
  cases looked : tree.lookup path with
  | error e => exact Agrees.throw e tree tree' h
  | ok entry =>
    obtain ⟨loc, _ | content⟩ := entry
    · have landed := (Tree.locate_iff_landing.1 (Tree.lookup_eq_ok_iff.1 looked).1).1
      obtain ⟨below, -⟩ := h.owns_of_landing owns landed
      refine Agrees.bind (.modify fun _ _ h => h.clear loc) (fun _ => .get fun tree tree' h => ?_)
        tree tree' h
      rw [h.enter owns.covers]
      split
      · exact Agrees.pure () tree tree' h
      · exact Agrees.throw _ tree tree' h
      · split
        · exact Agrees.throw _ tree tree' h
        split
        · exact Agrees.throw _ tree tree' h
        · exact Agrees.modify (fun _ _ h => h.remove below) tree tree' h
    · exact Agrees.throw _ tree tree' h

/-! ### Copying and moving directories -/

section Copy

variable {from' to' : Path}

/-- The paths of a copy: from a directory in view to another. -/
structure Spans (view : View) (from' to' source target : Path) : Prop where
  takesIn : view.TakesIn from'
  takesIn' : view.TakesIn to'
  closed : ¬ (from'.text.isEmpty || from'.text.getLast? == some '/') = true
  closed' : ¬ (to'.text.isEmpty || to'.text.getLast? == some '/') = true
  beneath : source.Beneath from'
  beneath' : target.Beneath to'

namespace Spans

theorem owns (h : view.Spans from' to' source target) : view.Owns source := h.takesIn.owns h.beneath

theorem owns' (h : view.Spans from' to' source target) : view.Owns target :=
  h.takesIn'.owns h.beneath'

theorem join (h : view.Spans from' to' source target) {name : Text} (isName : Tree.IsName name) :
    view.Spans from' to' (source.join name) (target.join name) :=
  ⟨h.takesIn, h.takesIn', h.closed, h.closed', h.beneath.join h.closed isName,
    h.beneath'.join h.closed' isName⟩

theorem agrees_makeDirs (h : view.Spans from' to' source target) :
    view.Agrees (Tree.makeDirs target) :=
  View.agrees_makeDirs fun _ above => h.takesIn'.covers_above h.beneath' above

end Spans

theorem agrees_ensureDirs (h : view.Spans from' to' source target) :
    view.Agrees (Tree.ensureDirs target) := by
  unfold Tree.ensureDirs
  apply Agrees.get
  intro tree tree' same
  rw [same.exists? h.owns'.covers]
  split
  · exact h.agrees_makeDirs.mapError tree tree' same
  · exact Agrees.pure () tree tree' same

theorem agrees_copyEntries {copyDir : Path → Path → FileM FileOpError Unit}
    (copies : ∀ source target, view.Spans from' to' source target →
      view.Agrees (copyDir source target))
    (h : view.Spans from' to' source target) {names : List Text}
    (proper : ∀ name ∈ names, Tree.IsName name) :
    view.Agrees (Tree.copyEntries copyDir source target names) := by
  induction names with
  | nil => exact .pure ()
  | cons name names ih =>
    obtain ⟨here, rest⟩ := List.forall_mem_cons.1 proper
    have spans := h.join here
    unfold Tree.copyEntries
    apply Agrees.get
    intro tree tree' same
    rw [same.isDir spans.owns.covers]
    split
    · exact (copies _ _ spans).bind (fun _ => ih rest) tree tree' same
    · refine Agrees.bind (.change fun tree tree' same => ?_) (fun _ => ih rest) tree tree' same
      exact (same.copyFile spans.owns.covers spans.owns'.covers).mapError

theorem agrees_copyLevels (levels : Nat) :
    ∀ source target, view.Spans from' to' source target →
      view.Agrees (Tree.copyLevels levels source target) := by
  induction levels with
  | zero => exact fun _ _ _ => .pure ()
  | succ levels ih =>
    intro source target h
    refine (agrees_ensureDirs h).bind fun _ => Agrees.look (fun tree tree' same => ?_)
      fun tree names sound listed => agrees_copyEntries ih h fun name mem => ?_
    · rw [same.namesAt h.owns]
    · unfold Tree.namesAt at listed
      split at listed
      · cases listed
      · cases listed
      · cases listed
        obtain ⟨node, found⟩ := (Tree.mem_namesIn sound).1 mem
        exact sound.isName_of_find? found name (by simp)

theorem agrees_copyAway (h : view.Spans from' to' source target) (cause : IoError) :
    view.Agrees (Tree.copyAway source target cause) := by
  unfold Tree.copyAway Tree.copyDir
  apply Agrees.get
  intro tree tree' same
  obtain ⟨result, copied⟩ := agrees_copyLevels Path.byteLimit source target h tree tree' same
  rw [same.isDir h.owns.covers]
  by_cases there : tree.isDir source = true
  · simp only [there, Bool.not_true, Bool.false_eq_true, if_false]
    generalize (Tree.copyLevels Path.byteLimit source target).on tree = outcome at result copied
    generalize (Tree.copyLevels Path.byteLimit source target).on tree' = outcome' at result copied
    obtain ⟨result₁, after⟩ := outcome
    obtain ⟨result₂, after'⟩ := outcome'
    cases result
    cases result₁ with
    | error e => exact ⟨rfl, (agrees_removeDirs h.owns' after after' copied).2⟩
    | ok _ => exact (agrees_removeDirs h.owns).mapError after after' copied
  · simp only [there, Bool.not_false, if_true]
    exact ⟨rfl, same⟩

theorem agrees_moveDir (h : view.Spans from' to' source target) :
    view.Agrees (Tree.moveDir source target) := by
  -- Renaming, and copying where that is not possible.
  have renames : ∀ next : Tree → FileM FileOpError Unit,
      (∀ tree moved, tree.rename source target = .ok moved → next tree = set moved) →
      (∀ tree cause, tree.rename source target = .error cause →
        next tree = Tree.copyAway source target cause) → view.Agrees (get >>= next) := by
    intro next renamed refused
    apply Agrees.get
    intro tree tree' same
    have both := same.rename h.owns h.owns'
    generalize result : tree.rename source target = outcome at both
    generalize result' : tree'.rename source target = outcome' at both
    cases both with
    | ok moved =>
      rw [renamed tree _ result, renamed tree' _ result']
      exact ⟨rfl, moved⟩
    | error cause =>
      rw [refused tree cause result, refused tree' cause result']
      exact agrees_copyAway h cause tree tree' same
  unfold Tree.moveDir
  apply Agrees.get
  intro tree tree' same
  rw [same.exists? h.owns'.covers]
  by_cases taken : tree.exists? target = true
  · simp only [taken, if_true]
    exact ⟨rfl, same⟩
  · simp only [taken]
    cases up : target.parent with
    | none =>
      refine renames _ (fun tree moved eq => ?_) (fun tree cause eq => ?_) tree tree' same
      · simp only [eq]
      · simp only [eq]
    | some parent =>
      have above : ∀ q : Path, q.Above parent → view.Covers q := fun q above =>
        h.takesIn'.covers_above h.beneath' (above.trans (.parent (.inl rfl) up))
      refine (agrees_makeDirs above).mapError.bind (fun _ => renames _ (fun tree moved eq => ?_)
        fun tree cause eq => ?_) tree tree' same
      · simp only [eq]
      · simp only [eq]

end Copy

end View

end GoSplit
