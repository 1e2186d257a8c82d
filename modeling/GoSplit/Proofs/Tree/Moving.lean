import GoSplit.Proofs.Tree.Directories

/-!
Removing, renaming and moving whole directories. A directory that is removed loses all that
is below it, and one that is moved takes it along.
-/

namespace GoSplit

namespace FileM

variable {ε δ α β : Type}

@[simp] theorem on_pure (a : α) (tree : Tree) : (pure a : FileM ε α).on tree = (.ok a, tree) := rfl

@[simp] theorem on_throw (e : ε) (tree : Tree) :
    (throw e : FileM ε α).on tree = (.error e, tree) := rfl

/-- An action and then another. -/
theorem on_bind (action : FileM ε α) (next : α → FileM ε β) (tree : Tree) :
    (action >>= next).on tree =
      match action.on tree with
      | (.ok a, after) => (next a).on after
      | (.error e, after) => (.error e, after) := by
  simp only [on, ExceptT.run_bind, StateT.run_bind]
  rcases h : StateT.run (ExceptT.run action) tree with ⟨_ | a, after⟩ <;> rfl

theorem on_bind_of_ok {action : FileM ε α} {next : α → FileM ε β} {tree after : Tree} {a : α}
    (h : action.on tree = (.ok a, after)) : (action >>= next).on tree = (next a).on after := by
  rw [on_bind, h]

@[simp] theorem on_get (tree : Tree) : (get : FileM ε Tree).on tree = (.ok tree, tree) := rfl

@[simp] theorem on_set (changed tree : Tree) :
    (set changed : FileM ε PUnit).on tree = (.ok (), changed) := rfl

@[simp] theorem on_modify (f : Tree → Tree) (tree : Tree) :
    (modify f : FileM ε PUnit).on tree = (.ok (), f tree) := rfl

@[simp] theorem on_mapError (f : ε → δ) (action : FileM ε α) (tree : Tree) :
    (mapError f action).on tree = ((action.on tree).1.mapError f, (action.on tree).2) := rfl

theorem on_change (f : Tree → Except ε Tree) (tree : Tree) :
    (change f).on tree =
      match f tree with
      | .ok changed => (.ok (), changed)
      | .error e => (.error e, tree) := by
  have opened : (change f).on tree =
      (ExceptT.run (match f tree with
        | .ok changed => set changed
        | .error e => throw e : FileM ε Unit)).run tree := rfl
  rw [opened]
  cases f tree <;> rfl

theorem on_look (f : Tree → Except ε α) (tree : Tree) : (look f).on tree = (f tree, tree) := by
  rw [look, on_bind_of_ok (on_get tree)]
  cases f tree <;> rfl

end FileM

namespace Tree

/-! ### Removing -/

/-- Removing a directory takes away what is below it at least, or nothing. -/
theorem on_removeDirs_cases {tree after : Tree} {path : Path} {result : Except IoError Unit}
    (h : (removeDirs path).on tree = (result, after)) :
    after = tree ∧ result ≠ .ok () ∨
      ∃ loc, tree.locate path = .ok loc ∧ tree.find? loc = some .directory ∧
        (after = tree.clear loc ∨ after = (tree.clear loc).remove loc) := by
  rw [removeDirs, FileM.on_bind_of_ok (FileM.on_get tree)] at h
  split at h
  · cases h
    exact .inl ⟨rfl, by simp⟩
  · cases h
    exact .inl ⟨rfl, by simp⟩
  · next loc found =>
    obtain ⟨located, directory⟩ := lookup_eq_ok_iff.1 found
    refine .inr ⟨loc, located, directory, ?_⟩
    rw [FileM.on_bind_of_ok (FileM.on_modify _ tree),
      FileM.on_bind_of_ok (FileM.on_get _)] at h
    split at h
    · cases h
      exact .inl rfl
    · cases h
      exact .inl rfl
    · split at h
      · cases h
        exact .inl rfl
      split at h
      · cases h
        exact .inl rfl
      · cases h
        exact .inr rfl

/-- A directory that could be removed is empty, at least. -/
theorem on_removeDirs_eq_ok {tree after : Tree} {path : Path}
    (h : (removeDirs path).on tree = (.ok (), after)) :
    ∃ loc, tree.locate path = .ok loc ∧ tree.find? loc = some .directory ∧
      (after = tree.clear loc ∨ after = (tree.clear loc).remove loc) :=
  (on_removeDirs_cases h).resolve_left fun failed => failed.2 rfl

/-- A path that ends in a name is entered at the directory above. -/
theorem enter_of_locate {tree : Tree} {path : Path} {name : Text} {loc : Location}
    (named : path.Names name) (below : loc ≠ []) (located : tree.locate path = .ok loc) :
    tree.enter path = .ok (loc.dropLast, name) ∧ step loc.dropLast name = .ok loc := by
  obtain ⟨init, dir, found, followed, directory, stepped⟩ :=
    (locate_eq_ok_iff_of_names named below).1 located
  have above : dir = loc.dropLast := by
    rw [step_of_names named] at stepped
    split at stepped
    · cases stepped
    · cases stepped
      rw [List.dropLast_concat]
  subst above
  refine ⟨?_, stepped⟩
  rw [enter_of_names named found, followed]
  simp only [Except.bind, notADirectory_eq_none.2 directory]

/-- A directory goes away when it can still be found without its contents. -/
theorem on_removeDirs_of_names {tree : Tree} {path : Path} {name : Text} {loc : Location}
    (named : path.Names name) (below : loc ≠ []) (located : tree.locate path = .ok loc)
    (directory : tree.find? loc = some .directory)
    (again : (tree.clear loc).locate path = .ok loc) :
    (removeDirs path).on tree = (.ok (), (tree.clear loc).remove loc) := by
  rw [removeDirs, FileM.on_bind_of_ok (FileM.on_get tree), lookup_eq_ok_iff.2 ⟨located, directory⟩]
  dsimp only
  rw [FileM.on_bind_of_ok (FileM.on_modify _ tree), FileM.on_bind_of_ok (FileM.on_get _),
    (enter_of_locate named below again).1]
  dsimp only
  rw [if_neg named.ne_dot, if_neg named.ne_dots]
  rfl

/-! ### Moving -/

section TakeOver

variable {tree : Tree} {src dst : Location}

theorem find?_takeOver_append (below : src ≠ []) (below' : dst ≠ []) (apart : ¬ src <+: dst)
    (apart' : ¬ dst <+: src) (rest : Location) :
    ((tree.remove dst).move src dst).find? (dst ++ rest) = tree.find? (src ++ rest) := by
  have outside : ¬ dst <+: src ++ rest := by
    intro within
    rcases List.prefix_or_prefix_of_prefix within (List.prefix_append src rest) with part | part
    · exact apart' part
    · exact apart part
  rw [find?_move_append below fun l within => by rw [find?_remove below', if_pos within],
    find?_remove below', if_neg outside]

theorem find?_takeOver_of_outside (below : src ≠ []) (below' : dst ≠ []) {loc : Location}
    (out : ¬ dst <+: loc) :
    ((tree.remove dst).move src dst).find? loc =
      if src <+: loc then none else tree.find? loc := by
  rw [find?_move_of_outside below out, find?_remove below', if_neg out]

theorem opened_takeOver (outside : ∀ log ∈ tree.opened, ¬ src <+: log ∧ ¬ dst <+: log) :
    ((tree.remove dst).move src dst).opened = tree.opened := by
  rw [move, remove]
  cases isOpen : tree.opened with
  | none => rfl
  | some log =>
    obtain ⟨outSrc, outDst⟩ := outside log isOpen
    have kept : Location.isWithin log dst = false := by
      rw [← Bool.not_eq_true, Location.isWithin, List.isPrefixOf_iff_prefix]
      exact outDst
    simp [kept, moved_of_outside outSrc]

end TakeOver

/-- An entry can be renamed to a free name on the same file system. -/
theorem rename_of_free {tree : Tree} {source target : Path} {name name' : Text}
    {src dst : Location} {node : Node} (named : source.Names name) (named' : target.Names name')
    (located : tree.locate source = .ok src) (located' : tree.locate target = .ok dst)
    (found : tree.find? src = some node) (free : tree.find? dst = none)
    (below : src ≠ []) (apart : ¬ src <+: dst) (apart' : ¬ dst <+: src)
    (device : tree.device src.dropLast = tree.device dst.dropLast)
    (allowed : tree.refuses dst = none) :
    tree.rename source target = .ok ((tree.remove dst).move src dst) := by
  have below' : dst ≠ [] := by
    rintro rfl
    exact apart' List.nil_prefix
  have whole : ∀ {path : Path} {loc : Location}, tree.locate path = .ok loc →
      path.hasZero = false := by
    intro path loc located
    obtain ⟨names, found, -⟩ := locate_eq_ok_iff.1 located
    exact (namesOf_eq_ok_iff.1 found).1.whole
  obtain ⟨entered, stepped⟩ := enter_of_locate named below located
  obtain ⟨entered', stepped'⟩ := enter_of_locate named' below' located'
  have unobstructed : (tree.obstacle node dst).or (tree.refuses dst) = none := by
    cases node <;> simp [obstacle, free, allowed]
  have taken : tree.takeOver node src dst = .ok ((tree.remove dst).move src dst) := by
    have ne : src ≠ dst := fun eq => apart (eq ▸ List.prefix_rfl)
    have out : Location.isWithin dst src = false := by
      rw [← Bool.not_eq_true, Location.isWithin, List.isPrefixOf_iff_prefix]
      exact apart
    have out' : Location.isWithin src dst = false := by
      rw [← Bool.not_eq_true, Location.isWithin, List.isPrefixOf_iff_prefix]
      exact apart'
    rw [takeOver, if_neg ne, out, out', unobstructed]
    rfl
  simp only [rename, whole located, whole located', entered, entered', device, named.2.2,
    named'.2.2, stepped, stepped', found, named.endsInSlash, named'.endsInSlash, Bind.bind,
    Except.bind, Bool.or_false, Bool.false_eq_true, if_false, ne_eq, not_true_eq_false,
    Bool.false_and, taken]

theorem on_moveDir_of_rename {tree made moved : Tree} {source target parent : Path}
    (free : tree.exists? target = false) (up : target.parent = some parent)
    (ran : (makeDirs parent).on tree = (.ok (), made))
    (renamed : made.rename source target = .ok moved) :
    (moveDir source target).on tree = (.ok (), moved) := by
  have dirs : (FileM.mapError (FileOpError.createDir parent) (makeDirs parent)).on tree =
      (.ok (), made) := by
    rw [FileM.on_mapError, ran]
    rfl
  rw [moveDir, FileM.on_bind_of_ok (FileM.on_get tree), free]
  simp only [Bool.false_eq_true, if_false, up]
  rw [FileM.on_bind_of_ok dirs, FileM.on_bind_of_ok (FileM.on_get made), renamed]
  exact FileM.on_set ..

end Tree

end GoSplit
