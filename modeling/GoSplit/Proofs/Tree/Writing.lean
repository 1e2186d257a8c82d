import GoSplit.Proofs.Tree.Paths

/-!
Writing files. A written file can be read back, files elsewhere keep their contents, and
every path leads where it led before.
-/

namespace GoSplit.Tree

/-- The other tree has the same directories; files may differ, but only where `touched`
says so. -/
structure Rewritten (touched : Location → Prop) (tree tree' : Tree) : Prop where
  base : tree'.base = tree.base
  mounts : tree'.mounts = tree.mounts
  refuses : tree'.refuses = tree.refuses
  opened : tree'.opened = tree.opened
  directory : ∀ loc, tree'.find? loc = some .directory ↔ tree.find? loc = some .directory
  same : ∀ loc, ¬ touched loc → tree'.find? loc = tree.find? loc

namespace Rewritten

variable {touched touched' : Location → Prop} {tree tree' tree'' : Tree}

theorem refl (touched : Location → Prop) (tree : Tree) : Rewritten touched tree tree :=
  ⟨rfl, rfl, rfl, rfl, fun _ => Iff.rfl, fun _ _ => rfl⟩

theorem trans (h : Rewritten touched tree tree') (h' : Rewritten touched tree' tree'') :
    Rewritten touched tree tree'' :=
  ⟨h'.base.trans h.base, h'.mounts.trans h.mounts, h'.refuses.trans h.refuses,
    h'.opened.trans h.opened, fun loc => (h'.directory loc).trans (h.directory loc),
    fun loc out => (h'.same loc out).trans (h.same loc out)⟩

theorem mono (h : Rewritten touched tree tree') (sub : ∀ loc, touched loc → touched' loc) :
    Rewritten touched' tree tree' :=
  ⟨h.base, h.mounts, h.refuses, h.opened, h.directory,
    fun loc out => h.same loc fun t => out (sub loc t)⟩

theorem locate (h : Rewritten touched tree tree') {path : Path} {loc : Location}
    (found : tree.locate path = .ok loc) : tree'.locate path = .ok loc := by
  obtain ⟨names, named, followed⟩ := locate_eq_ok_iff.1 found
  refine locate_eq_ok_iff.2 ⟨names, by rw [namesOf_congr h.base, named], ?_⟩
  exact follow_mono (fun loc => (h.directory loc).2) followed

end Rewritten

/-- Entering a file where no directory is. -/
theorem rewritten_put {tree : Tree} {loc : Location} (free : tree.find? loc ≠ some .directory)
    (content : Content) : Rewritten (· = loc) tree (tree.put loc (.file content)) := by
  have below : loc ≠ [] := by
    rintro rfl
    simp at free
  refine ⟨rfl, rfl, rfl, rfl, fun other => ?_, fun other out => ?_⟩
  · rw [find?_put below]
    split
    · next eq => simpa [eq] using free
    · exact Iff.rfl
  · rw [find?_put below, if_neg out]

/-- A note reaches the open file and nothing else. -/
theorem rewritten_append (tree : Tree) (addition : Text) :
    Rewritten (fun loc => tree.opened = some loc) tree (tree.append addition) := by
  unfold append
  split
  · exact .refl _ tree
  · next log isOpen =>
    split
    · next content found =>
      have free : tree.find? log ≠ some .directory := by simp [found]
      exact (rewritten_put free _).mono fun loc eq => by rw [isOpen, eq]
    · exact .refl _ tree

/-! ### Files at paths -/

/-- Where a file can be written at a path. -/
structure Takes (tree : Tree) (path : Path) (loc : Location) : Prop where
  located : tree.locate path = .ok loc
  free : tree.find? loc ≠ some .directory
  allowed : tree.refuses loc = none

theorem Takes.below {tree : Tree} {path : Path} {loc : Location} (h : tree.Takes path loc) :
    loc ≠ [] := by
  rintro rfl
  simpa using h.free

theorem Takes.rewritten {touched : Location → Prop} {tree tree' : Tree} {path : Path}
    {loc : Location} (h : tree.Takes path loc) (kept : Rewritten touched tree tree') :
    tree'.Takes path loc :=
  ⟨kept.locate h.located, by rw [ne_eq, kept.directory]; exact h.free, by
    rw [kept.refuses, h.allowed]⟩

theorem enter_of_names {tree : Tree} {path : Path} {name : Text} {init : List Text}
    (named : path.Names name) (found : tree.namesOf path = .ok (init ++ [name])) :
    tree.enter path = (tree.follow [] init).bind fun dir =>
      match tree.notADirectory dir with
      | some e => .error e
      | none => .ok (dir, name) := by
  have proper : ((init ++ [name]).reverse.dropWhile List.isEmpty).reverse = init ++ [name] := by
    have visible : name.isEmpty = false := by simp [named.2.1]
    rw [List.reverse_append, List.reverse_singleton, List.singleton_append,
      List.dropWhile_cons_of_neg (by simp [visible]), List.reverse_cons, List.reverse_reverse]
  simp only [enter, found, Bind.bind, Except.bind]
  rw [proper, List.dropLast_concat]
  cases tree.follow [] init with
  | error e => rfl
  | ok dir =>
    dsimp only
    cases tree.notADirectory dir <;> simp [throw, throwThe, MonadExceptOf.throw, pure, Except.pure]

/-- The last step of a path that ends in a name. -/
theorem enter_bind_step {tree : Tree} {path : Path} {name : Text} (named : path.Names name) :
    ((tree.enter path).bind fun entry => step entry.1 entry.2) = tree.locate path := by
  cases found : tree.namesOf path with
  | error e => simp [locate, enter, found, Bind.bind, Except.bind]
  | ok names =>
    rcases getLast?_of_namesOf named found with rfl | ⟨init, rfl⟩
    · simp [enter, locate, found, Bind.bind, Except.bind, follow, notADirectory, pure, Except.pure,
        step]
    · have whole : tree.locate path = tree.follow [] (init ++ [name]) := by
        rw [locate, found, Except.bind]
      rw [enter_of_names named found, whole, follow_append]
      cases tree.follow [] init with
      | error e => rfl
      | ok dir =>
        simp only [Except.bind, follow]
        cases tree.notADirectory dir with
        | some e => rfl
        | none =>
          dsimp only
          cases step dir name <;> rfl

theorem writeBytes_of_names {tree : Tree} {path : Path} {name : Text} (named : path.Names name)
    (content : Content) :
    tree.writeBytes path content = (tree.locate path).bind fun loc =>
      if tree.find? loc = some .directory then .error .isDirectory
      else tree.create loc (.file content) := by
  rw [← enter_bind_step named, writeBytes]
  cases tree.enter path with
  | error e => rfl
  | ok entry =>
    simp only [Bind.bind, Except.bind, named.endsInSlash, Bool.false_eq_true, if_false]
    cases step entry.1 entry.2 with
    | error e => rfl
    | ok loc => dsimp only; split <;> rfl

/-- Writing to a path that ends in a name. -/
theorem writeBytes_eq_ok_iff {tree tree' : Tree} {path : Path} {name : Text} {content : Content}
    (named : path.Names name) :
    tree.writeBytes path content = .ok tree' ↔
      ∃ loc, tree.Takes path loc ∧ tree' = tree.put loc (.file content) := by
  rw [writeBytes_of_names named]
  constructor
  · intro h
    cases located : tree.locate path with
    | error e => simp [located, Except.bind] at h
    | ok loc =>
      simp only [located, Except.bind] at h
      split at h
      · cases h
      · next free =>
        unfold create at h
        split at h
        · cases h
        · next allowed =>
          cases h
          exact ⟨loc, ⟨located, free, allowed⟩, rfl⟩
  · rintro ⟨loc, takes, rfl⟩
    simp [takes.located, Except.bind, takes.free, create, takes.allowed]

/-! ### Contents -/

/-- The file at a path. -/
def Holds (tree : Tree) (path : Path) (content : Content) : Prop :=
  ∃ loc, tree.locate path = .ok loc ∧ tree.find? loc = some (.file content)

theorem isFile_iff_holds {tree : Tree} {path : Path} :
    tree.isFile path = true ↔ ∃ content, tree.Holds path content := by
  constructor
  · intro h
    unfold isFile at h
    split at h
    · next loc content found => exact ⟨content, loc, lookup_eq_ok_iff.1 found⟩
    · cases h
  · rintro ⟨content, loc, found⟩
    rw [isFile, lookup_eq_ok_iff.2 found]

theorem Holds.readText {tree : Tree} {path : Path} {text : Text}
    (h : tree.Holds path (Content.ofText text)) : tree.readText path = .ok text := by
  obtain ⟨loc, located, found⟩ := h
  simp [Tree.readText, readBytes, lookup, located, found, Content.text?_ofText]

theorem Takes.holds {tree : Tree} {path : Path} {loc : Location} (h : tree.Takes path loc)
    (content : Content) : (tree.put loc (.file content)).Holds path content := by
  refine ⟨loc, (rewritten_put h.free content).locate h.located, ?_⟩
  rw [find?_put h.below, if_pos rfl]

theorem Holds.rewritten {touched : Location → Prop} {tree tree' : Tree} {path : Path}
    {content : Content} (h : tree.Holds path content) (kept : Rewritten touched tree tree')
    (untouched : ∀ loc, tree.locate path = .ok loc → ¬ touched loc) :
    tree'.Holds path content := by
  obtain ⟨loc, located, found⟩ := h
  exact ⟨loc, kept.locate located, by rw [kept.same loc (untouched loc located), found]⟩

/-- Removing another file of the same directory. -/
theorem Holds.remove {tree : Tree} {path : Path} {content : Content} {gone : Location}
    (h : tree.Holds path content) (below : gone ≠ []) (file : tree.find? gone ≠ some .directory)
    (other : ∀ loc, tree.locate path = .ok loc → loc ≠ gone) :
    (tree.remove gone).Holds path content := by
  obtain ⟨loc, located, found⟩ := h
  obtain ⟨names, named, followed⟩ := locate_eq_ok_iff.1 located
  have outside : ¬ gone <+: loc := fun above =>
    file (directory_of_follow followed above (other loc located).symm (by simp))
  refine ⟨loc, locate_eq_ok_iff.2 ⟨names, named, ?_⟩, ?_⟩
  · exact follow_remove below file (by simpa using below) followed
  · rw [find?_remove below, if_neg outside, found]

end GoSplit.Tree
