import GoSplit.Proofs.Tree.Ways
import GoSplit.Proofs.Tree.Writing

/-!
Making directories. A directory is made only where nothing is, so that every entry stays
what it was, and only on the way of the path that was asked for. In the end the whole way
consists of directories.
-/

namespace GoSplit.Tree

/-- The other tree has more directories at some places and is the same in all else. -/
structure Grown (places : Location → Prop) (tree tree' : Tree) : Prop where
  base : tree'.base = tree.base
  mounts : tree'.mounts = tree.mounts
  refuses : tree'.refuses = tree.refuses
  opened : tree'.opened = tree.opened
  find : ∀ loc, tree'.find? loc = tree.find? loc ∨
    places loc ∧ tree.find? loc = none ∧ tree'.find? loc = some .directory

namespace Grown

variable {places places' : Location → Prop} {tree tree' tree'' : Tree}

theorem refl (places : Location → Prop) (tree : Tree) : Grown places tree tree :=
  ⟨rfl, rfl, rfl, rfl, fun _ => .inl rfl⟩

theorem trans (h : Grown places tree tree') (h' : Grown places tree' tree'') :
    Grown places tree tree'' := by
  refine ⟨h'.base.trans h.base, h'.mounts.trans h.mounts, h'.refuses.trans h.refuses,
    h'.opened.trans h.opened, fun loc => ?_⟩
  rcases h.find loc with same | ⟨place, free, made⟩
  · rw [← same]
    exact h'.find loc
  · rcases h'.find loc with same | ⟨-, free', -⟩
    · exact .inr ⟨place, free, same.trans made⟩
    · simp [made] at free'

theorem mono (h : Grown places tree tree')
    (sub : ∀ loc, places loc → tree.find? loc = none → places' loc) : Grown places' tree tree' :=
  ⟨h.base, h.mounts, h.refuses, h.opened, fun loc =>
    (h.find loc).imp_right fun ⟨place, free, made⟩ => ⟨sub loc place free, free, made⟩⟩

theorem directory (h : Grown places tree tree') {loc : Location}
    (found : tree.find? loc = some .directory) : tree'.find? loc = some .directory := by
  rcases h.find loc with same | ⟨-, -, made⟩
  · rw [same, found]
  · exact made

theorem isDir (h : Grown places tree tree') {path : Path} (there : tree.isDir path = true) :
    tree'.isDir path = true := by
  obtain ⟨loc, located, directory⟩ := isDir_iff.1 there
  obtain ⟨landed, directories⟩ := locate_iff_landing.1 located
  refine isDir_iff.2 ⟨loc, locate_iff_landing.2 ⟨?_, fun l mem => ?_⟩, h.directory directory⟩
  · rw [landing_congr h.base, landed]
  · rw [passed_congr h.base] at mem
    exact h.directory (directories l mem)

end Grown

/-! ### Entering a directory -/

theorem land_blank {blanks : List Text} (h : ∀ name ∈ blanks, name = []) (loc : Location) :
    land loc blanks = .ok loc ∧ ∀ l ∈ way loc blanks, l = loc := by
  induction blanks with
  | nil => exact ⟨rfl, by simp [way]⟩
  | cons name blanks ih =>
    obtain ⟨rfl, rest⟩ := List.forall_mem_cons.1 h
    obtain ⟨landed, passed⟩ := ih rest
    rw [way_cons_of_step (step_nil loc)]
    exact ⟨land_cons_eq_ok_iff.2 ⟨loc, step_nil loc, landed⟩,
      List.forall_mem_cons.2 ⟨rfl, passed⟩⟩

/-- The last name of a path leads where the path leads, from a directory. -/
theorem landing_of_enter {tree : Tree} {path : Path} {dir loc : Location} {name : Text}
    (entered : tree.enter path = .ok (dir, name)) (stepped : step dir name = .ok loc) :
    tree.landing path = .ok loc ∧
      ∀ l ∈ tree.passed path, tree.find? l = some .directory ∨ l = loc := by
  unfold enter at entered
  cases found : tree.namesOf path with
  | error e => simp [found, Bind.bind, Except.bind] at entered
  | ok names =>
    simp only [found, Bind.bind, Except.bind] at entered
    have cut : names = (names.reverse.dropWhile List.isEmpty).reverse ++
        (names.reverse.takeWhile List.isEmpty).reverse := by
      rw [← List.reverse_append, List.takeWhile_append_dropWhile, List.reverse_reverse]
    have blank : ∀ name ∈ (names.reverse.takeWhile List.isEmpty).reverse, name = [] := by
      intro name mem
      exact List.isEmpty_iff.1 (List.all_eq_true.1 List.all_takeWhile name (by simpa using mem))
    generalize (names.reverse.dropWhile List.isEmpty).reverse = kept at cut entered
    generalize (names.reverse.takeWhile List.isEmpty).reverse = blanks at cut blank
    subst cut
    cases followed : tree.follow [] kept.dropLast with
    | error e => simp [followed] at entered
    | ok there =>
      simp only [followed] at entered
      obtain ⟨landed, directories⟩ := follow_eq_ok_iff.1 followed
      split at entered
      · simp [throw, throwThe, MonadExceptOf.throw] at entered
      next directory =>
      rw [notADirectory_eq_none] at directory
      simp only [pure, Except.pure, Except.ok.injEq, Prod.mk.injEq] at entered
      obtain ⟨rfl, rfl⟩ := entered
      have reached : land [] kept = .ok loc ∧
          ∀ l ∈ way [] kept, tree.find? l = some .directory := by
        rcases List.eq_nil_or_concat kept with rfl | ⟨init, last, rfl⟩
        · cases landed
          rw [List.getLastD_nil, step_nil] at stepped
          cases stepped
          exact ⟨rfl, by simp [way]⟩
        · rw [List.concat_eq_append] at *
          rw [List.dropLast_concat] at landed directories
          rw [List.getLastD_concat] at stepped
          rw [land_append landed, way_append landed, way_cons_of_step stepped]
          refine ⟨land_cons_eq_ok_iff.2 ⟨loc, stepped, rfl⟩, fun l mem => ?_⟩
          rcases List.mem_append.1 mem with before | here
          · exact directories l before
          · rw [List.mem_singleton.1 here, directory]
      refine ⟨landing_eq_ok_iff.2 ⟨_, found, ?_⟩, fun l mem => ?_⟩
      · rw [land_append reached.1]
        exact (land_blank blank loc).1
      · rw [passed_of_namesOf found, way_append reached.1, List.mem_append] at mem
        exact mem.imp (reached.2 l) ((land_blank blank loc).2 l)

/-! ### Making directories -/

theorem makeDir_eq_ok {tree made : Tree} {path : Path} (h : tree.makeDir path = .ok made) :
    ∃ dir name loc, tree.enter path = .ok (dir, name) ∧ step dir name = .ok loc ∧
      tree.find? loc = none ∧ made = tree.put loc .directory := by
  unfold makeDir at h
  cases entered : tree.enter path with
  | error e => simp [entered, Bind.bind, Except.bind] at h
  | ok entry =>
    cases stepped : step entry.1 entry.2 with
    | error e => simp [entered, stepped, Bind.bind, Except.bind] at h
    | ok loc =>
      simp only [entered, stepped, Bind.bind, Except.bind] at h
      split at h
      · simp [throw, throwThe, MonadExceptOf.throw] at h
      · next free =>
        rw [Option.not_isSome_iff_eq_none] at free
        unfold create at h
        split at h
        · cases h
        · cases h
          exact ⟨entry.1, entry.2, loc, rfl, stepped, free, rfl⟩

/-- A directory that could be ensured is there. -/
theorem ensureDir_eq_ok {tree made : Tree} {path : Path} (h : tree.ensureDir path = .ok made) :
    Grown (fun l => tree.landing path = .ok l) tree made ∧ made.isDir path = true := by
  unfold ensureDir at h
  split at h
  · next ok =>
    cases h
    obtain ⟨dir, name, loc, entered, stepped, free, rfl⟩ := makeDir_eq_ok ok
    obtain ⟨landed, directories⟩ := landing_of_enter entered stepped
    have below : loc ≠ [] := by
      rintro rfl
      simp at free
    have found : ∀ l, (tree.put loc .directory).find? l =
        if l = loc then some .directory else tree.find? l := find?_put below
    refine ⟨⟨rfl, rfl, rfl, rfl, fun l => ?_⟩, isDir_iff.2 ⟨loc, locate_iff_landing.2 ⟨?_, ?_⟩, ?_⟩⟩
    · rw [found]
      split
      · next eq => exact .inr ⟨eq ▸ landed, eq ▸ free, rfl⟩
      · exact .inl rfl
    · rw [landing_congr (put_base ..), landed]
    · intro l mem
      rw [passed_congr (put_base ..)] at mem
      rw [found]
      rcases directories l mem with directory | rfl
      · rw [directory, ite_self]
      · rw [if_pos rfl]
    · rw [found, if_pos rfl]
  · split at h
    · next there =>
      cases h
      exact ⟨.refl _ tree, there⟩
    · cases h

/-- Directories are made where the directories above a path lead. -/
theorem makeDirsFrom_grown {places : Location → Prop} {tree : Tree} {top : Path}
    (allowed : ∀ q l, q.Above top → tree.landing q = .ok l → l ≠ [] → places l) {path : Path}
    (above : path.Above top) (levels : Nat) :
    Grown places tree (tree.makeDirsFrom path levels).2 := by
  have ensured : ∀ {tree' made : Tree} {path : Path}, path.Above top → tree'.base = tree.base →
      tree'.ensureDir path = .ok made → Grown places tree' made := by
    intro tree' made path above base ok
    refine (ensureDir_eq_ok ok).1.mono fun l landed free => ?_
    rw [landing_congr base] at landed
    refine allowed path l above landed ?_
    rintro rfl
    simp at free
  induction levels generalizing path with
  | zero => exact .refl _ tree
  | succ levels ih =>
    unfold makeDirsFrom
    split
    · exact .refl _ tree
    split
    · next ok => exact ensured above rfl ok
    · split
      · exact .refl _ tree
      · next parent up =>
        have grown := ih (above.parent up)
        split
        · next eq => rwa [eq] at grown
        · next eq =>
          rw [eq] at grown
          split
          · next ok => exact grown.trans (ensured above grown.base ok)
          · exact grown
    · exact .refl _ tree

/-- The directories above a path are on its way. -/
theorem mem_passed_of_above {tree : Tree} {q p : Path} {l loc : Location} (above : q.Above p)
    (landed : tree.landing q = .ok l) (landed' : tree.landing p = .ok loc) (below : l ≠ []) :
    l ∈ tree.passed p ∨ l = loc := by
  obtain ⟨names, found, land⟩ := landing_eq_ok_iff.1 landed
  obtain ⟨names', found', land'⟩ := landing_eq_ok_iff.1 landed'
  rcases names_of_above above (namesOf_eq_ok_iff.1 found).2 (namesOf_eq_ok_iff.1 found').2
    with first | up
  · rw [passed_of_namesOf found']
    exact mem_way_of_prefix land' first land
  · rw [land_of_onlyUp up] at land
    cases land
    exact absurd rfl below

/-- Making directories ends with the last of them. -/
theorem isDir_of_makeDirsFrom {tree made : Tree} {path : Path} {levels : Nat}
    (h : tree.makeDirsFrom path (levels + 1) = (.ok (), made)) (visible : path.text ≠ []) :
    made.isDir path = true := by
  unfold makeDirsFrom at h
  rw [if_neg (by simpa using visible)] at h
  split at h
  · next ok =>
    cases h
    exact (ensureDir_eq_ok ok).2
  · split at h
    · cases h
    · split at h
      · cases h
      · split at h
        · next ok =>
          cases h
          exact (ensureDir_eq_ok ok).2
        · cases h
  · cases h

theorem makeDirs_grown {tree made : Tree} {path : Path} {result : Except IoError Unit}
    (h : (makeDirs path).on tree = (result, made)) : Grown (fun _ => True) tree made := by
  have ran : tree.makeDirsFrom path (path.text.length + 1) = (result, made) := h
  have grown := @makeDirsFrom_grown (fun _ => True) tree path (by simp) path (.inl rfl)
    (path.text.length + 1)
  rwa [ran] at grown

/-- The directories of a path are made, and nothing else. -/
theorem makeDirs_eq_ok {tree made : Tree} {path : Path}
    (h : (makeDirs path).on tree = (.ok (), made)) (visible : path.text ≠ []) :
    ∃ loc, tree.landing path = .ok loc ∧
      Grown (fun l => l ∈ tree.passed path ∨ l = loc) tree made ∧
      ∀ l, l ∈ tree.passed path ∨ l = loc → made.find? l = some .directory := by
  have ran : tree.makeDirsFrom path (path.text.length + 1) = (.ok (), made) := h
  obtain ⟨loc, located, directory⟩ := isDir_iff.1 (isDir_of_makeDirsFrom ran visible)
  obtain ⟨landed, directories⟩ := locate_iff_landing.1 located
  have base := (makeDirs_grown h).base
  rw [landing_congr base] at landed
  rw [passed_congr base] at directories
  have grown := makeDirsFrom_grown (fun q l above landed' =>
    mem_passed_of_above above landed' landed) (.inl rfl) (path.text.length + 1)
  rw [ran] at grown
  refine ⟨loc, landed, grown, ?_⟩
  rintro l (mem | rfl)
  · exact directories l mem
  · exact directory

/-! ### Below a directory -/

/-- Where nothing is but directories, names lead on or to nothing. -/
theorem follow_of_free {tree : Tree} {current loc : Location} {names : List Text}
    (landed : land current names = .ok loc)
    (free : ∀ l ∈ way current names, tree.find? l = none ∨ tree.find? l = some .directory) :
    tree.follow current names = .ok loc ∨ tree.follow current names = .error .notFound := by
  induction names generalizing current with
  | nil => exact .inl landed
  | cons name names ih =>
    obtain ⟨next, stepped, landed⟩ := land_cons_eq_ok_iff.1 landed
    rw [way_cons_of_step stepped] at free
    obtain ⟨here, rest⟩ := List.forall_mem_cons.1 free
    rw [follow, notADirectory, stepped]
    rcases here with nothing | directory
    · rw [nothing]
      exact .inr rfl
    · rw [directory]
      exact ih landed rest

theorem makeDir_of_names {tree : Tree} {path : Path} {name : Text} (named : path.Names name) :
    tree.makeDir path = (tree.locate path).bind fun loc =>
      if (tree.find? loc).isSome then .error .alreadyExists else tree.create loc .directory := by
  rw [← enter_bind_step named, makeDir]
  cases tree.enter path with
  | error e => rfl
  | ok entry =>
    simp only [Bind.bind, Except.bind]
    cases step entry.1 entry.2 with
    | error e => rfl
    | ok loc => dsimp only; split <;> rfl

theorem ensureDir_of_isDir {tree : Tree} {path : Path} (h : tree.isDir path = true) :
    ∃ made, tree.ensureDir path = .ok made := by
  unfold ensureDir
  split
  · exact ⟨_, rfl⟩
  · exact ⟨tree, if_pos h⟩

/-- A directory can be made where nothing is. -/
theorem ensureDir_of_located {tree : Tree} {path : Path} {name : Text} {loc : Location}
    (named : path.Names name) (located : tree.locate path = .ok loc)
    (free : tree.find? loc = none ∨ tree.find? loc = some .directory)
    (allowed : tree.refuses loc = none) : ∃ made, tree.ensureDir path = .ok made := by
  rcases free with nothing | directory
  · refine ⟨tree.put loc .directory, ?_⟩
    rw [ensureDir, makeDir_of_names named, located]
    simp [Except.bind, nothing, create, allowed]
  · exact ensureDir_of_isDir (isDir_iff.2 ⟨loc, located, directory⟩)

theorem pathIn_of_names {path : Path} {last : Text} (named : path.Names last) {rel : Location}
    (proper : ∀ name ∈ rel, IsName name) :
    pathIn path rel = ⟨path.text ++ rel.flatMap fun name => '/' :: name⟩ := by
  cases rel with
  | nil => simp [pathIn]
  | cons name rest =>
    have here := proper name (List.mem_cons_self ..)
    obtain ⟨c, cs, rfl⟩ := List.exists_cons_of_ne_nil here.visible
    have relative : c ≠ '/' := fun eq => here.whole (by rw [eq]; exact List.mem_cons_self ..)
    obtain ⟨before, text, -⟩ := Text.exists_append_of_getLast? named.1
    have open_end : ¬ (path.text.isEmpty || path.text.getLast? == some '/') = true := by
      have ends := named.endsInSlash
      rw [Path.endsInSlash] at ends
      rw [ends, text]
      simp [named.2.1]
    rw [pathIn, if_neg (by simp), Path.join, Location.text, Text.joinWith_eq_flatMap,
      if_neg (by simpa using relative), if_neg open_end]
    simp

theorem exists_names_pathIn {path : Path} {last : Text} (named : path.Names last) {rel : Location}
    (proper : ∀ name ∈ rel, IsName name) : ∃ last, (pathIn path rel).Names last := by
  cases ends : rel.getLast? with
  | none =>
    rw [List.getLast?_eq_none_iff.1 ends]
    exact ⟨last, named⟩
  | some name =>
    exact ⟨name, names_pathIn (fun name mem => (proper name mem).isWord) ends⟩

theorem Fits.of_pathIn_append {path : Path} {last : Text} (named : path.Names last)
    {rel more : Location} (proper : ∀ name ∈ rel ++ more, IsName name)
    (fits : (pathIn path (rel ++ more)).Fits) : (pathIn path rel).Fits := by
  have proper' : ∀ name ∈ rel, IsName name := fun name mem => proper name (by simp [mem])
  rw [pathIn_of_names named proper, List.flatMap_append, ← List.append_assoc] at fits
  rw [pathIn_of_names named proper']
  exact fits.of_append rfl

/-- The directories above a place that a path leads to. -/
theorem directory_of_locate {tree : Tree} {path : Path} {loc up : Location}
    (located : tree.locate path = .ok loc) (part : up <+: loc) (proper : up ≠ loc) :
    tree.find? up = some .directory := by
  obtain ⟨names, -, followed⟩ := locate_eq_ok_iff.1 located
  exact directory_of_follow followed part proper (by simp)

section Below

variable {tree : Tree} {path : Path} {last : Text} {loc rel : Location}

theorem isDir_pathIn_iff (landed : tree.landing path = .ok loc) (below : loc ≠ [])
    (directories : ∀ l ∈ tree.passed path, tree.find? l = some .directory)
    (proper : ∀ name ∈ rel, IsName name) (fits : (pathIn path rel).Fits) :
    tree.isDir (pathIn path rel) = true ↔
      ∀ up, up <+: rel → tree.find? (loc ++ up) = some .directory := by
  have lands := landing_pathIn landed below proper fits
  rw [isDir_iff]
  constructor
  · rintro ⟨l, located, directory⟩ up part
    have same := (locate_iff_landing.1 located).1
    rw [lands] at same
    cases same
    by_cases eq : up = rel
    · rw [eq, directory]
    · exact directory_of_locate located ((List.prefix_append_right_inj loc).2 part)
        (by simpa using eq)
  · intro all
    refine ⟨loc ++ rel, locate_iff_landing.2 ⟨lands, fun l mem => ?_⟩, all rel List.prefix_rfl⟩
    rcases mem_passed_pathIn landed below proper fits mem with before | ⟨up, part, -, rfl⟩
    · exact directories l before
    · exact all up part

/-- A directory can be made in a directory below a path. -/
theorem ensureDir_concat (landed : tree.landing path = .ok loc) (below : loc ≠ [])
    (top : tree.isDir path = true) (there : tree.isDir (pathIn path rel) = true) {name : Text}
    (proper : ∀ part ∈ rel ++ [name], IsName part) (fits : (pathIn path (rel ++ [name])).Fits)
    (fits' : (pathIn path rel).Fits)
    (free : tree.find? (loc ++ (rel ++ [name])) = none ∨
      tree.find? (loc ++ (rel ++ [name])) = some .directory)
    (allowed : tree.refuses (loc ++ (rel ++ [name])) = none) :
    ∃ made, tree.ensureDir (pathIn path (rel ++ [name])) = .ok made := by
  have proper' : ∀ part ∈ rel, IsName part := fun part mem => proper part (by simp [mem])
  obtain ⟨l, locatedTop, -⟩ := isDir_iff.1 top
  have directories := (locate_iff_landing.1 locatedTop).2
  refine ensureDir_of_located (names_pathIn (fun name mem => (proper name mem).isWord)
    (List.getLast?_concat ..)) (locate_iff_landing.2 ⟨landing_pathIn landed below proper fits, ?_⟩)
    free allowed
  intro l mem
  rcases mem_passed_pathIn landed below proper fits mem with before | ⟨up, part, ne, rfl⟩
  · exact directories l before
  · have part' := (List.prefix_concat_iff.1 part).resolve_left ne
    exact (isDir_pathIn_iff landed below directories proper' fits').1 there up part'

theorem parent_pathIn (named : path.Names last) {name : Text}
    (proper : ∀ part ∈ rel ++ [name], IsName part) :
    (pathIn path (rel ++ [name])).parent = some (pathIn path rel) := by
  have proper' : ∀ part ∈ rel, IsName part := fun part mem => proper part (by simp [mem])
  obtain ⟨last', named'⟩ := exists_names_pathIn named proper'
  rw [← Path.parent_of_names named' (proper name (by simp)), pathIn_of_names named proper,
    pathIn_of_names named proper']
  simp

/-- Directories can be made below a directory where nothing else is. -/
theorem makeDirsFrom_pathIn (named : path.Names last) (landed : tree.landing path = .ok loc)
    (below : loc ≠ []) (there : tree.isDir path = true) (proper : ∀ name ∈ rel, IsName name)
    (fits : (pathIn path rel).Fits)
    (free : ∀ up, up <+: rel →
      tree.find? (loc ++ up) = none ∨ tree.find? (loc ++ up) = some .directory)
    (allowed : ∀ up, up <+: rel → tree.refuses (loc ++ up) = none) {levels : Nat}
    (enough : rel.length ≤ levels) :
    ∃ made, tree.makeDirsFrom (pathIn path rel) (levels + 1) = (.ok (), made) := by
  induction rel using List.reverseRecOn generalizing levels with
  | nil =>
    obtain ⟨made, ok⟩ := ensureDir_of_isDir there
    refine ⟨made, ?_⟩
    rw [makeDirsFrom, if_neg (by simpa [pathIn] using text_ne_nil_of_landing landed)]
    simp [pathIn, ok]
  | append_singleton rel name ih =>
    have proper' : ∀ name ∈ rel, IsName name := fun name mem => proper name (by simp [mem])
    have fits' := Fits.of_pathIn_append named proper fits
    have lands := landing_pathIn landed below proper fits
    have ends : (pathIn path (rel ++ [name])).Names name :=
      names_pathIn (fun name mem => (proper name mem).isWord) (List.getLast?_concat ..)
    rw [makeDirsFrom, if_neg (by simpa using text_ne_nil_of_landing lands)]
    obtain ⟨top, locatedTop, -⟩ := isDir_iff.1 there
    obtain ⟨names, found, land⟩ := landing_eq_ok_iff.1 lands
    have reached : tree.follow [] names = .ok (loc ++ (rel ++ [name])) ∨
        tree.follow [] names = .error .notFound := by
      refine follow_of_free land fun l mem => ?_
      rw [← passed_of_namesOf found] at mem
      rcases mem_passed_pathIn landed below proper fits mem with before | ⟨up, part, -, rfl⟩
      · exact .inr ((locate_iff_landing.1 locatedTop).2 l before)
      · exact free up part
    have located : tree.locate (pathIn path (rel ++ [name])) = tree.follow [] names := by
      rw [locate, found]
      rfl
    rw [← located] at reached
    rcases reached with reached | missing
    · obtain ⟨made, ok⟩ := ensureDir_of_located ends reached (free _ List.prefix_rfl)
        (allowed _ List.prefix_rfl)
      exact ⟨made, by rw [ok]⟩
    -- A directory on the way is missing, so the one above is made first.
    have nothing : tree.isDir (pathIn path (rel ++ [name])) = false := by
      rw [← Bool.not_eq_true, isDir_iff]
      rintro ⟨l, found, -⟩
      rw [missing] at found
      cases found
    have refused : tree.ensureDir (pathIn path (rel ++ [name])) = .error .notFound := by
      rw [ensureDir, makeDir_of_names ends, missing]
      simp [Except.bind, nothing]
    have up := parent_pathIn named proper
    rw [List.length_append, List.length_singleton] at enough
    obtain ⟨levels, rfl⟩ := Nat.exists_eq_add_one_of_ne_zero (n := levels) (by omega)
    obtain ⟨made, ok⟩ := @ih proper' fits'
      (fun up part => free up (part.trans (List.prefix_append ..)))
      (fun up part => allowed up (part.trans (List.prefix_append ..))) levels (by omega)
    have grown := @makeDirsFrom_grown (fun _ => True) tree (pathIn path rel) (by simp) _ (.inl rfl)
      (levels + 1)
    rw [ok] at grown
    have landed' : made.landing path = .ok loc := by rw [landing_congr grown.base, landed]
    have visible := text_ne_nil_of_landing (landing_pathIn landed below proper' fits')
    have free' : made.find? (loc ++ (rel ++ [name])) = none ∨
        made.find? (loc ++ (rel ++ [name])) = some .directory := by
      rcases grown.find (loc ++ (rel ++ [name])) with same | ⟨-, -, directory⟩
      · rw [same]
        exact free _ List.prefix_rfl
      · exact .inr directory
    have allowed' : made.refuses (loc ++ (rel ++ [name])) = none := by
      rw [grown.refuses]
      exact allowed _ List.prefix_rfl
    obtain ⟨made', ok'⟩ := ensureDir_concat landed' below (grown.isDir there)
      (isDir_of_makeDirsFrom ok visible) proper fits fits' free' allowed'
    refine ⟨made', ?_⟩
    rw [refused, up]
    simp only [ok, ok']

/-- Directories below a directory are made as far as they are missing. -/
theorem on_makeDirs_pathIn (named : path.Names last) (landed : tree.landing path = .ok loc)
    (below : loc ≠ []) (there : tree.isDir path = true) (proper : ∀ name ∈ rel, IsName name)
    (fits : (pathIn path rel).Fits)
    (free : ∀ up, up <+: rel →
      tree.find? (loc ++ up) = none ∨ tree.find? (loc ++ up) = some .directory)
    (allowed : ∀ up, up <+: rel → tree.refuses (loc ++ up) = none) :
    ∃ made, (makeDirs (pathIn path rel)).on tree = (.ok (), made) ∧
      Grown (fun l => ∃ up, up <+: rel ∧ l = loc ++ up) tree made ∧
      ∀ up, up <+: rel → made.find? (loc ++ up) = some .directory := by
  have enough : rel.length ≤ (pathIn path rel).text.length := by
    have each : ∀ ts : List Text, ts.length ≤ (ts.flatMap fun t => '/' :: t).length := by
      intro ts
      induction ts with
      | nil => exact Nat.le_refl _
      | cons t ts ih =>
        simp only [List.length_cons, List.flatMap_cons, List.length_append]
        omega
    rw [pathIn_of_names named proper, List.length_append]
    exact Nat.le_trans (each rel) (Nat.le_add_left ..)
  obtain ⟨made, ran⟩ := makeDirsFrom_pathIn named landed below there proper fits free allowed enough
  have lands := landing_pathIn landed below proper fits
  obtain ⟨l, landed', grown, paved⟩ :=
    @makeDirs_eq_ok tree made _ ran (text_ne_nil_of_landing lands)
  rw [lands] at landed'
  cases landed'
  obtain ⟨top, located, -⟩ := isDir_iff.1 there
  have directories := (locate_iff_landing.1 located).2
  refine ⟨made, ran, grown.mono ?_, ?_⟩
  · rintro l (mem | rfl) nothing
    · rcases mem_passed_pathIn landed below proper fits mem with before | ⟨up, part, -, rfl⟩
      · rw [directories l before] at nothing
        cases nothing
      · exact ⟨up, part, rfl⟩
    · exact ⟨rel, List.prefix_rfl, rfl⟩
  · have directories' : ∀ l ∈ made.passed path, made.find? l = some .directory := by
      intro l mem
      rw [passed_congr grown.base] at mem
      exact grown.directory (directories l mem)
    exact (isDir_pathIn_iff (by rw [landing_congr grown.base, landed]) below directories' proper
      fits).1 (isDir_of_makeDirsFrom ran (text_ne_nil_of_landing lands))

end Below

end GoSplit.Tree
