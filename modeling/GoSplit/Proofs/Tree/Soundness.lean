import GoSplit.Proofs.Tree.Moving
import GoSplit.Proofs.Tree.Walking

/-!
Trees stay sound. Whatever a program does to a tree through paths leaves every entry in a
directory, with a name of its own: an entry is made only in a directory that was entered, and
one that goes takes along all that is below it.
-/

namespace GoSplit.Tree

/-! ### Entries -/

namespace Sound

variable {tree : Tree} {loc : Location}

/-- Leaving out entries, together with what is below them. -/
theorem filter (sound : tree.Sound) {rest : Tree} {keeps : Location × Node → Bool}
    (entries : rest.entries = tree.entries.filter keeps)
    (upwards : ∀ e ∈ rest.entries, rest.find? e.1.dropLast = tree.find? e.1.dropLast) :
    rest.Sound := by
  have sub : ∀ e ∈ rest.entries, e ∈ tree.entries := by
    intro e mem
    rw [entries] at mem
    exact (List.mem_filter.1 mem).1
  refine ⟨fun e mem => ?_, fun e mem => sound.below e (sub e mem),
    fun e mem => sound.names e (sub e mem), ?_⟩
  · rw [upwards e mem]
    exact sound.closed e (sub e mem)
  · rw [entries]
    exact sound.distinct.filter _

theorem remove (sound : tree.Sound) (loc : Location) : (tree.remove loc).Sound := by
  refine sound.filter rfl fun e mem => ?_
  have out := (List.mem_filter.1 mem).2
  rw [Bool.not_eq_true', ← Bool.not_eq_true, Location.isWithin, List.isPrefixOf_iff_prefix] at out
  have below : loc ≠ [] := by
    rintro rfl
    exact out List.nil_prefix
  rw [find?_remove below, if_neg]
  intro within
  exact out (within.trans (List.dropLast_prefix _))

theorem clear (sound : tree.Sound) (loc : Location) : (tree.clear loc).Sound := by
  refine sound.filter rfl fun e mem => ?_
  have out := (List.mem_filter.1 mem).2
  rw [Bool.not_eq_true', ← Bool.not_eq_true, Location.isBelow, Location.isWithin, Bool.and_eq_true,
    List.isPrefixOf_iff_prefix, Bool.not_eq_true', ← Bool.not_eq_true, Location.same_eq_true] at out
  rw [find?_clear, if_neg]
  rintro ⟨within, proper⟩
  refine out ⟨within.trans (List.dropLast_prefix _), fun eq => proper ?_⟩
  rw [eq] at within ⊢
  exact (List.dropLast_prefix loc).eq_of_length_le within.length_le

/-- An entry that takes over another name keeps what is below it. -/
theorem takeOver (sound : tree.Sound) {src dst : Location} (below : src ≠ []) (below' : dst ≠ [])
    (apart : ¬ src <+: dst) (apart' : ¬ dst <+: src)
    (above : tree.find? dst.dropLast = some .directory) (names : ∀ name ∈ dst, IsName name) :
    ((tree.remove dst).move src dst).Sound := by
  have rest := sound.remove dst
  have outside : ∀ e ∈ (tree.remove dst).entries, ¬ dst <+: e.1 := by
    intro e mem within
    have out := (List.mem_filter.1 mem).2
    rw [Bool.not_eq_true', ← Bool.not_eq_true, Location.isWithin, List.isPrefixOf_iff_prefix] at out
    exact out within
  have shape : ∀ e ∈ ((tree.remove dst).move src dst).entries, ∃ o ∈ (tree.remove dst).entries,
      (src <+: o.1 ∧ ∃ more, o.1 = src ++ more ∧ e.1 = dst ++ more) ∨ ¬ src <+: o.1 ∧
      e.1 = o.1 := by
    intro e mem
    obtain ⟨⟨key, node⟩, memO, rfl⟩ := List.mem_map.1 mem
    refine ⟨(key, node), memO, ?_⟩
    by_cases within : src <+: key
    · obtain ⟨more, rfl⟩ := within
      exact .inl ⟨List.prefix_append .., more, rfl, moved_append ..⟩
    · exact .inr ⟨within, moved_of_outside within⟩
  have upwards : ∀ l, ¬ dst <+: l → ¬ src <+: l →
      ((tree.remove dst).move src dst).find? l = tree.find? l := by
    intro l out out'
    rw [find?_takeOver_of_outside below below' out, if_neg out']
  refine ⟨fun e mem => ?_, fun e mem => ?_, fun e mem => ?_, ?_⟩
  · obtain ⟨o, memO, ⟨-, more, eq, eq'⟩ | ⟨out, eq⟩⟩ := shape e mem
    · rcases List.eq_nil_or_concat more with rfl | ⟨init, last, rfl⟩
      · rw [List.append_nil] at eq'
        rw [eq', upwards _ (fun within => ?_) fun within => ?_, above]
        · have size := within.length_le
          rw [List.length_dropLast] at size
          have := List.length_pos_iff.2 below'
          omega
        · exact apart (within.trans (List.dropLast_prefix _))
      · rw [List.concat_eq_append] at eq eq'
        rw [eq', ← List.append_assoc, List.dropLast_concat,
          find?_takeOver_append below below' apart apart']
        have closed := sound.closed o (List.mem_filter.1 memO).1
        rwa [eq, ← List.append_assoc, List.dropLast_concat] at closed
    · rw [eq, upwards]
      · exact sound.closed o (List.mem_filter.1 memO).1
      · exact fun within => outside o memO (within.trans (List.dropLast_prefix _))
      · exact fun within => out (within.trans (List.dropLast_prefix _))
  · obtain ⟨o, memO, ⟨-, more, -, eq'⟩ | ⟨-, eq⟩⟩ := shape e mem
    · rw [eq']
      exact List.append_ne_nil_of_left_ne_nil below' _
    · rw [eq]
      exact rest.below o memO
  · obtain ⟨o, memO, ⟨-, more, eq, eq'⟩ | ⟨-, eq⟩⟩ := shape e mem
    · intro name memName
      rw [eq'] at memName
      rcases List.mem_append.1 memName with memName | memName
      · exact names name memName
      · exact rest.names o memO name (by rw [eq]; exact List.mem_append_right _ memName)
    · rw [eq]
      exact rest.names o memO
  · refine List.pairwise_map.2 (rest.distinct.imp_of_mem fun {a b} memA memB apart => ?_)
    by_cases inA : src <+: a.1 <;> by_cases inB : src <+: b.1
    · obtain ⟨more, eqA⟩ := inA
      obtain ⟨more', eqB⟩ := inB
      simp only [← eqA, ← eqB, moved_append]
      intro same
      exact apart (by rw [← eqA, ← eqB, List.append_cancel_left same])
    · obtain ⟨more, eqA⟩ := inA
      simp only [← eqA, moved_append, moved_of_outside inB]
      exact fun same => outside b memB (same ▸ List.prefix_append ..)
    · obtain ⟨more, eqB⟩ := inB
      simp only [← eqB, moved_append, moved_of_outside inA]
      exact fun same => outside a memA (same ▸ List.prefix_append ..)
    · simpa only [moved_of_outside inA, moved_of_outside inB] using apart

end Sound

/-! ### Entering -/

/-- No name of a path has a slash in it. -/
theorem slash_not_mem_of_names? {tree : Tree} {path : Path} {names : List Text}
    (found : tree.names? path = some names) : ∀ name ∈ names, '/' ∉ name := by
  have inside : ∀ t found, names?.inside (Text.pieces '/' t) = some found →
      ∀ name ∈ found, '/' ∉ name := by
    intro t found eq
    obtain ⟨rfl, -⟩ := names?_inside_eq_some_iff.1 eq
    exact Text.sep_not_mem_pieces '/' t
  unfold names? at found
  split at found
  · cases found
  split at found
  · split at found
    · cases found
      exact fun _ mem => absurd mem List.not_mem_nil
    · exact inside _ _ found
    · split at found
      · cases found
        exact fun _ mem => absurd mem List.not_mem_nil
      · cases found
  · exact inside _ _ found

/-- What is entered is a directory, and the name to look up there is the last one of the path.
Only the path of the root has none. -/
theorem enter_eq_ok {tree : Tree} {path : Path} {dir : Location} {name : Text}
    (entered : tree.enter path = .ok (dir, name)) :
    tree.find? dir = some .directory ∧ '/' ∉ name ∧ (name = [] → dir = []) := by
  unfold enter at entered
  cases found : tree.namesOf path with
  | error e => simp [found, Bind.bind, Except.bind] at entered
  | ok names =>
    simp only [found, Bind.bind, Except.bind] at entered
    have whole := slash_not_mem_of_names? (namesOf_eq_ok_iff.1 found).2
    have part : ∀ n ∈ (names.reverse.dropWhile List.isEmpty).reverse, n ∈ names := by
      intro n mem
      rw [List.mem_reverse] at mem
      exact List.mem_reverse.1 ((List.dropWhile_suffix _).subset mem)
    have last : ∀ n, (names.reverse.dropWhile List.isEmpty).reverse.getLast? = some n → n ≠ [] := by
      rintro n eq rfl
      rw [List.getLast?_reverse] at eq
      have head := List.head?_dropWhile_not List.isEmpty names.reverse
      rw [eq] at head
      cases head
    generalize (names.reverse.dropWhile List.isEmpty).reverse = kept at entered part last
    cases followed : tree.follow [] kept.dropLast with
    | error e => simp [followed] at entered
    | ok there =>
      simp only [followed] at entered
      split at entered
      · simp [throw, throwThe, MonadExceptOf.throw] at entered
      next directory =>
      simp only [pure, Except.pure, Except.ok.injEq, Prod.mk.injEq] at entered
      obtain ⟨rfl, rfl⟩ := entered
      refine ⟨notADirectory_eq_none.1 directory, ?_, fun blank => ?_⟩
      · rcases List.eq_nil_or_concat kept with rfl | ⟨init, n, rfl⟩
        · simp
        · rw [List.concat_eq_append, List.getLastD_concat]
          exact whole n (part n (by simp))
      · rcases List.eq_nil_or_concat kept with rfl | ⟨init, n, rfl⟩
        · cases followed
          rfl
        · rw [List.concat_eq_append, List.getLastD_concat] at blank
          exact absurd blank (last n (by simp))

/-- Where a name leads from a directory. -/
theorem step_eq_ok {loc next : Location} {name : Text} (stepped : step loc name = .ok next) :
    next = loc ∧ (name = [] ∨ name = ['.']) ∨ next = loc.dropLast ∧ name = ['.', '.'] ∨
      next = loc ++ [name] ∧ name ≠ [] ∧ isDots name = false ∧ name.byteLength ≤ 255 := by
  unfold step at stepped
  split at stepped
  · next still =>
    cases stepped
    exact .inl ⟨rfl, still⟩
  next moves =>
  split at stepped
  · next up =>
    cases stepped
    exact .inr (.inl ⟨rfl, up⟩)
  next down =>
  split at stepped
  · cases stepped
  · next short =>
    cases stepped
    rw [not_or] at moves
    exact .inr (.inr ⟨rfl, moves.1, by simp [isDots, moves.2, down], by omega⟩)

/-- A place that is entered and is no directory lies in one, under a proper name. -/
theorem Sound.entered {tree : Tree} (sound : tree.Sound) {path : Path} {dir loc : Location}
    {name : Text} (entered : tree.enter path = .ok (dir, name)) (stepped : step dir name = .ok loc)
    (free : tree.find? loc ≠ some .directory) :
    loc ≠ [] ∧ tree.find? loc.dropLast = some .directory ∧ ∀ part ∈ loc, IsName part := by
  obtain ⟨directory, whole, -⟩ := enter_eq_ok entered
  rcases step_eq_ok stepped with ⟨rfl, -⟩ | ⟨rfl, -⟩ | ⟨rfl, visible, plain, short⟩
  · exact absurd directory free
  · exfalso
    apply free
    by_cases top : dir = []
    · rw [top, List.dropLast_nil, find?_nil]
    · exact sound.closed _ (exists_mem_of_find? top directory)
  · refine ⟨by simp, by rwa [List.dropLast_concat], fun part mem => ?_⟩
    rcases List.mem_append.1 mem with mem | mem
    · exact sound.isName_of_find? directory part mem
    · rw [List.mem_singleton.1 mem]
      exact ⟨visible, plain, whole, short⟩

/-! ### Making directories -/

theorem Sound.ensureDir {tree made : Tree} {path : Path} (sound : tree.Sound)
    (ran : tree.ensureDir path = .ok made) : made.Sound := by
  unfold Tree.ensureDir at ran
  split at ran
  · next ok =>
    cases ran
    obtain ⟨dir, name, loc, entered, stepped, free, rfl⟩ := makeDir_eq_ok ok
    obtain ⟨below, above, names⟩ := sound.entered entered stepped (by simp [free])
    exact sound.put below above names (.inl rfl)
  · split at ran
    · cases ran
      exact sound
    · cases ran

theorem Sound.makeDirsFrom {tree : Tree} (sound : tree.Sound) (path : Path) (levels : Nat) :
    (tree.makeDirsFrom path levels).2.Sound := by
  induction levels generalizing path with
  | zero => exact sound
  | succ levels ih =>
    unfold Tree.makeDirsFrom
    split
    · exact sound
    split
    · next ok => exact sound.ensureDir ok
    · split
      · exact sound
      · next parent _ =>
        have above := ih parent
        split
        · next eq => rwa [eq] at above
        · next eq =>
          rw [eq] at above
          split
          · next ok => exact above.ensureDir ok
          · exact above
    · exact sound

theorem Sound.append {tree : Tree} (sound : tree.Sound) (line : Text) :
    (tree.append line).Sound := by
  rcases append_cases tree line with eq | ⟨l, content, content', -, found, eq⟩
  · rwa [eq]
  · rw [eq]
    exact sound.put_file found content'

/-! ### Trees with a log -/

/-- A sound tree; its log, if there is one, is a file in it. -/
structure InOrder (tree : Tree) : Prop where
  sound : tree.Sound
  log : ∀ l, tree.opened = some l → ∃ content, tree.find? l = some (.file content)

namespace InOrder

variable {tree tree' : Tree}

/-- The log of a tree is still there in the other. -/
theorem keep (h : tree.InOrder) (sound : tree'.Sound) (opened : tree'.opened = tree.opened)
    (kept : ∀ l content, tree.opened = some l → tree.find? l = some (.file content) →
      ∃ content', tree'.find? l = some (.file content')) : tree'.InOrder := by
  refine ⟨sound, fun l isOpen => ?_⟩
  rw [opened] at isOpen
  obtain ⟨content, found⟩ := h.log l isOpen
  exact kept l content isOpen found

/-- A log that is elsewhere is not lost. -/
theorem opened_filter {loc : Location} (outside : ∀ l, tree.opened = some l → ¬ loc <+: l)
    {keeps : Location → Bool} (kept : ∀ {l : Location}, l.isWithin loc = false → keeps l = true) :
    tree.opened.filter keeps = tree.opened := by
  cases isOpen : tree.opened with
  | none => rfl
  | some l =>
    have out : Location.isWithin l loc = false := by
      rw [← Bool.not_eq_true, Location.isWithin, List.isPrefixOf_iff_prefix]
      exact outside l isOpen
    simp [kept out]

theorem append (h : tree.InOrder) (line : Text) : (tree.append line).InOrder := by
  refine h.keep (h.sound.append line) (rewritten_append tree line).opened
    fun l content isOpen found => ?_
  rcases append_cases tree line with eq | ⟨l', _, content', isOpen', found', eq⟩
  · exact ⟨content, by rw [eq, found]⟩
  · rw [isOpen] at isOpen'
    cases isOpen'
    have below : l ≠ [] := by
      rintro rfl
      simp at found
    exact ⟨content', by rw [eq, find?_put below, if_pos rfl]⟩

theorem makeDirs (h : tree.InOrder) {path : Path} {result : Except IoError Unit}
    (ran : (Tree.makeDirs path).on tree = (result, tree')) : tree'.InOrder := by
  have sound := h.sound.makeDirsFrom path (path.text.length + 1)
  have same : tree.makeDirsFrom path (path.text.length + 1) = (result, tree') := ran
  rw [same] at sound
  have grown := makeDirs_grown ran
  refine h.keep sound grown.opened fun l content _ found => ⟨content, ?_⟩
  rcases grown.find l with eq | ⟨-, free, -⟩
  · rw [eq, found]
  · rw [found] at free
    cases free

/-- A file is entered in a directory. -/
theorem put_file (h : tree.InOrder) {loc : Location} {content : Content}
    (sound : (tree.put loc (.file content)).Sound) (below : loc ≠ []) :
    (tree.put loc (.file content)).InOrder := by
  refine h.keep sound rfl fun l content' _ found => ?_
  rw [find?_put below]
  by_cases here : l = loc
  · exact ⟨content, by rw [if_pos here]⟩
  · exact ⟨content', by rw [if_neg here, found]⟩

/-- A log that is taken away is not open any more. -/
theorem remove (h : tree.InOrder) (loc : Location) : (tree.remove loc).InOrder := by
  refine ⟨h.sound.remove loc, fun l isOpen => ?_⟩
  rw [Tree.remove, Option.filter_eq_some_iff, Bool.not_eq_true', ← Bool.not_eq_true,
    Location.isWithin, List.isPrefixOf_iff_prefix] at isOpen
  have below : loc ≠ [] := by
    rintro rfl
    exact isOpen.2 List.nil_prefix
  obtain ⟨content, found⟩ := h.log l isOpen.1
  exact ⟨content, by rw [find?_remove below, if_neg isOpen.2, found]⟩

theorem clear (h : tree.InOrder) (loc : Location) : (tree.clear loc).InOrder := by
  refine ⟨h.sound.clear loc, fun l isOpen => ?_⟩
  rw [Tree.clear, Option.filter_eq_some_iff, Bool.not_eq_true', ← Bool.not_eq_true,
    Location.isBelow, Location.isWithin, Bool.and_eq_true, List.isPrefixOf_iff_prefix,
    Bool.not_eq_true', ← Bool.not_eq_true, Location.same_eq_true] at isOpen
  obtain ⟨content, found⟩ := h.log l isOpen.1
  exact ⟨content, by rw [find?_clear, if_neg isOpen.2, found]⟩

theorem removeDirs (h : tree.InOrder) {path : Path} {result : Except IoError Unit}
    (ran : (Tree.removeDirs path).on tree = (result, tree')) : tree'.InOrder := by
  rcases on_removeDirs_cases ran with ⟨rfl, -⟩ | ⟨loc, -, -, kept⟩
  · exact h
  rcases kept with rfl | rfl
  · exact h.clear loc
  · exact (h.clear loc).remove loc

end InOrder

/-- A file is written where its path leads, and never in the place of a directory. -/
theorem writeBytes_eq_ok {tree tree' : Tree} {path : Path} {content : Content}
    (ran : tree.writeBytes path content = .ok tree') :
    ∃ loc, tree.landing path = .ok loc ∧ tree.find? loc ≠ some .directory ∧
      tree' = tree.put loc (.file content) ∧ (tree.InOrder → tree'.InOrder) := by
  simp only [writeBytes, Bind.bind, Except.bind] at ran
  cases entered : tree.enter path with
  | error e => simp [entered] at ran
  | ok entry =>
    simp only [entered] at ran
    split at ran
    · cases ran
    cases stepped : step entry.1 entry.2 with
    | error e => simp [stepped] at ran
    | ok loc =>
      simp only [stepped] at ran
      split at ran
      · cases ran
      next free =>
      unfold create at ran
      split at ran
      · cases ran
      cases ran
      refine ⟨loc, (landing_of_enter entered stepped).1, free, rfl, fun inOrder => ?_⟩
      obtain ⟨below, above, names⟩ := inOrder.sound.entered entered stepped free
      exact inOrder.put_file (inOrder.sound.put below above names (.inr free)) below

/-- An entry below a directory that can be reached can be reached itself. -/
theorem Sound.locate_pathIn {tree : Tree} (sound : tree.Sound) {root : Path} {loc rel l : Location}
    (there : tree.isDir root = true) (landed : tree.landing root = .ok loc) (below : loc ≠ [])
    (words : ∀ name ∈ rel, IsWord name) (landed' : tree.landing (pathIn root rel) = .ok l)
    {node : Node} (found : tree.find? l = some node) : tree.locate (pathIn root rel) = .ok l := by
  obtain ⟨rfl, names⟩ := isName_of_landing_pathIn landed below words landed'
  obtain ⟨parts, named, -⟩ := landing_eq_ok_iff.1 landed'
  have fits := (namesOf_eq_ok_iff.1 named).1
  obtain ⟨top, located, -⟩ := isDir_iff.1 there
  refine locate_iff_landing.2 ⟨landed', fun l mem => ?_⟩
  rcases mem_passed_pathIn landed below names fits mem with before | ⟨up, part, ne, rfl⟩
  · exact (locate_iff_landing.1 located).2 l before
  · exact sound.closed.directory found ((List.prefix_append_right_inj loc).2 part)
      (by simpa using ne)

/-! ### What stays -/

/-- The other tree has the same root, mounts and log, and the same places are refused. -/
structure Stays (tree tree' : Tree) : Prop where
  base : tree'.base = tree.base
  mounts : tree'.mounts = tree.mounts
  refuses : tree'.refuses = tree.refuses
  opened : tree'.opened = tree.opened

theorem Stays.trans {tree tree' tree'' : Tree} (h : Stays tree tree') (h' : Stays tree' tree'') :
    Stays tree tree'' :=
  ⟨h'.base.trans h.base, h'.mounts.trans h.mounts, h'.refuses.trans h.refuses,
    h'.opened.trans h.opened⟩

theorem Rewritten.stays {touched : Location → Prop} {tree tree' : Tree}
    (h : Rewritten touched tree tree') : Stays tree tree' :=
  ⟨h.base, h.mounts, h.refuses, h.opened⟩

theorem Rewritten.isDir {touched : Location → Prop} {tree tree' : Tree}
    (h : Rewritten touched tree tree') {path : Path} (there : tree.isDir path = true) :
    tree'.isDir path = true := by
  obtain ⟨loc, located, directory⟩ := isDir_iff.1 there
  exact isDir_iff.2 ⟨loc, h.locate located, (h.directory loc).2 directory⟩

/-- Taking away a file. -/
theorem rewritten_remove {tree : Tree} (inOrder : tree.InOrder) {loc : Location}
    {content : Content} (found : tree.find? loc = some (.file content))
    (log : tree.opened ≠ some loc) :
    Rewritten (· = loc) tree (tree.remove loc) ∧ (tree.remove loc).InOrder := by
  have below : loc ≠ [] := by
    rintro rfl
    simp at found
  -- Nothing lies below a file.
  have alone : ∀ l, loc <+: l → l ≠ loc → tree.find? l = none := by
    intro l within proper
    cases there : tree.find? l with
    | none => rfl
    | some node =>
      rw [inOrder.sound.closed.directory there within proper.symm] at found
      cases found
  have outside : ∀ l, tree.opened = some l → ¬ loc <+: l := by
    intro l isOpen within
    obtain ⟨content', there⟩ := inOrder.log l isOpen
    rw [alone l within fun eq => log (eq ▸ isOpen)] at there
    cases there
  have removed := inOrder.remove loc
  refine ⟨⟨rfl, rfl, rfl, ?_, fun l => ?_, fun l apart => ?_⟩, removed⟩
  · exact InOrder.opened_filter outside fun out => by simp [out]
  · rw [find?_remove below]
    split
    · next within =>
      by_cases here : l = loc
      · simp [here, found]
      · simp [alone l within here]
    · exact Iff.rfl
  · rw [find?_remove below]
    split
    · next within => rw [alone l within apart]
    · rfl

/-- The other tree differs in the contents of the log at most. -/
structure Quiet (tree tree' : Tree) : Prop where
  rewritten : Rewritten (fun l => tree.opened = some l) tree tree'
  inOrder : tree.InOrder → tree'.InOrder

namespace Quiet

theorem refl (tree : Tree) : Quiet tree tree := ⟨.refl _ tree, id⟩

theorem trans {tree tree' tree'' : Tree} (h : Quiet tree tree') (h' : Quiet tree' tree'') :
    Quiet tree tree'' := by
  refine ⟨h.rewritten.trans (h'.rewritten.mono fun l isOpen => ?_), h'.inOrder ∘ h.inOrder⟩
  rwa [h.rewritten.opened] at isOpen

theorem append (tree : Tree) (line : Text) : Quiet tree (tree.append line) :=
  ⟨rewritten_append tree line, fun h => h.append line⟩

end Quiet

end GoSplit.Tree
