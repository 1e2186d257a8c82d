import GoSplit.Proofs.Tree.Confined
import GoSplit.Proofs.Tree.Copying

/-!
Moving a directory by renaming it and moving it by copying. Both end in the same tree, and a copy
that stops half way is taken back, so that a move that fails loses nothing.
-/

namespace GoSplit.Tree

/-! ### Trees after a move -/

/-- A directory has moved: its new place holds what the old one held, nothing is left there, and
everything else is as it was. -/
structure Moved (src dst : Location) (tree after : Tree) : Prop where
  arrived : ∀ rest, after.find? (dst ++ rest) = tree.find? (src ++ rest)
  gone : ∀ loc, src <+: loc → after.find? loc = none
  elsewhere : ∀ loc, ¬ src <+: loc → ¬ dst <+: loc → after.find? loc = tree.find? loc

/-- A directory has not moved: nothing is at the new place, and everything else is as it was. -/
structure Unmoved (dst : Location) (tree after : Tree) : Prop where
  vacant : ∀ loc, dst <+: loc → after.find? loc = none
  elsewhere : ∀ loc, ¬ dst <+: loc → after.find? loc = tree.find? loc

section

variable {tree after after' : Tree} {src dst : Location}

/-- There is one way only to move a directory. -/
theorem Moved.unique (h : Moved src dst tree after) (h' : Moved src dst tree after')
    (loc : Location) : after'.find? loc = after.find? loc := by
  by_cases old : src <+: loc
  · rw [h.gone loc old, h'.gone loc old]
  by_cases new : dst <+: loc
  · obtain ⟨rest, rfl⟩ := new
    rw [h.arrived, h'.arrived]
  · rw [h.elsewhere loc old new, h'.elsewhere loc old new]

theorem moved_takeOver (apart : src.Apart dst) :
    Moved src dst tree ((tree.remove dst).move src dst) := by
  have below := apart.ne_nil
  have below' := apart.symm.ne_nil
  refine ⟨find?_takeOver_append below below' apart.left apart.right, fun loc old => ?_,
    fun loc old new => ?_⟩
  · rw [find?_takeOver_of_outside below below' (apart.symm.outside old), if_pos old]
  · rw [find?_takeOver_of_outside below below' new, if_neg old]

/-- A copy whose source has gone. -/
theorem Filled.moved {copied : Tree} (filled : Filled dst tree copied)
    (same : Copied src dst tree copied) (apart : src.Apart dst)
    (removed : ∀ loc, after.find? loc = if src <+: loc then none else copied.find? loc) :
    Moved src dst tree after := by
  refine ⟨fun rest => ?_, fun loc old => by rw [removed, if_pos old], fun loc old new => ?_⟩
  · rw [removed, if_neg (apart.outside (List.prefix_append ..)), same]
  · rw [removed, if_neg old, filled.find loc new]

end

/-! ### Removing -/

/-- A directory goes away when it is removed, whatever is in it and wherever else the tree
changes. -/
def Removes (base : Text) (path : Path) (loc : Location) : Prop :=
  ∀ tree : Tree, tree.base = base → tree.locate path = .ok loc → tree.find? loc = some .directory →
    ∃ after, (removeDirs path).on tree = (.ok (), after) ∧ after.find? loc = none

theorem Removes.run {tree : Tree} {path : Path} {loc : Location}
    (removes : Removes tree.base path loc) {now : Tree} (base : now.base = tree.base)
    (located : now.locate path = .ok loc) (directory : now.find? loc = some .directory) :
    ∃ after, (removeDirs path).on now = (.ok (), after) ∧
      ∀ l, after.find? l = if loc <+: l then none else now.find? l := by
  obtain ⟨after, ran, gone⟩ := removes now base located directory
  have below : loc ≠ [] := by
    rintro rfl
    rw [find?_nil] at gone
    cases gone
  refine ⟨after, ran, fun l => ?_⟩
  obtain ⟨loc', located', -, emptied⟩ := on_removeDirs_eq_ok ran
  rw [located] at located'
  cases located'
  rcases emptied with rfl | rfl
  · rw [find?_clear, if_neg fun h => h.2 rfl, directory] at gone
    cases gone
  · rw [find?_remove below, find?_clear]
    split
    · rfl
    · next out => rw [if_neg fun h => out h.1]

/-- A directory named by the last name of a path whose way does not go through it. -/
theorem removes_of_names {base : Text} {path : Path} {name : Text} {loc : Location}
    (named : path.Names name) (below : loc ≠ [])
    (out : ∀ l ∈ (empty base).passed path, ¬ loc <+: l) : Removes base path loc := by
  rintro tree rfl located directory
  refine ⟨_, on_removeDirs_of_names named below located directory ?_, ?_⟩
  · have again : (tree.clear loc).locate path = tree.locate path := by
      refine @locate_congr tree (tree.clear loc) rfl path fun l mem => ?_
      rw [find?_clear, if_neg fun within => out l mem within.1]
    rw [again, located]
  · rw [find?_remove below, if_pos List.prefix_rfl]

/-! ### Copying in place of renaming -/

section CopyAway

variable {tree : Tree} {source target : Path} {src dst : Location}

/-- A directory and a free place that its parent offers. -/
structure Offers (tree : Tree) (source target : Path) (src dst : Location) : Prop where
  inOrder : tree.InOrder
  located : tree.locate source = .ok src
  directory : tree.find? src = some .directory
  landed : tree.landing target = .ok dst
  parent : ∀ parent, target.parent = some parent → parent.text = [] ∨ tree.isDir parent = true
  free : tree.find? dst = none
  apart : src.Apart dst

/-- Nothing is at or below the free place. -/
theorem Offers.vacant (h : Offers tree source target src dst) {loc : Location}
    (within : dst <+: loc) :
    tree.find? loc = none := by
  obtain ⟨rest, rfl⟩ := within
  cases rest with
  | nil => simpa using h.free
  | cons name rest => exact h.inOrder.sound.find?_of_not_directory (by simp [h.free]) (by simp)

theorem Offers.on_copyDir (h : Offers tree source target src dst)
    {result : Except FileOpError Unit} {after : Tree}
    (ran : (copyDir source target).on tree = (result, after)) :
    Filled dst tree after ∧ (result = .ok () → Copied src dst tree after) ∧
      (after = tree ∨ after.isDir target = true) := by
  obtain ⟨filled, copied, stopped⟩ := on_copyLevels Path.byteLimit h.inOrder h.located h.directory
    (.of_parent h.landed h.parent) h.apart (fun rest => h.vacant (List.prefix_append ..))
      (Nat.le_add_left ..) ran
  refine ⟨filled, copied, stopped.elim (fun made => ?_) .inr⟩
  rcases makeDirs_of_parent (text_ne_nil_of_landing h.landed) h.parent with
    ⟨e, makes⟩ | ⟨made', makes, ensured⟩
  · exact .inl (by rw [made, makes])
  · rw [makes] at made
    exact .inr (made ▸ (ensureDir_eq_ok ensured).2)

/-- A move by copying comes to its end or is taken back. -/
theorem Offers.on_copyAway (h : Offers tree source target src dst)
    (removes : Removes tree.base source src) (removes' : Removes tree.base target dst)
    {cause : IoError} {result : Except FileOpError Unit} {after : Tree}
    (ran : (copyAway source target cause).on tree = (result, after)) :
    result = .ok () ∧ Moved src dst tree after ∨
      (∃ e, result = .error (.copyInstead source cause e)) ∧ Unmoved dst tree after := by
  have isDir : tree.isDir source = true := isDir_iff.2 ⟨src, h.located, h.directory⟩
  rw [copyAway, FileM.on_bind_of_ok (FileM.on_get tree)] at ran
  simp only [isDir, Bool.not_true, Bool.false_eq_true, if_false] at ran
  rcases copying : (copyDir source target).on tree with ⟨outcome, copied⟩
  obtain ⟨filled, same, stopped⟩ := h.on_copyDir copying
  rw [copying] at ran
  cases outcome with
  | ok _ =>
    refine .inl ?_
    obtain ⟨emptied, removed, gone⟩ := removes.run filled.base (filled.locate h.located)
      (filled.directory src h.directory)
    dsimp only at ran
    rw [FileM.on_bind_of_ok (FileM.on_set ..), FileM.on_mapError, removed] at ran
    cases ran
    exact ⟨rfl, filled.moved (same rfl) h.apart gone⟩
  | error e =>
    refine .inr ?_
    dsimp only at ran
    rw [FileM.on_bind_of_ok (FileM.on_set ..)] at ran
    cases ran
    refine ⟨⟨e, rfl⟩, ?_⟩
    have lands : ∀ {l}, copied.locate target = .ok l → l = dst := by
      intro l located
      have landed := (locate_iff_landing.1 located).1
      rw [landing_congr filled.base, h.landed] at landed
      cases landed
      rfl
    rcases stopped with rfl | made
    -- Nothing has been copied, and so there is nothing to remove.
    · have kept : ((removeDirs target).on copied).2 = copied := by
        rcases on_removeDirs_cases rfl with ⟨eq, -⟩ | ⟨l, located, directory, -⟩
        · exact eq
        · rw [lands located, h.free] at directory
          cases directory
      rw [kept]
      exact ⟨fun loc within => h.vacant within, fun _ _ => rfl⟩
    · obtain ⟨l, located, directory⟩ := isDir_iff.1 made
      obtain rfl := lands located
      obtain ⟨emptied, removed, gone⟩ := removes'.run filled.base located directory
      rw [removed]
      exact ⟨fun loc within => by rw [gone, if_pos within],
        fun loc out => by rw [gone, if_neg out, filled.find loc out]⟩

/-- A rename, where it is possible, moves the directory. -/
theorem Offers.rename (h : Offers tree source target src dst) {after : Tree}
    (renamed : tree.rename source target = .ok after) : Moved src dst tree after := by
  have landed := (locate_iff_landing.1 h.located).1
  have landed' := h.landed
  rcases rename_eq_ok renamed with ⟨-, loc, lands, lands'⟩ | ⟨s, d, lands, lands', -, -, rfl, -⟩
  · rw [lands] at landed
    rw [lands'] at landed'
    cases landed
    cases landed'
    exact absurd List.prefix_rfl h.apart.left
  · rw [lands] at landed
    rw [lands'] at landed'
    cases landed
    cases landed'
    exact moved_takeOver h.apart

end CopyAway

/-! ### Moving -/

/-- Directories that are missing above a path are neither at nor below two places, and the path
finds what is at the second of them. A path that leads up again behind a missing directory may find
its end only when the directory has been made. -/
structure Approaches (tree : Tree) (target : Path) (src dst : Location) : Prop where
  clear : ∀ parent q l, target.parent = some parent → q.Above parent → tree.landing q = .ok l →
    tree.find? l = none → ¬ src <+: l ∧ ¬ dst <+: l
  found : tree.find? dst ≠ none → tree.exists? target = true

/-- A new path below a directory that is there. -/
theorem approaches_pathIn {tree : Tree} {path : Path} {last name : Text} {src loc rel : Location}
    (sound : tree.Sound) (named : path.Names last) (below : loc ≠ [])
    (located : tree.locate path = .ok loc) (directory : tree.find? loc = some .directory)
    (proper : ∀ part ∈ rel ++ [name], IsName part) (fits : (pathIn path (rel ++ [name])).Fits)
    (apart : src.Apart (loc ++ (rel ++ [name]))) :
    Approaches tree (pathIn path (rel ++ [name])) src (loc ++ (rel ++ [name])) := by
  obtain ⟨landed, directories⟩ := locate_iff_landing.1 located
  have proper' : ∀ part ∈ rel, IsName part := fun part mem => proper part (by simp [mem])
  have fits' := Fits.of_pathIn_append named proper fits
  refine ⟨fun parent q l up above landed' nothing => ?_, fun there => ?_⟩
  · rw [parent_pathIn named proper] at up
    cases up
    have nonempty : l ≠ [] := by
      rintro rfl
      simp at nothing
    -- What is missing is above the new name, and below the directory.
    have upper : l <+: loc ++ rel := by
      rcases mem_passed_of_above above landed' (landing_pathIn landed below proper' fits') nonempty
        with mem | rfl
      · rcases mem_passed_pathIn landed below proper' fits' mem with before | ⟨up, part, -, rfl⟩
        · rw [directories l before] at nothing
          cases nothing
        · exact (List.prefix_append_right_inj loc).2 part
      · exact List.prefix_rfl
    rw [← List.append_assoc] at apart ⊢
    refine ⟨fun within => apart.left ((within.trans upper).trans (List.prefix_append ..)),
      fun within => ?_⟩
    have size := (within.trans upper).length_le
    rw [List.length_append, List.length_singleton] at size
    omega
  · obtain ⟨node, found⟩ := Option.ne_none_iff_exists'.1 there
    have lands := landing_pathIn landed below proper fits
    exact exists?_iff.2 ⟨_, node, sound.locate_pathIn (isDir_iff.2 ⟨loc, located, directory⟩) landed
      below (fun part mem => (proper part mem).isWord) lands found, found⟩

/-- Makes the directories above a path. -/
def makeParents (target : Path) : FileM FileOpError Unit :=
  match target.parent with
  | some parent => FileM.mapError (.createDir parent) (makeDirs parent)
  | none => pure ()

section MoveDir

variable {tree made : Tree} {source target : Path} {src dst : Location}

theorem on_moveDir_of_taken (source : Path) (taken : tree.exists? target = true) :
    (moveDir source target).on tree = (.error (.destinationExists target), tree) := by
  rw [moveDir, FileM.on_bind_of_ok (FileM.on_get tree), taken]
  rfl

/-- The directories above the target are made first, and then the operating system is asked to
rename. -/
theorem on_moveDir_of_free (source : Path) (free : tree.exists? target = false) :
    (moveDir source target).on tree =
      match (makeParents target).on tree with
      | (.error e, made) => (.error e, made)
      | (.ok (), made) =>
        match made.rename source target with
        | .ok moved => (.ok (), moved)
        | .error cause => (copyAway source target cause).on made := by
  have run : (moveDir source target).on tree =
      (makeParents target >>= fun _ => get >>= fun tree => match tree.rename source target with
        | .ok moved => set moved
        | .error cause => copyAway source target cause : FileM FileOpError Unit).on tree := by
    rw [moveDir, FileM.on_bind_of_ok (FileM.on_get tree), free, makeParents]
    simp only [Bool.false_eq_true, if_false]
    cases target.parent <;> rfl
  rw [run, FileM.on_bind]
  rcases (makeParents target).on tree with ⟨_ | _, made⟩
  · rfl
  · dsimp only
    rw [FileM.on_bind_of_ok (FileM.on_get made)]
    cases made.rename source target <;> rfl

theorem on_makeParents (approaches : Approaches tree target src dst)
    {result : Except FileOpError Unit} (ran : (makeParents target).on tree = (result, made)) :
    Grown (fun l => ¬ src <+: l ∧ ¬ dst <+: l) tree made ∧ (tree.InOrder → made.InOrder) ∧
      (result = .ok () → ∀ parent, target.parent = some parent →
        parent.text = [] ∨ made.isDir parent = true) ∧
      ∀ e, result = .error e → ∃ parent cause, target.parent = some parent ∧
        e = .createDir parent cause := by
  unfold makeParents at ran
  cases up : target.parent with
  | none =>
    rw [up] at ran
    cases ran
    exact ⟨.refl _ tree, id, fun _ => nofun, nofun⟩
  | some parent =>
    rw [up] at ran
    dsimp only at ran
    rw [FileM.on_mapError] at ran
    rcases makes : (makeDirs parent).on tree with ⟨outcome, made'⟩
    rw [makes] at ran
    cases ran
    have grown : Grown (fun l => ∃ q : Path, q.Above parent ∧ tree.landing q = .ok l) tree
        made' := by
      have grown :=
        @makeDirsFrom_grown (fun l => ∃ q : Path, q.Above parent ∧ tree.landing q = .ok l)
        tree parent (fun q l above landed _ => ⟨q, above, landed⟩) parent (.inl rfl)
        (parent.text.length + 1)
      have same : tree.makeDirsFrom parent (parent.text.length + 1) = (outcome, made') := makes
      rwa [same] at grown
    refine ⟨grown.mono fun l ⟨q, above, landed⟩ nothing =>
      approaches.clear parent q l up above landed nothing,
      fun inOrder => inOrder.makeDirs makes, fun ok q eq => ?_, fun e failed => ?_⟩
    · cases eq
      cases outcome with
      | error e => cases ok
      | ok _ =>
        by_cases empty : parent.text = []
        · exact .inl empty
        · exact .inr (isDir_of_makeDirsFrom makes empty)
    · cases outcome with
      | ok _ => cases failed
      | error cause =>
        cases failed
        exact ⟨parent, cause, rfl, rfl⟩

/-- What the directories above make of a move: the target is still free, and its parent offers
it. -/
theorem Offers.of_parents (inOrder : made.InOrder) (located : tree.locate source = .ok src)
    (directory : tree.find? src = some .directory) (landed : tree.landing target = .ok dst)
    (apart : src.Apart dst) (vacant : tree.find? dst = none)
    (grown : Grown (fun l => ¬ src <+: l ∧ ¬ dst <+: l) tree made)
    (parent : ∀ parent, target.parent = some parent → parent.text = [] ∨ made.isDir parent = true) :
    Offers made source target src dst := by
  refine ⟨inOrder, ?_, grown.directory directory,
    by rw [landing_congr grown.base, landed], parent, ?_, apart⟩
  · obtain ⟨l, located', -⟩ := isDir_iff.1 (grown.isDir (isDir_iff.2 ⟨src, located, directory⟩))
    have lands := (locate_iff_landing.1 located').1
    rw [landing_congr grown.base, (locate_iff_landing.1 located).1] at lands
    cases lands
    exact located'
  · rw [(grown.find dst).resolve_right fun new => new.1.2 List.prefix_rfl, vacant]

/-- Moving by renaming and moving by copying agree, and a move that fails loses nothing. -/
theorem on_moveDir_agrees (inOrder : tree.InOrder) (located : tree.locate source = .ok src)
    (directory : tree.find? src = some .directory) (landed : tree.landing target = .ok dst)
    (apart : src.Apart dst) (approaches : Approaches tree target src dst)
    (removes : Removes tree.base source src) (removes' : Removes tree.base target dst) :
    (tree.find? dst ≠ none →
      (moveDir source target).on tree = (.error (.destinationExists target), tree)) ∧
    (tree.find? dst = none → ∃ made, Grown (fun l => ¬ src <+: l ∧ ¬ dst <+: l) tree made ∧
      ((∃ parent cause, target.parent = some parent ∧
          (moveDir source target).on tree = (.error (.createDir parent cause), made)) ∨
        ((moveDir source target).on tree =
          match made.rename source target with
          | .ok moved => (.ok (), moved)
          | .error cause => (copyAway source target cause).on made) ∧
        (∀ moved, made.rename source target = .ok moved → Moved src dst made moved) ∧
        (∀ cause result after, (copyAway source target cause).on made = (result, after) →
          result = .ok () ∧ Moved src dst made after ∨
            (∃ e, result = .error (.copyInstead source cause e)) ∧ Unmoved dst made after) ∧
        ∀ moved cause copied, made.rename source target = .ok moved →
          (copyAway source target cause).on made = (.ok (), copied) →
            ∀ loc, copied.find? loc = moved.find? loc)) := by
  refine ⟨fun taken => on_moveDir_of_taken source (approaches.found taken), fun vacant => ?_⟩
  have free : tree.exists? target = false := by
    rw [← Bool.not_eq_true, exists?_iff]
    rintro ⟨l, node, located, found⟩
    rw [(locate_iff_landing.1 located).1] at landed
    cases landed
    rw [vacant] at found
    cases found
  rcases makes : (makeParents target).on tree with ⟨result, made⟩
  obtain ⟨grown, keeps, parents, failed⟩ := on_makeParents approaches makes
  have run := on_moveDir_of_free source free
  rw [makes] at run
  refine ⟨made, grown, ?_⟩
  cases result with
  | error e =>
    obtain ⟨parent, cause, up, rfl⟩ := failed e rfl
    exact .inl ⟨parent, cause, up, run⟩
  | ok _ =>
    have offers := Offers.of_parents (keeps inOrder) located directory landed apart vacant grown
      (parents rfl)
    rw [← grown.base] at removes removes'
    have copies := fun cause result after => @Offers.on_copyAway made source target src dst offers
      removes removes' cause result after
    refine .inr ⟨run, fun moved => offers.rename, copies, fun moved cause copied renamed ran => ?_⟩
    rcases copies cause _ _ ran with ⟨-, done⟩ | ⟨⟨e, failed⟩, -⟩
    · exact (offers.rename renamed).unique done
    · cases failed

end MoveDir

/-- A directory with a file and an empty directory in it, beside another file system. -/
def sampleMounted : Tree :=
  { Tree.empty ['/', 't'] with
    entries := [([['a']], .directory), ([['a'], ['f']], .file (Content.ofText ['x'])),
      ([['a'], ['s']], .directory), ([['o']], .directory)]
    mounts := [[['o']]] }

theorem on_moveDir_agrees_mounted :
    ∃ result after, (moveDir ⟨['a']⟩ ⟨"o/x/b".toList⟩).on sampleMounted = (result, after) ∧
      (result = .ok () → after.find? [['a']] = none ∧
        after.find? [['o'], ['x'], ['b'], ['s']] = some .directory) ∧
      (result ≠ .ok () → after.find? [['a'], ['f']] = some (.file (Content.ofText ['x'])) ∧
        after.find? [['o'], ['x'], ['b']] = none) := by
  have inOrder : sampleMounted.InOrder := ⟨by decide +kernel, nofun⟩
  have located : sampleMounted.locate ⟨['a']⟩ = .ok [['a']] := rfl
  have directory : sampleMounted.find? [['a']] = some .directory := by decide +kernel
  have landed : sampleMounted.landing ⟨"o/x/b".toList⟩ = .ok [['o'], ['x'], ['b']] := rfl
  have apart : Location.Apart [['a']] [['o'], ['x'], ['b']] := ⟨by decide, by decide⟩
  have approaches : Approaches sampleMounted ⟨"o/x/b".toList⟩ [['a']] [['o'], ['x'], ['b']] :=
    @approaches_pathIn sampleMounted ⟨['o']⟩ ['o'] ['b'] [['a']] [['o']] [['x']] inOrder.sound
      ⟨by decide, by decide, by decide⟩ (by decide) rfl (by decide +kernel) (by decide)
        (by decide) apart
  have removes : Removes sampleMounted.base ⟨['a']⟩ [['a']] := by
    refine @removes_of_names _ _ ['a'] _ ⟨by decide, by decide, by decide⟩ (by decide) ?_
    have passed : (empty sampleMounted.base).passed ⟨['a']⟩ = [[]] := rfl
    rw [passed]
    decide
  have removes' : Removes sampleMounted.base ⟨"o/x/b".toList⟩ [['o'], ['x'], ['b']] := by
    refine @removes_of_names _ _ ['b'] _ ⟨by decide, by decide, by decide⟩ (by decide) ?_
    have passed : (empty sampleMounted.base).passed ⟨"o/x/b".toList⟩ =
        [[], [['o']], [['o'], ['x']]] := rfl
    rw [passed]
    decide
  obtain ⟨made, grown, outcome⟩ :=
    (on_moveDir_agrees inOrder located directory landed apart approaches
      removes removes').2 (by decide +kernel)
  have same : ∀ loc, [['a']] <+: loc → made.find? loc = sampleMounted.find? loc := fun loc within =>
    (grown.find loc).resolve_right fun new => new.1.1 within
  have file : made.find? [['a'], ['f']] = some (.file (Content.ofText ['x'])) := by
    rw [same _ (by decide)]
    decide +kernel
  have arrives : ∀ {after}, Moved [['a']] [['o'], ['x'], ['b']] made after →
      after.find? [['a']] = none ∧
      after.find? [['o'], ['x'], ['b'], ['s']] = some .directory := by
    intro after moved
    refine ⟨moved.gone _ List.prefix_rfl, (moved.arrived [['s']]).trans ?_⟩
    rw [same _ (List.prefix_append ..)]
    decide +kernel
  rcases outcome with ⟨parent, cause, -, ran⟩ | ⟨ran, renamed, copied, -⟩
  · refine ⟨_, _, ran, nofun, fun _ => ⟨file, ?_⟩⟩
    rw [(grown.find _).resolve_right fun new => new.1.2 List.prefix_rfl]
    decide +kernel
  cases renames : made.rename ⟨['a']⟩ ⟨"o/x/b".toList⟩ with
  | ok moved =>
    rw [renames] at ran
    exact ⟨_, _, ran, fun _ => arrives (renamed moved renames), fun failed => absurd rfl failed⟩
  | error cause =>
    rw [renames] at ran
    dsimp only at ran
    rcases copies : (copyAway ⟨['a']⟩ ⟨"o/x/b".toList⟩ cause).on made with ⟨result, after⟩
    rw [copies] at ran
    refine ⟨_, _, ran, ?_⟩
    rcases copied cause result after copies with ⟨rfl, moved⟩ | ⟨⟨e, rfl⟩, unmoved⟩
    · exact ⟨fun _ => arrives moved, fun failed => absurd rfl failed⟩
    · refine ⟨nofun, fun _ => ⟨?_, unmoved.vacant _ List.prefix_rfl⟩⟩
      rw [unmoved.elsewhere _ (by decide), file]

end GoSplit.Tree
