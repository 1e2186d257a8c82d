import GoSplit.Proofs.Tree.Views
import GoSplit.Tree.Move

/-!
Copying whole directories. A copy changes nothing outside of the place it goes to, whether it comes
to its end or stops at an entry. When it comes to its end, that place holds what the source holds,
at every depth.
-/

namespace GoSplit

namespace Location

/-- Neither of two places is at or below the other. -/
structure Apart (a b : Location) : Prop where
  left : ¬ a <+: b
  right : ¬ b <+: a

namespace Apart

variable {a b : Location}

theorem symm (h : a.Apart b) : b.Apart a := ⟨h.right, h.left⟩

theorem ne_nil (h : a.Apart b) : a ≠ [] := by
  rintro rfl
  exact h.left List.nil_prefix

/-- What is below one place is not below the other. -/
theorem outside (h : a.Apart b) {loc : Location} (within : b <+: loc) : ¬ a <+: loc :=
  fun within' => (List.prefix_or_prefix_of_prefix within within').elim h.right h.left

theorem append (h : a.Apart b) (more more' : Location) : (a ++ more).Apart (b ++ more') :=
  ⟨fun part => h.outside (List.prefix_append b more') ((List.prefix_append a more).trans part),
    fun part => h.symm.outside (List.prefix_append a more)
      ((List.prefix_append b more').trans part)⟩

end Apart

theorem apart_of_ne {name name' : Text} (ne : name ≠ name') (loc : Location) :
    (loc ++ [name]).Apart (loc ++ [name']) := by
  constructor
  · rw [List.prefix_append_right_inj, List.prefix_cons_iff]
    simpa using ne
  · rw [List.prefix_append_right_inj, List.prefix_cons_iff]
    simpa using Ne.symm ne

end Location

namespace Tree

/-! ### Trees that are filled in -/

/-- The other tree differs at and below one place only, and has lost no directory there. -/
structure Filled (top : Location) (tree tree' : Tree) : Prop where
  base : tree'.base = tree.base
  inOrder : tree'.InOrder
  find : ∀ loc, ¬ top <+: loc → tree'.find? loc = tree.find? loc
  directory : ∀ loc, tree.find? loc = some .directory → tree'.find? loc = some .directory

namespace Filled

variable {top : Location} {tree tree' tree'' : Tree}

theorem refl (top : Location) (inOrder : tree.InOrder) : Filled top tree tree :=
  ⟨rfl, inOrder, fun _ _ => rfl, fun _ => id⟩

theorem trans (h : Filled top tree tree') (h' : Filled top tree' tree'') : Filled top tree tree'' :=
  ⟨h'.base.trans h.base, h'.inOrder, fun loc out => (h'.find loc out).trans (h.find loc out),
    fun loc found => h'.directory loc (h.directory loc found)⟩

theorem upwards {more : Location} (h : Filled (top ++ more) tree tree') : Filled top tree tree' :=
  ⟨h.base, h.inOrder, fun loc out => h.find loc fun within =>
    out ((List.prefix_append top more).trans within), h.directory⟩

/-- A path that can be followed to its end still can. -/
theorem locate (h : Filled top tree tree') {path : Path} {loc : Location}
    (located : tree.locate path = .ok loc) : tree'.locate path = .ok loc := by
  obtain ⟨landed, passed⟩ := locate_iff_landing.1 located
  refine locate_iff_landing.2 ⟨by rwa [landing_congr h.base], fun l mem => ?_⟩
  rw [passed_congr h.base] at mem
  exact h.directory l (passed l mem)

theorem isDir (h : Filled top tree tree') {path : Path} (there : tree.isDir path = true) :
    tree'.isDir path = true := by
  obtain ⟨loc, located, directory⟩ := isDir_iff.1 there
  exact isDir_iff.2 ⟨loc, h.locate located, h.directory loc directory⟩

end Filled

/-- A place where a directory has been made. -/
theorem Grown.filled {top : Location} {tree tree' : Tree} (h : Grown (· = top) tree tree')
    (inOrder : tree'.InOrder) : Filled top tree tree' := by
  refine ⟨h.base, inOrder, fun loc out => (h.find loc).resolve_right ?_, fun loc => h.directory⟩
  rintro ⟨rfl, -⟩
  exact out List.prefix_rfl

/-- Nothing is below a place where there is no directory. -/
theorem Sound.find?_of_not_directory {tree : Tree} (sound : tree.Sound) {loc : Location}
    (free : tree.find? loc ≠ some .directory) {rest : Location} (below : rest ≠ []) :
    tree.find? (loc ++ rest) = none := by
  cases found : tree.find? (loc ++ rest) with
  | none => rfl
  | some node =>
    exact absurd (sound.closed.directory found (List.prefix_append ..) (by simpa using below)) free

/-- The place `d` in the other tree holds what the place `s` held. -/
def Copied (s d : Location) (tree tree' : Tree) : Prop :=
  ∀ rest, tree'.find? (d ++ rest) = tree.find? (s ++ rest)

/-! ### From one directory to another -/

theorem pathIn_singleton (path : Path) (name : Text) : pathIn path [name] = path.join name := by
  simp [pathIn, Location.text, Text.joinWith_eq_flatMap]

/-- A name looked up in the directory of a path. -/
theorem landing_join {tree : Tree} {path : Path} {loc l : Location} {name : Text}
    (landed : tree.landing path = .ok loc) (below : loc ≠ []) (isName : IsName name)
    (landed' : tree.landing (path.join name) = .ok l) : l = loc ++ [name] := by
  rw [← pathIn_singleton] at landed'
  exact (isName_of_landing_pathIn landed below (by simpa using isName.isWord) landed').1

/-- Two paths to directories that are apart. -/
structure Ends (tree : Tree) (source target : Path) (s d : Location) : Prop where
  source : tree.locate source = .ok s
  sourceDirectory : tree.find? s = some .directory
  target : tree.locate target = .ok d
  targetDirectory : tree.find? d = some .directory
  apart : s.Apart d

theorem Ends.filled {tree tree' : Tree} {source target : Path} {s d top : Location}
    (ends : Ends tree source target s d) (h : Filled top tree tree') :
    Ends tree' source target s d :=
  ⟨h.locate ends.source, h.directory s ends.sourceDirectory, h.locate ends.target,
    h.directory d ends.targetDirectory, ends.apart⟩

section Entries

variable {tree after : Tree} {source target : Path} {s d : Location}

/-- A file is copied whole when the two paths do not lead to one place. -/
theorem copyFile_eq {path path' : Path} {loc : Location} {content : Content}
    (read : tree.lookup path = .ok (loc, .file content)) (other : tree.locate path' ≠ .ok loc) :
    tree.copyFile path path' = tree.writeBytes path' content := by
  rw [copyFile, readBytes, read, (lookup_eq_ok_iff.1 read).1]
  dsimp only
  cases located : tree.locate path' with
  | error e => rfl
  | ok loc' =>
    have ne : (loc == loc') = false := by
      rw [beq_eq_false_iff_ne]
      rintro rfl
      exact other located
    simp only [ne, Bool.false_eq_true, if_false]

/-- A file that could be copied is there twice. -/
theorem copyFile_eq_ok {name : Text} (inOrder : tree.InOrder) (ends : Ends tree source target s d)
    (isName : IsName name) (free : ∀ rest, tree.find? (d ++ name :: rest) = none)
    (ran : tree.copyFile (source.join name) (target.join name) = .ok after) :
    Filled (d ++ [name]) tree after ∧ Copied (s ++ [name]) (d ++ [name]) tree after := by
  obtain ⟨content, read⟩ : ∃ content, tree.readBytes (source.join name) = .ok content := by
    unfold copyFile at ran
    split at ran
    · cases ran
    · next content read => exact ⟨content, read⟩
  unfold readBytes at read
  split at read
  · cases read
  · cases read
  next l content' looked =>
  cases read
  obtain ⟨located, file⟩ := lookup_eq_ok_iff.1 looked
  have here := landing_join (locate_iff_landing.1 ends.source).1 ends.apart.ne_nil isName
    (locate_iff_landing.1 located).1
  subst here
  have there : ∀ l, tree.landing (target.join name) = .ok l → l = d ++ [name] := fun l =>
    landing_join (locate_iff_landing.1 ends.target).1 ends.apart.symm.ne_nil isName
  rw [copyFile_eq looked fun same => (ends.apart.append [name] [name]).left
    (there _ (locate_iff_landing.1 same).1 ▸ List.prefix_rfl)] at ran
  obtain ⟨l, landed, -, rfl, keeps⟩ := writeBytes_eq_ok ran
  obtain rfl := there l landed
  have below : d ++ [name] ≠ [] := by simp
  refine ⟨⟨rfl, keeps inOrder, fun loc out => ?_, fun loc found => ?_⟩, fun rest => ?_⟩
  · rw [find?_put below, if_neg]
    rintro rfl
    exact out List.prefix_rfl
  · rw [find?_put below, if_neg, found]
    rintro rfl
    rw [free []] at found
    cases found
  · rw [find?_put below]
    cases rest with
    | nil => simpa using file.symm
    | cons next rest =>
      have nothing := @Sound.find?_of_not_directory tree inOrder.sound (s ++ [name])
        (by simp [file])
        (next :: rest) (by simp)
      rw [if_neg (by simp), nothing]
      simpa using free (next :: rest)

/-- A directory is copied, or part of it is and the copy stops. -/
def Copies (copyDir : Path → Path → FileM FileOpError Unit) (source target : Path) (s d : Location)
    (tree : Tree) : Prop :=
  ∀ result after, (copyDir source target).on tree = (result, after) →
    Filled d tree after ∧ (result = .ok () → Copied s d tree after)

variable {copyDir : Path → Path → FileM FileOpError Unit} {result : Except FileOpError Unit}

theorem on_copyEntries_cons (copyDir : Path → Path → FileM FileOpError Unit) (source target : Path)
    (name : Text) (names : List Text) (tree : Tree) :
    (copyEntries copyDir source target (name :: names)).on tree =
      ((if tree.isDir (source.join name) then copyDir (source.join name) (target.join name)
        else FileM.change fun tree =>
          (tree.copyFile (source.join name) (target.join name)).mapError
            (.copyFile (source.join name)))
        >>= fun _ => copyEntries copyDir source target names).on tree := by
  rw [copyEntries, FileM.on_bind_of_ok (FileM.on_get tree)]
  dsimp only
  split <;> rfl

theorem on_copyEntry {name : Text} (inOrder : tree.InOrder) (ends : Ends tree source target s d)
    (isName : IsName name) (free : ∀ rest, tree.find? (d ++ name :: rest) = none)
    (copies : tree.isDir (source.join name) = true →
      Copies copyDir (source.join name) (target.join name) (s ++ [name]) (d ++ [name]) tree)
    (ran : (if tree.isDir (source.join name) then copyDir (source.join name) (target.join name)
      else FileM.change fun tree =>
        (tree.copyFile (source.join name) (target.join name)).mapError
          (.copyFile (source.join name))).on tree = (result, after)) :
    Filled (d ++ [name]) tree after ∧
      (result = .ok () → Copied (s ++ [name]) (d ++ [name]) tree after) := by
  split at ran
  · next isDir => exact copies isDir result after ran
  rw [FileM.on_change] at ran
  cases copied : tree.copyFile (source.join name) (target.join name) with
  | error e =>
    rw [copied] at ran
    cases ran
    exact ⟨.refl _ inOrder, fun ok => by cases ok⟩
  | ok made =>
    rw [copied] at ran
    cases ran
    obtain ⟨filled, same⟩ := copyFile_eq_ok inOrder ends isName free copied
    exact ⟨filled, fun _ => same⟩

/-- Entries are copied one after the other: those that are done hold what the source holds, and the
others are not touched yet. -/
theorem on_copyEntries {names : List Text} (proper : ∀ name ∈ names, IsName name)
    (distinct : names.Nodup)
    (copies : ∀ name ∈ names, ∀ tree : Tree, tree.InOrder → Ends tree source target s d →
      tree.isDir (source.join name) = true → (∀ rest, tree.find? (d ++ name :: rest) = none) →
      Copies copyDir (source.join name) (target.join name) (s ++ [name]) (d ++ [name]) tree)
    (inOrder : tree.InOrder) (ends : Ends tree source target s d)
    (free : ∀ name ∈ names, ∀ rest, tree.find? (d ++ name :: rest) = none)
    (ran : (copyEntries copyDir source target names).on tree = (result, after)) :
    Filled d tree after ∧
      (∀ name ∉ names, ∀ rest, after.find? (d ++ name :: rest) = tree.find? (d ++ name :: rest)) ∧
      (result = .ok () → ∀ name ∈ names, ∀ rest,
        after.find? (d ++ name :: rest) = tree.find? (s ++ name :: rest)) := by
  induction names generalizing tree with
  | nil =>
    cases ran
    exact ⟨.refl _ inOrder, fun _ _ _ => rfl, fun _ name mem => absurd mem List.not_mem_nil⟩
  | cons name names ih =>
    obtain ⟨isName, proper⟩ := List.forall_mem_cons.1 proper
    obtain ⟨fresh, distinct⟩ := List.nodup_cons.1 distinct
    obtain ⟨freeHere, free⟩ := List.forall_mem_cons.1 free
    obtain ⟨copiesHere, copies⟩ := List.forall_mem_cons.1 copies
    rw [on_copyEntries_cons, FileM.on_bind] at ran
    generalize step : FileM.on _ tree = outcome at ran
    obtain ⟨first, mid⟩ := outcome
    obtain ⟨filled, copied⟩ := on_copyEntry inOrder ends isName freeHere
      (fun isDir => copiesHere tree inOrder ends isDir freeHere) step
    have others : ∀ other, other ≠ name → ∀ rest,
        mid.find? (d ++ other :: rest) = tree.find? (d ++ other :: rest) := by
      intro other ne rest
      refine filled.find _ ?_
      rw [List.append_cons d other rest]
      exact (Location.apart_of_ne ne.symm d).outside (List.prefix_append ..)
    have ne_name : ∀ other ∈ names, other ≠ name := by
      rintro other mem rfl
      exact fresh mem
    cases first with
    | error e =>
      cases ran
      refine ⟨filled.upwards, fun other out => others other ?_, fun ok => by cases ok⟩
      rintro rfl
      exact out (List.mem_cons_self ..)
    | ok _ =>
      obtain ⟨filled', untouched, same⟩ :=
        ih proper distinct copies filled.inOrder (ends.filled filled)
          (fun other mem rest => by rw [others other (ne_name other mem) rest, free other mem rest])
          ran
      refine ⟨filled.upwards.trans filled', fun other out rest => ?_, fun ok => ?_⟩
      · rw [List.mem_cons, not_or] at out
        rw [untouched other out.2, others other out.1]
      · refine List.forall_mem_cons.2 ⟨fun rest => ?_, fun other mem rest => ?_⟩
        · rw [untouched name fresh]
          simpa using copied rfl rest
        · rw [same ok other mem,
            filled.upwards.find _ (ends.apart.symm.outside (List.prefix_append ..))]

end Entries

/-! ### Making the target -/

/-- A path that leads to a place if it leads anywhere. Making its directories makes that place at
most. -/
structure Leads (tree : Tree) (path : Path) (loc : Location) : Prop where
  visible : path.text ≠ []
  only : ∀ l, tree.landing path = .ok l → l = loc
  grown : Grown (· = loc) tree ((makeDirs path).on tree).2

/-- Making directories where they are already. -/
theorem makeDirsFrom_of_isDir {tree : Tree} {path : Path}
    (there : path.text = [] ∨ tree.isDir path = true) (levels : Nat) :
    tree.makeDirsFrom path levels = (.ok (), tree) := by
  cases levels with
  | zero => rfl
  | succ levels =>
    unfold makeDirsFrom
    by_cases empty : path.text.isEmpty = true
    · rw [if_pos empty]
    rw [if_neg empty]
    replace there := there.resolve_left (by simpa using empty)
    have same : tree.ensureDir path = .ok tree := by
      unfold ensureDir
      split
      · next made ok =>
        obtain ⟨dir, name, loc, entered, stepped, free, -⟩ := makeDir_eq_ok ok
        obtain ⟨l, located, directory⟩ := isDir_iff.1 there
        have landed := (landing_of_enter entered stepped).1
        rw [(locate_iff_landing.1 located).1] at landed
        cases landed
        rw [free] at directory
        cases directory
      · rw [if_pos there]
    rw [same]

/-- Below a directory that is there at most one is made, or none. -/
theorem makeDirs_of_parent {tree : Tree} {path : Path} (visible : path.text ≠ [])
    (up : ∀ parent, path.parent = some parent → parent.text = [] ∨ tree.isDir parent = true) :
    (∃ e, (makeDirs path).on tree = (.error e, tree)) ∨
      ∃ made, (makeDirs path).on tree = (.ok (), made) ∧ tree.ensureDir path = .ok made := by
  have run : (makeDirs path).on tree = tree.makeDirsFrom path (path.text.length + 1) := rfl
  rw [run]
  unfold makeDirsFrom
  rw [if_neg (by simpa using visible)]
  cases ensured : tree.ensureDir path with
  | ok made => exact .inr ⟨made, rfl, rfl⟩
  | error e =>
    refine .inl ?_
    cases e with
    | notFound =>
      cases above : path.parent with
      | none => exact ⟨_, rfl⟩
      | some parent =>
        dsimp only
        rw [makeDirsFrom_of_isDir (up parent above)]
        dsimp only
        rw [ensured]
        exact ⟨_, rfl⟩
    | _ => exact ⟨_, rfl⟩

/-- A path too long to be followed makes nothing. -/
theorem makeDirs_of_namesOf {tree : Tree} {path : Path} {e : IoError}
    (unusable : tree.namesOf path = .error e) (other : e ≠ .notFound) :
    ((makeDirs path).on tree).2 = tree := by
  have run : (makeDirs path).on tree = tree.makeDirsFrom path (path.text.length + 1) := rfl
  have refused : tree.ensureDir path = .error e := by
    have entered : tree.makeDir path = .error e := by
      unfold makeDir enter
      rw [unusable]
      rfl
    have nothing : tree.isDir path = false := by
      rw [← Bool.not_eq_true, isDir_iff]
      rintro ⟨l, located, -⟩
      rw [locate, unusable] at located
      cases located
    rw [ensureDir, entered, nothing]
    rfl
  rw [run]
  unfold makeDirsFrom
  split
  · rfl
  rw [refused]
  cases e <;> first | rfl | exact absurd rfl other

theorem namesOf_eq_error {tree : Tree} {path : Path} (long : ¬ path.Fits) :
    ∃ e, tree.namesOf path = .error e ∧ e ≠ .notFound := by
  unfold namesOf
  split
  · exact ⟨_, rfl, nofun⟩
  next whole =>
  split
  · exact ⟨_, rfl, nofun⟩
  next short => exact absurd ⟨by simpa using whole, by omega⟩ long

theorem Leads.of_parent {tree : Tree} {path : Path} {loc : Location}
    (landed : tree.landing path = .ok loc)
    (up : ∀ parent, path.parent = some parent → parent.text = [] ∨ tree.isDir parent = true) :
    Leads tree path loc := by
  have only : ∀ l, tree.landing path = .ok l → l = loc := by
    intro l landed'
    rw [landed] at landed'
    cases landed'
    rfl
  refine ⟨text_ne_nil_of_landing landed, only, ?_⟩
  rcases makeDirs_of_parent (text_ne_nil_of_landing landed) up with ⟨e, ran⟩ | ⟨made, ran, ensured⟩
  · rw [ran]
    exact .refl _ tree
  · rw [ran]
    exact (ensureDir_eq_ok ensured).1.mono fun l landed' _ => only l landed'

/-- A name in a directory that is there. -/
theorem Leads.join {tree : Tree} {path : Path} {loc : Location} {name : Text}
    (located : tree.locate path = .ok loc) (directory : tree.find? loc = some .directory)
    (below : loc ≠ []) (isName : IsName name) : Leads tree (path.join name) (loc ++ [name]) := by
  obtain ⟨landed, directories⟩ := locate_iff_landing.1 located
  have proper : ∀ part ∈ [name], IsName part := by simpa using isName
  refine ⟨?_, fun l => landing_join landed below isName, ?_⟩
  · rw [← pathIn_singleton]
    obtain ⟨last, named⟩ : ∃ last, (pathIn path [name]).Names last :=
      ⟨name, names_pathIn (fun part mem => (proper part mem).isWord) rfl⟩
    intro empty
    exact named.2.1 (by simpa [Path.Names, empty, Text.pieces] using named.1.symm)
  rw [← pathIn_singleton]
  by_cases fits : (pathIn path [name]).Fits
  · have grown :=
      @makeDirsFrom_grown (fun l => l ∈ tree.passed (pathIn path [name]) ∨ l = loc ++ [name])
      tree (pathIn path [name]) (fun q l above landed' nonempty =>
        mem_passed_of_above above landed' (landing_pathIn landed below proper fits) nonempty) _
      (.inl rfl) ((pathIn path [name]).text.length + 1)
    refine grown.mono fun l place free => place.resolve_left fun mem => ?_
    have directory' : tree.find? l = some .directory := by
      rcases mem_passed_pathIn landed below proper fits mem with before | ⟨up, part, ne, rfl⟩
      · exact directories l before
      · rcases List.prefix_cons_iff.1 part with rfl | ⟨rest, rfl, nothing⟩
        · rwa [List.append_nil]
        · exact absurd (by rw [List.prefix_nil.1 nothing]) ne
    rw [free] at directory'
    cases directory'
  · obtain ⟨e, unusable, other⟩ := @namesOf_eq_error tree _ fits
    rw [makeDirs_of_namesOf unusable other]
    exact .refl _ tree

/-- The target is made where nothing is. -/
theorem on_ensureDirs {tree after : Tree} {path : Path} {loc : Location}
    (leads : Leads tree path loc) (free : tree.find? loc = none) {result : Except FileOpError Unit}
    (ran : (ensureDirs path).on tree = (result, after)) :
    after = ((makeDirs path).on tree).2 ∧ (result = .ok () →
      after.locate path = .ok loc ∧ after.find? loc = some .directory) := by
  have missing : tree.exists? path = false := by
    rw [← Bool.not_eq_true, exists?_iff]
    rintro ⟨l, node, located, found⟩
    obtain rfl := leads.only l (locate_iff_landing.1 located).1
    rw [free] at found
    cases found
  rw [ensureDirs, FileM.on_bind_of_ok (FileM.on_get tree), missing] at ran
  simp only [Bool.not_false, if_true] at ran
  rw [FileM.on_mapError] at ran
  have grown := leads.grown
  rcases made : (makeDirs path).on tree with ⟨outcome, made⟩
  rw [made] at ran grown
  cases ran
  refine ⟨rfl, fun ok => ?_⟩
  cases outcome with
  | error e => cases ok
  | ok _ =>
    obtain ⟨l, located, directory⟩ := isDir_iff.1 (isDir_of_makeDirsFrom made leads.visible)
    have landed := (locate_iff_landing.1 located).1
    rw [landing_congr grown.base] at landed
    obtain rfl := leads.only l landed
    exact ⟨located, directory⟩

/-! ### Copying -/

/-- A name makes a path longer. -/
theorem byteLength_join {path : Path} {name : Text} (isName : IsName name) :
    path.text.byteLength < (path.join name).text.byteLength := by
  obtain ⟨c, cs, rfl⟩ := List.exists_cons_of_ne_nil isName.visible
  have relative : c ≠ '/' := fun eq => isName.whole (eq ▸ List.mem_cons_self ..)
  have size := c.utf8Size_pos
  rw [Path.join, if_neg (by simpa using relative)]
  split
  · simp only [Text.byteLength_append, Text.byteLength_cons]
    omega
  · simp only [Text.byteLength_append, Text.byteLength_cons]
    omega

/-- A directory is copied when all entries that its names tell of are. -/
theorem copied_of_namesIn {tree after : Tree} {source target : Path} {s d : Location}
    (sound : tree.Sound) (ends : Ends tree source target s d) (filled : Filled d tree after)
    (free : ∀ name rest, tree.find? (d ++ name :: rest) = none)
    (untouched : ∀ name ∉ tree.namesIn s, ∀ rest,
      after.find? (d ++ name :: rest) = tree.find? (d ++ name :: rest))
    (same : ∀ name ∈ tree.namesIn s, ∀ rest,
      after.find? (d ++ name :: rest) =
        tree.find? (s ++ name :: rest)) : Copied s d tree after := by
  intro rest
  cases rest with
  | nil =>
    rw [List.append_nil, List.append_nil, ends.sourceDirectory]
    exact filled.directory d ends.targetDirectory
  | cons name rest =>
    by_cases mem : name ∈ tree.namesIn s
    · exact same name mem rest
    · have nothing : tree.find? (s ++ [name]) = none := by
        rw [mem_namesIn sound] at mem
        cases found : tree.find? (s ++ [name]) with
        | none => rfl
        | some node => exact absurd ⟨node, found⟩ mem
      rw [untouched name mem rest, free, List.append_cons]
      cases rest with
      | nil => rw [List.append_nil, nothing]
      | cons next rest => exact (sound.find?_of_not_directory (by simp [nothing]) (by simp)).symm

/-- The contents of a directory are copied to one that is empty. -/
theorem on_copyContents {copyDir : Path → Path → FileM FileOpError Unit} {tree after : Tree}
    {source target : Path} {s d : Location} {result : Except FileOpError Unit}
    (inOrder : tree.InOrder) (ends : Ends tree source target s d)
    (free : ∀ name rest, tree.find? (d ++ name :: rest) = none)
    (copies : ∀ name, IsName name → ∀ tree : Tree, tree.InOrder → Ends tree source target s d →
      tree.isDir (source.join name) = true → (∀ rest, tree.find? (d ++ name :: rest) = none) →
      Copies copyDir (source.join name) (target.join name) (s ++ [name]) (d ++ [name]) tree)
    (ran : (FileM.look (fun tree => (tree.namesAt source).mapError (.readDir source)) >>=
      copyEntries copyDir source target).on tree = (result, after)) :
    Filled d tree after ∧ (result = .ok () → Copied s d tree after) := by
  have listed : (tree.namesAt source).mapError (FileOpError.readDir source) =
      .ok (tree.namesIn s) := by
    rw [namesAt, lookup_eq_ok_iff.2 ⟨ends.source, ends.sourceDirectory⟩]
    rfl
  have proper : ∀ name ∈ tree.namesIn s, IsName name := by
    intro name mem
    obtain ⟨node, found⟩ := (mem_namesIn inOrder.sound).1 mem
    exact inOrder.sound.isName_of_find? found name (by simp)
  rw [FileM.on_bind, FileM.on_look, listed] at ran
  obtain ⟨filled, untouched, same⟩ := on_copyEntries proper (nodup_namesIn inOrder.sound s)
    (fun name mem => copies name (proper name mem)) inOrder ends (fun name _ => free name) ran
  exact ⟨filled, fun ok => copied_of_namesIn inOrder.sound ends filled free untouched (same ok)⟩

theorem byteLength_of_locate {tree : Tree} {path : Path} {loc : Location}
    (located : tree.locate path = .ok loc) : path.text.byteLength < Path.byteLimit := by
  obtain ⟨names, found, -⟩ := locate_eq_ok_iff.1 located
  exact (namesOf_eq_ok_iff.1 found).1.short

/-- What a copy has made of a tree: the target is filled in. If the copy came to its end, the target
holds what the source held. -/
theorem on_copyLevels (levels : Nat) {tree after : Tree} {source target : Path} {s d : Location}
    {result : Except FileOpError Unit} (inOrder : tree.InOrder)
    (located : tree.locate source = .ok s) (directory : tree.find? s = some .directory)
    (leads : Leads tree target d) (apart : s.Apart d) (free : ∀ rest, tree.find? (d ++ rest) = none)
    (enough : Path.byteLimit ≤ source.text.byteLength + levels)
    (ran : (copyLevels levels source target).on tree = (result, after)) :
    Filled d tree after ∧ (result = .ok () → Copied s d tree after) ∧
      (after = ((makeDirs target).on tree).2 ∨ after.isDir target = true) := by
  induction levels generalizing tree source target s d result after with
  | zero =>
    -- A path that can be followed is never as long as this.
    have short := byteLength_of_locate located
    omega
  | succ levels ih =>
    rcases ensured : (ensureDirs target).on tree with ⟨first, mid⟩
    obtain ⟨made, there⟩ := on_ensureDirs leads (by simpa using free []) ensured
    have grown := leads.grown
    rw [← made] at grown
    have filled : Filled d tree mid := grown.filled (by rw [made]; exact inOrder.makeDirs rfl)
    rw [copyLevels, FileM.on_bind, ensured] at ran
    cases first with
    | error e =>
      cases ran
      exact ⟨filled, fun ok => (by cases ok), .inl made⟩
    | ok _ =>
      obtain ⟨located', directory'⟩ := there rfl
      have ends : Ends mid source target s d :=
        ⟨filled.locate located, filled.directory s directory, located', directory', apart⟩
      have free' : ∀ name rest, mid.find? (d ++ name :: rest) = none := by
        intro name rest
        refine ((grown.find _).resolve_right fun new => ?_).trans (free _)
        simpa using new.1
      -- A directory in the source is copied to a name in the target that is not in use.
      have copies : ∀ name, IsName name → ∀ tree : Tree, tree.InOrder →
          Ends tree source target s d →
          tree.isDir (source.join name) = true → (∀ rest, tree.find? (d ++ name :: rest) = none) →
          Copies (copyLevels levels) (source.join name) (target.join name) (s ++ [name])
            (d ++ [name])
            tree := by
        intro name isName tree inOrder ends isDir free result after ran
        obtain ⟨l, locatedEntry, directoryEntry⟩ := isDir_iff.1 isDir
        obtain rfl := landing_join (locate_iff_landing.1 ends.source).1 apart.ne_nil isName
          (locate_iff_landing.1 locatedEntry).1
        have longer := @byteLength_join source name isName
        obtain ⟨filled, copied, -⟩ := ih inOrder locatedEntry directoryEntry
          (Leads.join ends.target ends.targetDirectory apart.symm.ne_nil isName)
          (apart.append [name] [name]) (fun rest => by simpa using free rest) (by omega) ran
        exact ⟨filled, copied⟩
      obtain ⟨filled', same⟩ := on_copyContents filled.inOrder ends free' copies ran
      refine ⟨filled.trans filled', fun ok rest => ?_, .inr (filled'.isDir ?_)⟩
      · rw [same ok rest, filled.find _ (apart.symm.outside (List.prefix_append ..))]
      · exact isDir_iff.2 ⟨d, located', directory'⟩

end Tree

end GoSplit
