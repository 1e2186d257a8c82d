import GoSplit.Proofs.Site
import GoSplit.Relocation

/-!
Relocation moves exactly what belongs to the listed modules. While the modules are moved
one by one, the tree is known at every location: what is at or below a module that was a
directory has gone to the same place in the private subtree, with the directories above it,
and the rest is where it was. A module nested in another never comes before it, so nothing
is ever in its way; and since the description mentions only which modules were moved, the
order of the manifest does not matter.
-/

namespace GoSplit

namespace ImportPath

/-- Every element of the path can be the name of an entry. -/
def IsPlain (path : Text) : Prop := ∀ name ∈ segments path, Tree.IsName name

instance (path : Text) : Decidable (IsPlain path) :=
  inferInstanceAs (Decidable (∀ name ∈ segments path, _))

theorem segments_ne_nil (path : Text) : segments path ≠ [] := Text.pieces_ne_nil '/' path

end ImportPath

open ImportPath (IsPlain segments)

theorem Path.below_of_words (p : Path) {path : Text}
    (words : ∀ name ∈ segments path, Tree.IsWord name) :
    p.below path = Tree.pathIn p (segments path) := by
  have kept : ImportPath.directories path = segments path := by
    refine List.filter_eq_self.2 fun name mem => ?_
    have here := words name mem
    simp [here.visible, here.ne_dot, here.ne_dots]
  rw [Path.below, kept, Tree.pathIn, if_neg (by simpa using ImportPath.segments_ne_nil path),
    Location.text]

theorem Path.below_of_isPlain (p : Path) {path : Text} (plain : IsPlain path) :
    p.below path = Tree.pathIn p (segments path) :=
  p.below_of_words fun name mem => (plain name mem).isWord

namespace Location

/-- Places below two locations of which neither lies in the other. -/
theorem not_prefix_append {a b : Location} (apart : ¬ a <+: b) (apart' : ¬ b <+: a)
    (rest rest' : Location) : ¬ a ++ rest <+: b ++ rest' := by
  intro part
  rcases List.prefix_or_prefix_of_prefix ((List.prefix_append a rest).trans part)
    (List.prefix_append b rest') with within | within
  · exact apart within
  · exact apart' within

end Location

namespace Relocation

/-! ### Which places are moved -/

/-- The location, relative to the vendored tree, is at or below a module that is a directory. -/
def Carried (start : Tree) (old : Location) (done : List Location) (rel : Location) : Prop :=
  ∃ m ∈ done, m <+: rel ∧ start.find? (old ++ m) = some .directory

/-- The location is at or above such a module, or the top of the tree. -/
def Opened (start : Tree) (old : Location) (done : List Location) (rel : Location) : Prop :=
  rel = [] ∨ ∃ m ∈ done, rel <+: m ∧ start.find? (old ++ m) = some .directory

section Places

variable {start : Tree} {old : Location} {done : List Location} {rel s : Location}

instance : Decidable (Carried start old done rel) :=
  inferInstanceAs (Decidable (∃ m ∈ done, _ ∧ _))

instance : Decidable (Opened start old done rel) :=
  inferInstanceAs (Decidable (_ ∨ ∃ m ∈ done, _ ∧ _))

theorem Carried.mono (h : Carried start old done s) (part : s <+: rel) :
    Carried start old done rel := by
  obtain ⟨m, mem, above, directory⟩ := h
  exact ⟨m, mem, above.trans part, directory⟩

theorem carried_concat : Carried start old (done ++ [s]) rel ↔
    Carried start old done rel ∨ s <+: rel ∧ start.find? (old ++ s) = some .directory := by
  simp [Carried, or_and_right, exists_or]

theorem opened_concat : Opened start old (done ++ [s]) rel ↔
    Opened start old done rel ∨ rel <+: s ∧ start.find? (old ++ s) = some .directory := by
  simp [Opened, or_and_right, exists_or, or_assoc]

/-- Modules that are listed in another order cover the same places. -/
theorem carried_congr {done' : List Location} (same : ∀ m, m ∈ done ↔ m ∈ done') :
    Carried start old done rel ↔ Carried start old done' rel := by
  simp [Carried, same]

theorem opened_congr {done' : List Location} (same : ∀ m, m ∈ done ↔ m ∈ done') :
    Opened start old done rel ↔ Opened start old done' rel := by
  simp [Opened, same]

/-- A module that is no directory, or was carried along, adds no place. -/
theorem carried_skip (why : start.find? (old ++ s) = some .directory → Carried start old done s) :
    Carried start old (done ++ [s]) rel ↔ Carried start old done rel := by
  rw [carried_concat]
  constructor
  · rintro (before | ⟨part, directory⟩)
    · exact before
    · exact (why directory).mono part
  · exact .inl

theorem opened_skip (why : start.find? (old ++ s) = some .directory → Carried start old done s)
    (out : ¬ Carried start old done rel) :
    Opened start old (done ++ [s]) rel ↔ Opened start old done rel := by
  rw [opened_concat]
  constructor
  · rintro (before | ⟨part, directory⟩)
    · exact before
    · obtain ⟨m, mem, above, isDirectory⟩ := why directory
      rcases List.prefix_or_prefix_of_prefix part above with inner | outer
      · exact .inr ⟨m, mem, inner, isDirectory⟩
      · exact absurd ⟨m, mem, outer, isDirectory⟩ out
  · exact .inl

/-- A module that comes after shallower ones, and was not carried along with one of them, is
not above one of them either. -/
theorem not_carried_of_prefix (shallow : ∀ m ∈ done, m.length ≤ s.length)
    (out : ¬ Carried start old done s) (part : s <+: rel) : ¬ Carried start old done rel := by
  rintro ⟨m, mem, above, directory⟩
  rcases List.prefix_or_prefix_of_prefix above part with inner | outer
  · exact out ⟨m, mem, inner, directory⟩
  · have eq := outer.eq_of_length_le (shallow m mem)
    exact out ⟨m, mem, eq ▸ List.prefix_rfl, directory⟩

theorem not_opened_of_shallow (shallow : ∀ m ∈ done, m.length ≤ s.length) (below : s ≠ [])
    (out : ¬ Carried start old done s) : ¬ Opened start old done s := by
  rintro (top | ⟨m, mem, part, directory⟩)
  · exact below top
  · have eq := part.eq_of_length_le (shallow m mem)
    exact out ⟨m, mem, eq ▸ List.prefix_rfl, directory⟩

end Places

/-! ### The state between two moves -/

/-- A tree in which modules can be moved from one directory to another, empty one. -/
structure Ground (start : Tree) (vendored thirdParty : Path) (old new : Location) : Prop where
  named : ∃ name, thirdParty.Names name
  landsOld : start.landing vendored = .ok old
  landsNew : start.landing thirdParty = .ok new
  apart : ¬ old <+: new
  apart' : ¬ new <+: old
  /-- Both paths lead through directories, and not through what is moved. -/
  way : ∀ l, l ∈ start.passed vendored ∨ l ∈ start.passed thirdParty →
    start.find? l = some .directory ∧ (old <+: l → l = old) ∧ (new <+: l → l = new)
  top : start.find? old = some .directory
  closed : ∀ rel node, start.find? (old ++ rel) = some node →
    ∀ up, up <+: rel → up ≠ rel → start.find? (old ++ up) = some .directory
  allowed : ∀ rel, start.refuses (new ++ rel) = none
  device : ∀ rel rel', start.device (old ++ rel) = start.device (new ++ rel')
  quiet : ∀ log ∈ start.opened, ¬ old <+: log ∧ ¬ new <+: log

theorem Ground.old_ne_nil {start : Tree} {vendored thirdParty : Path} {old new : Location}
    (ground : Ground start vendored thirdParty old new) : old ≠ [] := by
  rintro rfl
  exact ground.apart List.nil_prefix

theorem Ground.new_ne_nil {start : Tree} {vendored thirdParty : Path} {old new : Location}
    (ground : Ground start vendored thirdParty old new) : new ≠ [] := by
  rintro rfl
  exact ground.apart' List.nil_prefix

/-- The tree after some modules were moved. -/
structure Progress (start : Tree) (old new : Location) (done : List Location) (tree : Tree) :
    Prop where
  base : tree.base = start.base
  mounts : tree.mounts = start.mounts
  refuses : tree.refuses = start.refuses
  opened : tree.opened = start.opened
  findOld : ∀ rel, tree.find? (old ++ rel) =
    if Carried start old done rel then none else start.find? (old ++ rel)
  findNew : ∀ rel, tree.find? (new ++ rel) =
    if Carried start old done rel then start.find? (old ++ rel)
    else if Opened start old done rel then some .directory
    else none
  other : ∀ l, ¬ old <+: l → ¬ new <+: l → start.opened ≠ some l → tree.find? l = start.find? l
  directory : ∀ l, ¬ old <+: l → ¬ new <+: l →
    (tree.find? l = some .directory ↔ start.find? l = some .directory)

namespace Progress

variable {start tree : Tree} {vendored thirdParty : Path} {old new : Location}
  {done : List Location} {s : Location}

/-- A note goes to the log, which is not among what is moved. -/
theorem append (ground : Ground start vendored thirdParty old new)
    (h : Progress start old new done tree) (line : Text) :
    Progress start old new done (tree.append line) := by
  have noted := Tree.rewritten_append tree line
  have same : ∀ l, start.opened ≠ some l → (tree.append line).find? l = tree.find? l := by
    intro l elsewhere
    exact noted.same l (by rwa [h.opened])
  refine ⟨noted.base.trans h.base, noted.mounts.trans h.mounts, noted.refuses.trans h.refuses,
    noted.opened.trans h.opened, fun rel => ?_, fun rel => ?_, fun l out out' log => ?_,
    fun l out out' => (noted.directory l).trans (h.directory l out out')⟩
  · rw [same, h.findOld]
    exact fun isOpen => (ground.quiet _ isOpen).1 (List.prefix_append ..)
  · rw [same, h.findNew]
    exact fun isOpen => (ground.quiet _ isOpen).2 (List.prefix_append ..)
  · rw [same l log, h.other l out out' log]

/-- A module that is no directory, or was carried along, changes nothing. -/
theorem skip (h : Progress start old new done tree)
    (why : start.find? (old ++ s) = some .directory → Carried start old done s) :
    Progress start old new (done ++ [s]) tree := by
  refine { h with findOld := fun rel => ?_, findNew := fun rel => ?_ }
  · rw [h.findOld, if_congr (carried_skip why) rfl rfl]
  · rw [h.findNew]
    by_cases carried : Carried start old done rel
    · rw [if_pos carried, if_pos ((carried_skip why).2 carried)]
    · rw [if_neg carried, if_neg (mt (carried_skip why).1 carried),
        if_congr (opened_skip why carried) rfl rfl]

/-- A directory is moved, once the directories above its new place are there. -/
theorem move (ground : Ground start vendored thirdParty old new)
    (h : Progress start old new done tree)
    (shallow : ∀ m ∈ done, m.length ≤ s.length) (out : ¬ Carried start old done s)
    (directory : start.find? (old ++ s) = some .directory) {made : Tree}
    (grown : Tree.Grown (fun l => ∃ up, up <+: s ∧ up ≠ s ∧ l = new ++ up) tree made)
    (paved : ∀ up, up <+: s → up ≠ s → made.find? (new ++ up) = some .directory) :
    Progress start old new (done ++ [s]) ((made.remove (new ++ s)).move (old ++ s) (new ++ s)) := by
  have belowOld : old ++ s ≠ [] := List.append_ne_nil_of_left_ne_nil ground.old_ne_nil s
  have belowNew : new ++ s ≠ [] := List.append_ne_nil_of_left_ne_nil ground.new_ne_nil s
  have apart := Location.not_prefix_append ground.apart ground.apart'
  have apart' := Location.not_prefix_append ground.apart' ground.apart
  have elsewhere : ∀ l, ¬ new <+: l →
      ((made.remove (new ++ s)).move (old ++ s) (new ++ s)).find? l =
        if old ++ s <+: l then none else tree.find? l := by
    intro l out
    have same : made.find? l = tree.find? l := by
      rcases grown.find l with same | ⟨⟨up, -, -, rfl⟩, -⟩
      · exact same
      · exact absurd (List.prefix_append ..) out
    rw [Tree.find?_takeOver_of_outside belowOld belowNew fun within =>
      out ((List.prefix_append ..).trans within), same]
  have opened : made.opened = start.opened := grown.opened.trans h.opened
  have quiet : ∀ log ∈ made.opened, ¬ old ++ s <+: log ∧ ¬ new ++ s <+: log := by
    intro log isOpen
    rw [opened] at isOpen
    exact (ground.quiet log isOpen).imp (mt (List.prefix_append ..).trans)
      (mt (List.prefix_append ..).trans)
  refine ⟨grown.base.trans h.base, grown.mounts.trans h.mounts, grown.refuses.trans h.refuses,
    (Tree.opened_takeOver quiet).trans opened, fun rel => ?_, fun rel => ?_,
    fun l outOld outNew log => ?_, fun l outOld outNew => ?_⟩
  · rw [elsewhere _ (by simpa using apart' [] rel), h.findOld]
    by_cases within : s <+: rel
    · rw [if_pos ((List.prefix_append_right_inj old).2 within),
        if_pos (carried_concat.2 (.inr ⟨within, directory⟩))]
    · rw [if_neg (mt (List.prefix_append_right_inj old).1 within)]
      refine if_congr ?_ rfl rfl
      rw [carried_concat]
      simp [within]
  · by_cases within : s <+: rel
    · -- The module itself and what came along with it.
      obtain ⟨rest, rfl⟩ := within
      have notYet := not_carried_of_prefix shallow out (List.prefix_append s rest)
      have same : made.find? (old ++ (s ++ rest)) = tree.find? (old ++ (s ++ rest)) := by
        rcases grown.find (old ++ (s ++ rest)) with same | ⟨⟨up, -, -, eq⟩, -⟩
        · exact same
        · exact absurd (eq ▸ List.prefix_rfl) (apart (s ++ rest) up)
      rw [← List.append_assoc, Tree.find?_takeOver_append belowOld belowNew (apart s s)
        (apart' s s),
        List.append_assoc, same, h.findOld, if_neg notYet,
        if_pos (carried_concat.2 (.inr ⟨List.prefix_append .., directory⟩))]
    · have outside : ¬ new ++ s <+: new ++ rel := mt (List.prefix_append_right_inj new).1 within
      have same : Carried start old (done ++ [s]) rel ↔ Carried start old done rel := by
        rw [carried_concat]
        simp [within]
      rw [Tree.find?_takeOver_of_outside belowOld belowNew outside, if_neg (apart s rel)]
      by_cases above : rel <+: s
      · have notYet : ¬ Carried start old done rel := fun carried => out (carried.mono above)
        rw [paved rel above (fun eq => within (eq ▸ List.prefix_rfl)), if_neg (mt same.1 notYet),
          if_pos (opened_concat.2 (.inr ⟨above, directory⟩))]
      · have unpaved : made.find? (new ++ rel) = tree.find? (new ++ rel) := by
          rcases grown.find (new ++ rel) with same | ⟨⟨up, part, -, eq⟩, -⟩
          · exact same
          · exact absurd (List.append_cancel_left eq ▸ part) above
        have same' : Opened start old (done ++ [s]) rel ↔ Opened start old done rel := by
          rw [opened_concat]
          simp [above]
        rw [unpaved, h.findNew, if_congr same rfl (if_congr same' rfl rfl)]
  · rw [elsewhere l outNew, if_neg (fun within => outOld ((List.prefix_append ..).trans within)),
      h.other l outOld outNew log]
  · rw [elsewhere l outNew, if_neg (fun within => outOld ((List.prefix_append ..).trans within))]
    exact h.directory l outOld outNew

/-! ### One module -/

/-- The tops of both trees are still there. -/
theorem tops (ground : Ground start vendored thirdParty old new)
    (h : Progress start old new done tree) (below : ∀ m ∈ done, m ≠ []) :
    tree.find? old = some .directory ∧ tree.find? new = some .directory := by
  have top : ¬ Carried start old done [] := by
    rintro ⟨m, mem, part, -⟩
    exact below m mem (List.prefix_nil.1 part)
  have inOld := h.findOld []
  have inNew := h.findNew []
  rw [List.append_nil, if_neg top, ground.top] at inOld
  rw [List.append_nil, if_neg top, if_pos (.inl rfl)] at inNew
  exact ⟨inOld, inNew⟩

/-- And so are the directories that lead to them. -/
theorem way (ground : Ground start vendored thirdParty old new)
    (h : Progress start old new done tree) (below : ∀ m ∈ done, m ≠ []) {l : Location}
    (mem : l ∈ start.passed vendored ∨ l ∈ start.passed thirdParty) :
    tree.find? l = some .directory := by
  obtain ⟨found, outOld, outNew⟩ := ground.way l mem
  obtain ⟨topOld, topNew⟩ := h.tops ground below
  by_cases inOld : old <+: l
  · rw [outOld inOld, topOld]
  by_cases inNew : new <+: l
  · rw [outNew inNew, topNew]
  · exact (h.directory l inOld inNew).2 found

theorem reachOld (ground : Ground start vendored thirdParty old new)
    (h : Progress start old new done tree) (below : ∀ m ∈ done, m ≠ []) :
    tree.landing vendored = .ok old ∧
      ∀ l ∈ tree.passed vendored, tree.find? l = some .directory := by
  rw [Tree.landing_congr h.base, Tree.passed_congr h.base]
  exact ⟨ground.landsOld, fun l mem => h.way ground below (.inl mem)⟩

theorem reachNew (ground : Ground start vendored thirdParty old new)
    (h : Progress start old new done tree) (below : ∀ m ∈ done, m ≠ []) :
    tree.landing thirdParty = .ok new ∧
      ∀ l ∈ tree.passed thirdParty, tree.find? l = some .directory := by
  rw [Tree.landing_congr h.base, Tree.passed_congr h.base]
  exact ⟨ground.landsNew, fun l mem => h.way ground below (.inr mem)⟩

theorem isDir_old_iff (ground : Ground start vendored thirdParty old new)
    (h : Progress start old new done tree) (below : ∀ m ∈ done, m ≠ [])
    (proper : ∀ name ∈ s, Tree.IsName name) (fits : (Tree.pathIn vendored s).Fits) :
    tree.isDir (Tree.pathIn vendored s) = true ↔
      start.find? (old ++ s) = some .directory ∧ ¬ Carried start old done s := by
  obtain ⟨lands, directories⟩ := h.reachOld ground below
  rw [Tree.isDir_pathIn_iff lands ground.old_ne_nil directories proper fits]
  constructor
  · intro all
    have here := all s List.prefix_rfl
    rw [h.findOld] at here
    split at here
    · cases here
    · next out => exact ⟨here, out⟩
  · rintro ⟨directory, out⟩ up part
    rw [h.findOld, if_neg fun carried => out (carried.mono part)]
    by_cases eq : up = s
    · rw [eq, directory]
    · exact ground.closed s _ directory up part eq

/-- A directory that was moved is in its new place. -/
theorem isDir_new (ground : Ground start vendored thirdParty old new)
    (h : Progress start old new done tree) (below : ∀ m ∈ done, m ≠ [])
    (proper : ∀ name ∈ s, Tree.IsName name) (fits : (Tree.pathIn thirdParty s).Fits)
    (directory : start.find? (old ++ s) = some .directory) (carried : Carried start old done s) :
    tree.isDir (Tree.pathIn thirdParty s) = true := by
  obtain ⟨lands, directories⟩ := h.reachNew ground below
  rw [Tree.isDir_pathIn_iff lands ground.new_ne_nil directories proper fits]
  intro up part
  rw [h.findNew]
  by_cases within : Carried start old done up
  · rw [if_pos within]
    by_cases eq : up = s
    · rw [eq, directory]
    · exact ground.closed s _ directory up part eq
  · rw [if_neg within, if_pos]
    obtain ⟨m, mem, above, isDirectory⟩ := carried
    rcases List.prefix_or_prefix_of_prefix part above with inner | outer
    · exact .inr ⟨m, mem, inner, isDirectory⟩
    · exact absurd ⟨m, mem, outer, isDirectory⟩ within

/-- A directory that is still in its old place can be renamed, once the directories above its
new place are there. -/
theorem rename (ground : Ground start vendored thirdParty old new)
    (h : Progress start old new done tree) (below : ∀ m ∈ done, m ≠ []) (nonempty : s ≠ [])
    (proper : ∀ name ∈ s, Tree.IsName name) (fits : (Tree.pathIn vendored s).Fits)
    (fits' : (Tree.pathIn thirdParty s).Fits)
    (directory : start.find? (old ++ s) = some .directory) (out : ¬ Carried start old done s)
    (place : tree.find? (new ++ s) = none) {made : Tree}
    (grown : Tree.Grown (fun l => ∃ up, up <+: s ∧ up ≠ s ∧ l = new ++ up) tree made)
    (paved : ∀ up, up <+: s → up ≠ s → made.find? (new ++ up) = some .directory) :
    made.rename (Tree.pathIn vendored s) (Tree.pathIn thirdParty s) =
      .ok ((made.remove (new ++ s)).move (old ++ s) (new ++ s)) := by
  obtain ⟨landsOld, -⟩ := h.reachOld ground below
  obtain ⟨landsNew, directories⟩ := h.reachNew ground below
  have lands := Tree.landing_pathIn landsNew ground.new_ne_nil proper fits'
  have ends : s.getLast? = some (s.getLast nonempty) := List.getLast?_eq_some_getLast nonempty
  have named : ∀ path : Path, (Tree.pathIn path s).Names (s.getLast nonempty) :=
    fun _ => Tree.names_pathIn (fun name mem => (proper name mem).isWord) ends
  obtain ⟨loc, located, isDirectory⟩ := Tree.isDir_iff.1 (grown.isDir
    ((h.isDir_old_iff ground below proper fits).2 ⟨directory, out⟩))
  have here : loc = old ++ s := by
    have there := (Tree.locate_iff_landing.1 located).1
    rw [Tree.landing_congr grown.base,
      Tree.landing_pathIn landsOld ground.old_ne_nil proper fits] at there
    cases there
    rfl
  subst here
  have located' : made.locate (Tree.pathIn thirdParty s) = .ok (new ++ s) := by
    refine Tree.locate_iff_landing.2 ⟨by rw [Tree.landing_congr grown.base, lands], fun l mem => ?_⟩
    rw [Tree.passed_congr grown.base] at mem
    rcases Tree.mem_passed_pathIn landsNew ground.new_ne_nil proper fits' mem with
      before | ⟨up, part, ne, rfl⟩
    · exact grown.directory (directories l before)
    · exact paved up part ne
  have free : made.find? (new ++ s) = none := by
    rcases grown.find (new ++ s) with same | ⟨⟨up, -, ne, eq⟩, -⟩
    · rw [same, place]
    · exact absurd (List.append_cancel_left eq).symm ne
  have device : made.device (old ++ s).dropLast = made.device (new ++ s).dropLast := by
    have mounts : made.mounts = start.mounts := grown.mounts.trans h.mounts
    have same : ∀ l, made.device l = start.device l :=
      fun l => by rw [Tree.device, mounts, Tree.device]
    rw [same, same, List.dropLast_append_of_ne_nil nonempty,
      List.dropLast_append_of_ne_nil nonempty]
    exact ground.device ..
  have allowed : made.refuses (new ++ s) = none := by
    rw [grown.refuses, h.refuses]
    exact ground.allowed s
  exact Tree.rename_of_free (named _) (named _) located located' isDirectory free
    (List.append_ne_nil_of_left_ne_nil ground.old_ne_nil s)
    (Location.not_prefix_append ground.apart ground.apart' s s)
    (Location.not_prefix_append ground.apart' ground.apart s s) device allowed

/-- A directory that is still in its old place can be moved. -/
theorem on_moveDir (ground : Ground start vendored thirdParty old new)
    (h : Progress start old new done tree) (shallow : ∀ m ∈ done, m ≠ [] ∧ m.length ≤ s.length)
    (nonempty : s ≠ []) (proper : ∀ name ∈ s, Tree.IsName name)
    (fits : (Tree.pathIn vendored s).Fits) (fits' : (Tree.pathIn thirdParty s).Fits)
    (directory : start.find? (old ++ s) = some .directory) (out : ¬ Carried start old done s) :
    ∃ moved, (Tree.moveDir (Tree.pathIn vendored s) (Tree.pathIn thirdParty s)).on tree =
        (.ok (), moved) ∧ Progress start old new (done ++ [s]) moved := by
  obtain ⟨init, name, rfl⟩ : ∃ init name, s = init ++ [name] := by
    rcases List.eq_nil_or_concat s with empty | ⟨init, name, eq⟩
    · exact absurd empty nonempty
    · exact ⟨init, name, by rw [eq, List.concat_eq_append]⟩
  have below : ∀ m ∈ done, m ≠ [] := fun m mem => (shallow m mem).1
  have shorter : ∀ m ∈ done, m.length ≤ (init ++ [name]).length := fun m mem => (shallow m mem).2
  obtain ⟨last, named⟩ := ground.named
  obtain ⟨landsNew, directories⟩ := h.reachNew ground below
  have top : tree.isDir thirdParty = true := Tree.isDir_iff.2
    ⟨new, Tree.locate_iff_landing.2 ⟨landsNew, directories⟩, (h.tops ground below).2⟩
  have place : tree.find? (new ++ (init ++ [name])) = none := by
    rw [h.findNew, if_neg out, if_neg (not_opened_of_shallow shorter nonempty out)]
  have free : ∀ up, up <+: init →
      tree.find? (new ++ up) = none ∨ tree.find? (new ++ up) = some .directory := by
    intro up part
    rw [h.findNew, if_neg fun carried => out (carried.mono (part.trans (List.prefix_append ..)))]
    split
    · exact .inr rfl
    · exact .inl rfl
  have allowed : ∀ rel, tree.refuses (new ++ rel) = none := by
    rw [h.refuses]
    exact ground.allowed
  obtain ⟨made, ran, grown, paved⟩ := Tree.on_makeDirs_pathIn named landsNew ground.new_ne_nil top
    (fun part mem => proper part (by simp [mem])) (Tree.Fits.of_pathIn_append named proper fits')
    free fun up _ => allowed up
  have taken : tree.exists? (Tree.pathIn thirdParty (init ++ [name])) = false := by
    rw [← Bool.not_eq_true, Tree.exists?_iff]
    rintro ⟨loc, node, located, found⟩
    have lands := (Tree.locate_iff_landing.1 located).1
    rw [Tree.landing_pathIn landsNew ground.new_ne_nil proper fits'] at lands
    cases lands
    rw [place] at found
    cases found
  have grown' : Tree.Grown (fun l => ∃ up, up <+: init ++ [name] ∧ up ≠ init ++ [name] ∧
      l = new ++ up) tree made := by
    refine grown.mono ?_
    rintro l ⟨up, part, rfl⟩ -
    refine ⟨up, part.trans (List.prefix_append ..), ?_, rfl⟩
    rintro rfl
    have shorter := part.length_le
    rw [List.length_append, List.length_singleton] at shorter
    omega
  have paved' : ∀ up, up <+: init ++ [name] → up ≠ init ++ [name] →
      made.find? (new ++ up) = some .directory := fun up part ne =>
    paved up ((List.prefix_concat_iff.1 part).resolve_left ne)
  refine ⟨_, Tree.on_moveDir_of_rename taken (Tree.parent_pathIn named proper) ran
    (h.rename ground below nonempty proper fits fits' directory out place grown' paved'), ?_⟩
  exact h.move ground shorter out directory grown' paved'

end Progress

/-! ### All modules -/

/-- The path can be used below both trees. -/
structure Usable (vendored thirdParty : Path) (path : Text) : Prop where
  plain : IsPlain path
  fitsOld : (vendored.below path).Fits
  fitsNew : (thirdParty.below path).Fits

section Run

variable {start : Tree} {vendored thirdParty : Path} {old new : Location} {done : List Location}

theorem on_moveModule (ground : Ground start vendored thirdParty old new) {site : Site}
    (h : Progress start old new done site.tree) {m : Manifest.Module}
    (usable : Usable vendored thirdParty m.path)
    (shallow : ∀ d ∈ done, d ≠ [] ∧ d.length ≤ (segments m.path).length) :
    ∃ outcome after, (moveModule vendored thirdParty m).on site = (.ok outcome, after) ∧
      failureOf ⟨m.path, outcome⟩ = none ∧
      Progress start old new (done ++ [segments m.path]) after.tree := by
  obtain ⟨plain, fits, fits'⟩ := usable
  rw [Path.below_of_isPlain _ plain] at fits fits'
  have below : ∀ d ∈ done, d ≠ [] := fun d mem => (shallow d mem).1
  have isThere := h.isDir_old_iff ground below plain fits
  simp only [moveModule, Path.below_of_isPlain _ plain]
  rw [SiteM.on_bind_of_ok (SiteM.on_look _ site)]
  by_cases there : site.tree.isDir (Tree.pathIn vendored (segments m.path)) = true
  · obtain ⟨directory, out⟩ := isThere.1 there
    obtain ⟨moved, ran, progress⟩ := h.on_moveDir ground shallow (ImportPath.segments_ne_nil m.path)
      plain fits fits' directory out
    rw [if_pos there, SiteM.on_bind_of_ok (SiteM.on_attempt ..), SiteM.on_files, ran]
    exact ⟨_, _, rfl, rfl, progress⟩
  · have progress : Progress start old new (done ++ [segments m.path]) site.tree := by
      refine h.skip fun directory => ?_
      by_contra out
      exact there (isThere.2 ⟨directory, out⟩)
    rw [if_neg there, SiteM.on_bind_of_ok (SiteM.on_look _ site)]
    split
    · exact ⟨_, site, rfl, rfl, progress⟩
    split
    · exact ⟨_, site, rfl, rfl, progress⟩
    · exact ⟨_, site, rfl, rfl, progress⟩

/-- Modules are moved one after the other, each not deeper than those behind it. -/
theorem on_moveModules (ground : Ground start vendored thirdParty old new)
    {modules : List Manifest.Module}
    (usable : ∀ m ∈ modules, Usable vendored thirdParty m.path)
    (ordered : modules.Pairwise fun a b => (segments a.path).length ≤ (segments b.path).length)
    (shallow : ∀ d ∈ done, d ≠ [] ∧ ∀ m ∈ modules, d.length ≤ (segments m.path).length)
    {site : Site} (h : Progress start old new done site.tree) :
    ∃ moved after, (moveModules vendored thirdParty modules).on site = (.ok moved, after) ∧
      moved.filterMap failureOf = [] ∧
      Progress start old new (done ++ modules.map fun m => segments m.path) after.tree := by
  induction modules generalizing done site with
  | nil => exact ⟨[], site, rfl, rfl, by simpa using h⟩
  | cons m modules ih =>
    obtain ⟨first, ordered⟩ := List.pairwise_cons.1 ordered
    obtain ⟨here, usable⟩ := List.forall_mem_cons.1 usable
    obtain ⟨outcome, after, ran, fine, progress⟩ := on_moveModule ground h here fun d mem =>
      (shallow d mem).imp_right fun all => all m (List.mem_cons_self ..)
    have shallow' : ∀ d ∈ done ++ [segments m.path], d ≠ [] ∧
        ∀ m ∈ modules, d.length ≤ (segments m.path).length := by
      intro d mem
      rcases List.mem_append.1 mem with before | last
      · exact (shallow d before).imp_right fun all m mem => all m (List.mem_cons_of_mem _ mem)
      · rw [List.mem_singleton.1 last]
        exact ⟨ImportPath.segments_ne_nil m.path, first⟩
    have noted : Progress start old new (done ++ [segments m.path])
        (after.noted s!"relocate {m.path.str}: {outcome.text}").tree := progress.append ground _
    obtain ⟨moved, last, ranRest, fineRest, progressRest⟩ := ih usable ordered shallow' noted
    refine ⟨⟨m.path, outcome⟩ :: moved, last, ?_, ?_, ?_⟩
    · rw [moveModules, SiteM.on_bind_of_ok ran, SiteM.on_bind_of_ok (Site.on_note _ _),
        SiteM.on_bind_of_ok ranRest, SiteM.on_pure]
    · rw [List.filterMap_cons_none fine, fineRest]
    · simpa using progressRest

end Run

/-! ### From start to end -/

/-- A tree in which modules can be moved from one directory to another, where nothing is or an
earlier run has left something. -/
structure Setting (tree : Tree) (vendored thirdParty : Path) (old new : Location) : Prop where
  closed : tree.Closed
  named : ∃ name, thirdParty.Names name
  landsOld : tree.landing vendored = .ok old
  landsNew : tree.landing thirdParty = .ok new
  apart : ¬ old <+: new
  apart' : ¬ new <+: old
  there : tree.isDir vendored = true
  /-- What is in the place of the private subtree can be seen there. -/
  seen : tree.find? new = none ∨ tree.exists? thirdParty = true
  /-- Neither path leads through the contents of the two directories. -/
  around : ∀ l, l ∈ tree.passed vendored ∨ l ∈ tree.passed thirdParty →
    (old <+: l → l = old) ∧ (new <+: l → l = new)
  allowed : ∀ rel, tree.refuses (new ++ rel) = none
  device : ∀ rel rel', tree.device (old ++ rel) = tree.device (new ++ rel')
  /-- The debug log is in neither directory. -/
  quiet : ∀ log ∈ tree.opened, ¬ old <+: log ∧ ¬ new <+: log

/-- The old subtree can be removed and a new one be made in its place. -/
def Works (thirdParty : Path) (site : Site) (made : Tree) : Prop :=
  ∃ cleared, (dropOld thirdParty).on site = (.ok (), cleared) ∧
    (Tree.makeDirs thirdParty).on cleared.tree = (.ok (), made)

section Whole

variable {site : Site} {vendored thirdParty : Path} {old new : Location} {made : Tree}

/-- The other tree has nothing below a location and is the same elsewhere, the log apart. -/
structure Cleared (new : Location) (tree cleared : Tree) : Prop where
  base : cleared.base = tree.base
  mounts : cleared.mounts = tree.mounts
  refuses : cleared.refuses = tree.refuses
  opened : cleared.opened = tree.opened
  gone : ∀ rel, rel ≠ [] → cleared.find? (new ++ rel) = none
  same : ∀ l, ¬ new <+: l → tree.opened ≠ some l → cleared.find? l = tree.find? l
  directory : ∀ l, ¬ new <+: l →
    (cleared.find? l = some .directory ↔ tree.find? l = some .directory)

theorem cleared_removeDirs {tree after : Tree} (line : Text)
    (landed : tree.landing thirdParty = .ok new) (below : new ≠ [])
    (quiet : ∀ log ∈ tree.opened, ¬ new <+: log)
    (ran : (Tree.removeDirs thirdParty).on (tree.append line) = (.ok (), after)) :
    Cleared new tree after := by
  have noted := Tree.rewritten_append tree line
  obtain ⟨loc, located, -, kept⟩ := Tree.on_removeDirs_eq_ok ran
  have here : loc = new := by
    have landed' := (Tree.locate_iff_landing.1 located).1
    rw [Tree.landing_congr noted.base, landed] at landed'
    cases landed'
    rfl
  subst here
  have stays : (tree.append line).opened.filter (fun file => !file.isBelow loc) = tree.opened ∧
      (tree.append line).opened.filter (fun file => !file.isWithin loc) = tree.opened := by
    rw [noted.opened]
    cases isOpen : tree.opened with
    | none => exact ⟨rfl, rfl⟩
    | some log =>
      have outside : Location.isWithin log loc = false := by
        rw [← Bool.not_eq_true, Location.isWithin, List.isPrefixOf_iff_prefix]
        exact quiet log isOpen
      simp [Location.isBelow, outside]
  have elsewhere : ∀ l, ¬ loc <+: l → after.find? l = (tree.append line).find? l := by
    intro l out
    have cleared : ((tree.append line).clear loc).find? l = (tree.append line).find? l := by
      rw [Tree.find?_clear, if_neg fun within => out within.1]
    rcases kept with rfl | rfl
    · exact cleared
    · rw [Tree.find?_remove below, if_neg out, cleared]
  have gone : ∀ rel, rel ≠ [] → after.find? (loc ++ rel) = none := by
    intro rel proper
    have cleared : ((tree.append line).clear loc).find? (loc ++ rel) = none := by
      rw [Tree.find?_clear, if_pos ⟨List.prefix_append .., by simpa using proper⟩]
    rcases kept with rfl | rfl
    · exact cleared
    · rw [Tree.find?_remove below, if_pos (List.prefix_append ..)]
  have fields : after.base = (tree.append line).base ∧ after.mounts = (tree.append line).mounts ∧
      after.refuses = (tree.append line).refuses ∧ after.opened = tree.opened := by
    rcases kept with rfl | rfl
    · exact ⟨rfl, rfl, rfl, stays.1⟩
    · refine ⟨rfl, rfl, rfl, ?_⟩
      have outside := stays.2
      rw [noted.opened] at outside
      change Option.filter _ (Option.filter _ _) = _
      rw [stays.1, outside]
  obtain ⟨base, mounts, refuses, opened⟩ := fields
  refine ⟨base.trans noted.base, mounts.trans noted.mounts, refuses.trans noted.refuses, opened,
    gone, fun l out log => ?_, fun l out => ?_⟩
  · rw [elsewhere l out, noted.same l log]
  · rw [elsewhere l out, noted.directory]

/-- Where there is nothing, nothing has to be taken away. -/
theorem cleared_of_absent {tree : Tree} (closed : tree.Closed) (nothing : tree.find? new = none) :
    Cleared new tree tree := by
  refine ⟨rfl, rfl, rfl, rfl, fun rel proper => ?_, fun _ _ _ => rfl, fun _ _ => Iff.rfl⟩
  cases found : tree.find? (new ++ rel) with
  | none => rfl
  | some node =>
    rw [closed.directory found (List.prefix_append ..) (by simpa using proper)] at nothing
    cases nothing

/-- Dropping the old subtree takes away what is in it, and nothing else. -/
theorem cleared_of_dropOld {cleared : Site} (closed : site.tree.Closed)
    (landed : site.tree.landing thirdParty = .ok new) (below : new ≠ [])
    (seen : site.tree.find? new = none ∨ site.tree.exists? thirdParty = true)
    (quiet : ∀ log ∈ site.tree.opened, ¬ new <+: log)
    (ran : (dropOld thirdParty).on site = (.ok (), cleared)) :
    Cleared new site.tree cleared.tree := by
  rw [dropOld, SiteM.on_bind_of_ok (SiteM.on_look _ site)] at ran
  by_cases there : site.tree.exists? thirdParty = true
  · rw [if_pos there, SiteM.on_bind_of_ok (Site.on_note _ _), Site.removeDirs, SiteM.on_files,
      FileM.on_mapError] at ran
    generalize result : (Tree.removeDirs thirdParty).on
      (site.noted s!"replacing stale {thirdParty.str}").tree = outcome at ran
    obtain ⟨_ | _, after⟩ := outcome
    · cases ran
    · cases ran
      exact cleared_removeDirs _ landed below quiet result
  · rw [if_neg there] at ran
    cases ran
    exact cleared_of_absent closed (seen.resolve_right there)

/-- The tree with an empty directory in the place of the private subtree. -/
structure Fresh (tree : Tree) (thirdParty : Path) (old new : Location) (made : Tree) : Prop where
  base : made.base = tree.base
  mounts : made.mounts = tree.mounts
  refuses : made.refuses = tree.refuses
  opened : made.opened = tree.opened
  findOld : ∀ rel, made.find? (old ++ rel) = tree.find? (old ++ rel)
  findNew : ∀ rel, made.find? (new ++ rel) = if rel = [] then some .directory else none
  way : ∀ l ∈ tree.passed thirdParty, made.find? l = some .directory
  directory : ∀ l, ¬ new <+: l → tree.find? l = some .directory → made.find? l = some .directory
  file : ∀ l content, ¬ new <+: l → tree.opened ≠ some l →
    (made.find? l = some (.file content) ↔ tree.find? l = some (.file content))

theorem Setting.fresh (setting : Setting site.tree vendored thirdParty old new)
    (works : Works thirdParty site made) : Fresh site.tree thirdParty old new made := by
  obtain ⟨dropped, ranDrop, ranMake⟩ := works
  have below : new ≠ [] := by
    rintro rfl
    exact setting.apart' List.nil_prefix
  have cleared := cleared_of_dropOld setting.closed setting.landsNew below setting.seen
    (fun log isOpen => (setting.quiet log isOpen).2) ranDrop
  obtain ⟨name, named⟩ := setting.named
  obtain ⟨loc, landed, grown, paved⟩ :=
    Tree.makeDirs_eq_ok ranMake (Tree.text_ne_nil_of_landing setting.landsNew)
  rw [Tree.landing_congr cleared.base, setting.landsNew] at landed
  cases landed
  rw [Tree.passed_congr cleared.base] at grown paved
  obtain ⟨-, -, isDirectory⟩ := Tree.isDir_iff.1 setting.there
  have outside : ∀ rel, ¬ new <+: old ++ rel := by
    intro rel within
    exact Location.not_prefix_append setting.apart' setting.apart [] rel (by simpa using within)
  have unchanged : ∀ rel, dropped.tree.find? (old ++ rel) = site.tree.find? (old ++ rel) := by
    intro rel
    apply cleared.same _ (outside rel)
    intro isOpen
    exact (setting.quiet _ isOpen).1 (List.prefix_append ..)
  have top : site.tree.find? old = some .directory := by
    obtain ⟨l, located, directory⟩ := Tree.isDir_iff.1 setting.there
    have lands := (Tree.locate_iff_landing.1 located).1
    rw [setting.landsOld] at lands
    cases lands
    exact directory
  refine ⟨grown.base.trans cleared.base, grown.mounts.trans cleared.mounts,
    grown.refuses.trans cleared.refuses, grown.opened.trans cleared.opened, fun rel => ?_,
    fun rel => ?_, fun l mem => paved l (.inl mem), fun l out found => ?_,
    fun l content out log => ?_⟩
  · -- A directory is made on the way only, which has no place in the vendored tree but its top.
    rcases grown.find (old ++ rel) with same | ⟨place, free, -⟩
    · rw [same, unchanged]
    · rw [unchanged] at free
      rcases place with mem | eq
      · have atTop := (setting.around _ (.inr mem)).1 (List.prefix_append ..)
        rw [atTop, top] at free
        cases free
      · exact absurd (eq ▸ List.prefix_rfl) (outside rel)
  · by_cases atTop : rel = []
    · rw [if_pos atTop, atTop, List.append_nil]
      exact paved new (.inr rfl)
    · rw [if_neg atTop]
      rcases grown.find (new ++ rel) with same | ⟨place, -, -⟩
      · rw [same, cleared.gone rel atTop]
      · exfalso
        apply atTop
        rcases place with mem | eq
        · simpa using (setting.around _ (.inr mem)).2 (List.prefix_append ..)
        · simpa using eq
  · exact grown.directory ((cleared.directory l out).2 found)
  · rw [← cleared.same l out log]
    rcases grown.find l with same | ⟨-, free, directory⟩
    · rw [same]
    · simp [free, directory]

theorem Setting.ground (setting : Setting site.tree vendored thirdParty old new)
    (fresh : Fresh site.tree thirdParty old new made) :
    Ground made vendored thirdParty old new := by
  obtain ⟨l, located, directory⟩ := Tree.isDir_iff.1 setting.there
  obtain ⟨lands, directories⟩ := Tree.locate_iff_landing.1 located
  rw [setting.landsOld] at lands
  cases lands
  have top : made.find? old = some .directory := by
    have same := fresh.findOld []
    rw [List.append_nil] at same
    rw [same, directory]
  have top' : made.find? new = some .directory := by simpa using fresh.findNew []
  have same : ∀ l, made.device l = site.tree.device l := by
    intro l
    rw [Tree.device, fresh.mounts, Tree.device]
  refine ⟨setting.named, ?_, ?_, setting.apart, setting.apart', ?_, top, ?_, ?_, ?_, ?_⟩
  · rw [Tree.landing_congr fresh.base, setting.landsOld]
  · rw [Tree.landing_congr fresh.base, setting.landsNew]
  · intro l mem
    rw [Tree.passed_congr fresh.base, Tree.passed_congr fresh.base] at mem
    refine ⟨?_, setting.around l mem⟩
    rcases mem with mem | mem
    · by_cases within : new <+: l
      · rw [(setting.around l (.inl mem)).2 within, top']
      · exact fresh.directory l within (directories l mem)
    · exact fresh.way l mem
  · intro rel node found up part proper
    rw [fresh.findOld] at found ⊢
    apply setting.closed.directory found ((List.prefix_append_right_inj old).2 part)
    simpa using proper
  · rw [fresh.refuses]
    exact setting.allowed
  · intro rel rel'
    rw [same, same]
    exact setting.device rel rel'
  · rw [fresh.opened]
    exact setting.quiet

/-- Nothing was moved yet. -/
theorem Fresh.progress {tree : Tree} (fresh : Fresh tree thirdParty old new made) :
    Progress made old new [] made := by
  have nothing : ∀ rel, ¬ Carried made old [] rel := by simp [Carried]
  refine ⟨rfl, rfl, rfl, rfl, fun rel => ?_, fun rel => ?_, fun _ _ _ _ => rfl,
    fun _ _ _ => Iff.rfl⟩
  · rw [if_neg (nothing rel)]
  · rw [if_neg (nothing rel), fresh.findNew]
    simp [Opened]

theorem on_noteViolations {start : Tree} {done : List Location}
    (ground : Ground start vendored thirdParty old new) (violations : List (Text × Text))
    {site : Site} (h : Progress start old new done site.tree) :
    ∃ after, (noteViolations violations).on site = (.ok (), after) ∧
      Progress start old new done after.tree := by
  induction violations generalizing site with
  | nil => exact ⟨site, rfl, h⟩
  | cons pair violations ih =>
    have noted : Progress start old new done
        (site.noted s!"manifest lists {pair.1.str} before its parent {pair.2.str}").tree :=
      h.append ground _
    obtain ⟨after, ran, progress⟩ := ih noted
    refine ⟨after, ?_, progress⟩
    rw [noteViolations, SiteM.on_bind_of_ok (Site.on_note _ _), ran]

/-- The module can be moved, and each of its packages is a directory of it. -/
structure Vendored (tree : Tree) (vendored thirdParty : Path) (old : Location)
    (m : Manifest.Module) : Prop where
  usable : Usable vendored thirdParty m.path
  packages : ∀ package ∈ m.packages, Usable vendored thirdParty package ∧
    segments m.path <+: segments package ∧
    tree.find? (old ++ segments package) = some .directory

/-- Every package has left the one tree and come to the other. -/
theorem Progress.packageProblems {start tree : Tree} {done : List Location}
    (ground : Ground start vendored thirdParty old new) (h : Progress start old new done tree)
    (below : ∀ m ∈ done, m ≠ []) {m : Manifest.Module} (mem : segments m.path ∈ done)
    (listed : Vendored start vendored thirdParty old m) {package : Text}
    (memPackage : package ∈ m.packages) :
    packageProblems tree vendored thirdParty package = [] := by
  obtain ⟨⟨plain, fits, fits'⟩, part, directory⟩ := listed.packages package memPackage
  rw [Path.below_of_isPlain _ plain] at fits fits'
  have isModule : start.find? (old ++ segments m.path) = some .directory := by
    by_cases eq : segments m.path = segments package
    · rw [eq, directory]
    · exact ground.closed _ _ directory _ part eq
  have carried : Carried start old done (segments package) := ⟨_, mem, part, isModule⟩
  have left : ¬ tree.isDir (Tree.pathIn vendored (segments package)) = true := by
    rw [h.isDir_old_iff ground below plain fits]
    exact fun still => still.2 carried
  have there := h.isDir_new ground below plain fits' directory carried
  rw [Relocation.packageProblems, Path.below_of_isPlain _ plain, Path.below_of_isPlain _ plain,
    if_neg left, if_pos there, List.append_nil]

/-- All modules are moved, in whatever order the manifest lists them. -/
theorem on_relocate (ground : Ground made vendored thirdParty old new)
    (works : Works thirdParty site made) (fresh : Progress made old new [] made)
    {manifest : Manifest}
    (listed : ∀ m ∈ manifest.modules, Vendored made vendored thirdParty old m) :
    ∃ report after, (relocate manifest vendored thirdParty).on site = (.ok report, after) ∧
      Progress made old new (manifest.relocationOrder.map fun m => segments m.path) after.tree := by
  obtain ⟨cleared, ranDrop, ranMake⟩ := works
  have same : ∀ m, m ∈ manifest.relocationOrder ↔ m ∈ manifest.modules :=
    fun m => (List.mergeSort_perm ..).mem_iff
  have ordered : manifest.relocationOrder.Pairwise fun a b =>
      (segments a.path).length ≤ (segments b.path).length := by
    have sorted :=
      @List.pairwise_mergeSort _ (fun a b => decide (Manifest.depth a ≤ Manifest.depth b))
      (by intro a b c; simp only [decide_eq_true_eq]; omega)
      (by intro a b; simp only [Bool.or_eq_true, decide_eq_true_eq]; omega) manifest.modules
    exact sorted.imp fun le => of_decide_eq_true le
  obtain ⟨noted, ranNotes, progress⟩ :=
    @on_noteViolations vendored thirdParty old new made [] ground manifest.orderingViolations
      { cleared with tree := made } fresh
  obtain ⟨moved, after, ranMoves, fine, progress⟩ := on_moveModules ground
    (fun m mem => (listed m ((same m).1 mem)).usable) ordered (by simp) progress
  rw [List.nil_append] at progress
  have below : ∀ d ∈ manifest.relocationOrder.map fun m => segments m.path, d ≠ [] := by
    intro d mem
    obtain ⟨m, -, rfl⟩ := List.mem_map.1 mem
    exact ImportPath.segments_ne_nil m.path
  have complete : manifest.packages.flatMap (packageProblems after.tree vendored thirdParty) =
      [] := by
    rw [List.flatMap_eq_nil_iff]
    intro package mem
    obtain ⟨m, memModule, memPackage⟩ := List.mem_flatMap.1 mem
    exact progress.packageProblems ground below (List.mem_map_of_mem ((same m).2 memModule))
      (listed m memModule) memPackage
  refine ⟨⟨moved, manifest.orderingViolations⟩, after, ?_, progress⟩
  rw [relocate, SiteM.on_bind_of_ok ranDrop, SiteM.on_bind_of_ok (Site.on_makeDirs ranMake),
    SiteM.on_bind_of_ok ranNotes, SiteM.on_bind_of_ok ranMoves,
    SiteM.on_bind_of_ok (SiteM.on_look _ _)]
  simp [fine, complete]

/-- The location, relative to the vendored tree, is properly below a module of the manifest. -/
def Owned (manifest : Manifest) (rel : Location) : Prop :=
  ∃ m ∈ manifest.modules, segments m.path <+: rel ∧ segments m.path ≠ rel

instance (manifest : Manifest) (rel : Location) : Decidable (Owned manifest rel) :=
  inferInstanceAs (Decidable (∃ m ∈ manifest.modules, _ ∧ _))

/-- A file is carried along exactly when it lies below a module. -/
theorem carried_iff_owned (ground : Ground made vendored thirdParty old new) (manifest : Manifest)
    {rel : Location} {content : Content} (file : made.find? (old ++ rel) = some (.file content)) :
    Carried made old (manifest.relocationOrder.map fun m => segments m.path) rel ↔
      Owned manifest rel := by
  have same : ∀ m, m ∈ manifest.relocationOrder ↔ m ∈ manifest.modules :=
    fun m => (List.mergeSort_perm ..).mem_iff
  constructor
  · rintro ⟨d, mem, part, directory⟩
    obtain ⟨m, memModule, rfl⟩ := List.mem_map.1 mem
    refine ⟨m, (same m).1 memModule, part, ?_⟩
    rintro rfl
    rw [directory] at file
    cases file
  · rintro ⟨m, mem, part, proper⟩
    exact ⟨_, List.mem_map_of_mem ((same m).2 mem), part, ground.closed rel _ file _ part proper⟩

/-- Relocation succeeds. The files in the private subtree are then exactly those that lay below
a module of the manifest, and those have left the vendored tree; no other file changes, and the
order of the modules makes no difference. -/
theorem relocate_moves_exactly (setting : Setting site.tree vendored thirdParty old new)
    (works : Works thirdParty site made) {manifest : Manifest}
    (listed : ∀ m ∈ manifest.modules, Vendored site.tree vendored thirdParty old m) :
    ∃ report after, (relocate manifest vendored thirdParty).on site = (.ok report, after) ∧
      (∀ rel content, after.tree.find? (new ++ rel) = some (.file content) ↔
        Owned manifest rel ∧ site.tree.find? (old ++ rel) = some (.file content)) ∧
      (∀ rel content, after.tree.find? (old ++ rel) = some (.file content) ↔
        ¬ Owned manifest rel ∧ site.tree.find? (old ++ rel) = some (.file content)) ∧
      (∀ l content, ¬ old <+: l → ¬ new <+: l → site.tree.opened ≠ some l →
        (after.tree.find? l = some (.file content) ↔
          site.tree.find? l = some (.file content))) ∧
      ∀ other : Manifest, other.modules.Perm manifest.modules →
        ∃ report' after', (relocate other vendored thirdParty).on site = (.ok report', after') ∧
          ∀ l, site.tree.opened ≠ some l → after'.tree.find? l = after.tree.find? l := by
  have fresh := setting.fresh works
  have ground := setting.ground fresh
  have vendor : ∀ m, Vendored site.tree vendored thirdParty old m →
      Vendored made vendored thirdParty old m := by
    intro m ⟨usable, packages⟩
    refine ⟨usable, fun package mem => ?_⟩
    rw [fresh.findOld]
    exact packages package mem
  obtain ⟨report, after, ran, progress⟩ := on_relocate ground works fresh.progress
    fun m mem => vendor m (listed m mem)
  refine ⟨report, after, ran, fun rel content => ?_, fun rel content => ?_,
    fun l content out out' log => ?_, fun other perm => ?_⟩
  · rw [progress.findNew, ← fresh.findOld]
    constructor
    · intro found
      split at found
      · next carried => exact ⟨(carried_iff_owned ground manifest found).1 carried, found⟩
      · split at found <;> cases found
    · rintro ⟨owned, found⟩
      rw [if_pos ((carried_iff_owned ground manifest found).2 owned), found]
  · rw [progress.findOld, ← fresh.findOld]
    constructor
    · intro found
      split at found
      · cases found
      · next out => exact ⟨mt (carried_iff_owned ground manifest found).2 out, found⟩
    · rintro ⟨out, found⟩
      rw [if_neg (mt (carried_iff_owned ground manifest found).1 out), found]
  · have elsewhere := progress.other l out out' (by rwa [fresh.opened])
    rw [elsewhere, fresh.file l content out' log]
  · obtain ⟨report', after', ran', progress'⟩ := @on_relocate site vendored thirdParty old new made
      ground works fresh.progress other fun m mem => vendor m (listed m (perm.mem_iff.1 mem))
    refine ⟨report', after', ran', fun l log => ?_⟩
    have same : ∀ d, d ∈ other.relocationOrder.map (fun m => segments m.path) ↔
        d ∈ manifest.relocationOrder.map fun m => segments m.path := by
      intro d
      apply List.Perm.mem_iff
      apply List.Perm.map
      exact (List.mergeSort_perm ..).trans (perm.trans (List.mergeSort_perm ..).symm)
    by_cases inOld : old <+: l
    · obtain ⟨rel, rfl⟩ := inOld
      rw [progress.findOld, progress'.findOld, if_congr (carried_congr same) rfl rfl]
    by_cases inNew : new <+: l
    · obtain ⟨rel, rfl⟩ := inNew
      rw [progress.findNew, progress'.findNew,
        if_congr (carried_congr same) rfl (if_congr (opened_congr same) rfl rfl)]
    · have log' : made.opened ≠ some l := by rwa [fresh.opened]
      rw [progress.other l inOld inNew log', progress'.other l inOld inNew log']

end Whole

/-- A vendored module with another one nested in it, beside what an earlier run has left. -/
def sampleTree : Tree :=
  { Tree.empty ['/', 'w'] with
    entries := ["v", "v/a.b", "v/a.b/c", "v/a.b/c/d", "out", "out/third"].map (fun dir =>
        (segments dir.toList, .directory)) ++
      ["v/a.b/c/c.go", "v/a.b/c/d/d.go", "v/notes", "out/third/old"].map (fun file =>
        (segments file.toList, .file (Content.ofText file.toList))) }

/-- Lists the nested module first. -/
def sampleManifest : Manifest :=
  ⟨["a.b/c/d", "a.b/c"].map fun path => ⟨path.toList, none, none, false, none, [path.toList]⟩⟩

theorem sample_setting : Setting sampleTree ⟨['v']⟩ ⟨"out/third".toList⟩ [['v']]
    ["out".toList, "third".toList] where
  closed := by decide +kernel
  named := ⟨"third".toList, by decide, by decide, by decide⟩
  landsOld := rfl
  landsNew := rfl
  apart := by decide
  apart' := by decide
  there := by decide +kernel
  seen := .inr (by decide +kernel)
  around := by
    have passedOld : sampleTree.passed ⟨['v']⟩ = [[]] := rfl
    have passedNew : sampleTree.passed ⟨"out/third".toList⟩ = [[], ["out".toList]] := rfl
    rw [passedOld, passedNew]
    intro l mem
    have either : l = [] ∨ l = ["out".toList] := by simpa using mem
    rcases either with rfl | rfl <;> decide
  allowed := fun _ => rfl
  device := fun _ _ => rfl
  quiet := by intro log isOpen; cases isOpen

theorem relocate_moves_sample :
    ∃ report after, (relocate sampleManifest ⟨['v']⟩ ⟨"out/third".toList⟩).on
        (Site.start sampleTree 0) = (.ok report, after) ∧
      after.tree.find? (segments "out/third/a.b/c/d/d.go".toList) =
        some (.file (Content.ofText "v/a.b/c/d/d.go".toList)) ∧
      ∀ content, after.tree.find? (segments "out/third/old".toList) ≠ some (.file content) := by
  have works : Works ⟨"out/third".toList⟩ (Site.start sampleTree 0)
      ((Tree.makeDirs ⟨"out/third".toList⟩).on
        ((dropOld ⟨"out/third".toList⟩).on (Site.start sampleTree 0)).2.tree).2 :=
    ⟨_, rfl, rfl⟩
  have listed : ∀ m ∈ sampleManifest.modules,
      Vendored sampleTree ⟨['v']⟩ ⟨"out/third".toList⟩ [['v']] m := by
    have each : ∀ path : Text, path = "a.b/c/d".toList ∨ path = "a.b/c".toList →
        Usable ⟨['v']⟩ ⟨"out/third".toList⟩ path ∧
          sampleTree.find? ([['v']] ++ segments path) = some .directory := by
      rintro path (rfl | rfl)
      · exact ⟨⟨by decide, by decide, by decide⟩, by decide +kernel⟩
      · exact ⟨⟨by decide, by decide, by decide⟩, by decide +kernel⟩
    intro m mem
    have known : (m.path = "a.b/c/d".toList ∨ m.path = "a.b/c".toList) ∧ m.packages = [m.path] := by
      simp only [sampleManifest, List.map_cons, List.map_nil, List.mem_cons, List.not_mem_nil,
        or_false] at mem
      rcases mem with rfl | rfl
      · exact ⟨.inl rfl, rfl⟩
      · exact ⟨.inr rfl, rfl⟩
    obtain ⟨usable, directory⟩ := each m.path known.1
    refine ⟨usable, fun package memPackage => ?_⟩
    rw [known.2, List.mem_singleton] at memPackage
    rw [memPackage]
    exact ⟨usable, List.prefix_rfl, directory⟩
  obtain ⟨report, after, ran, arrived, -⟩ :=
    @relocate_moves_exactly (Site.start sampleTree 0) _ _ _ _ _ sample_setting works sampleManifest
      listed
  refine ⟨report, after, ran, ?_, fun content found => ?_⟩
  · exact (arrived (segments "a.b/c/d/d.go".toList) _).2 ⟨by decide, by decide +kernel⟩
  · exact absurd ((arrived ["old".toList] content).1 found).1 (by decide)

end Relocation

end GoSplit
