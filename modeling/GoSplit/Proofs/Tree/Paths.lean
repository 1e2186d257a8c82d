import GoSplit.Proofs.Tree.Entries

/-!
Where paths lead. A path is followed through directories only, so it leads to the same
place in every tree that has those directories. A path that ends in a proper name leads to
an entry of that name, and a file can be written there unless a directory is in its place.
-/

namespace GoSplit

namespace Path

/-- The path ends in a proper name. -/
def Names (p : Path) (name : Text) : Prop :=
  (Text.pieces '/' p.text).getLast? = some name ∧ name ≠ [] ∧ Tree.isDots name = false

theorem Names.ne_dot {p : Path} {name : Text} (h : p.Names name) : name ≠ ['.'] := by
  rintro rfl
  exact absurd h.2.2 (by decide)

theorem Names.ne_dots {p : Path} {name : Text} (h : p.Names name) : name ≠ ['.', '.'] := by
  rintro rfl
  exact absurd h.2.2 (by decide)

theorem Names.fileName {p : Path} {name : Text} (h : p.Names name) : p.fileName = some name := by
  have kept : ((Text.pieces '/' p.text).filter fun s => !s.isEmpty && s != ['.']).getLast? =
      some name := by
    obtain ⟨before, eq⟩ := List.getLast?_eq_some_iff.1 h.1
    rw [eq, List.filter_append]
    simp [h.2.1, h.ne_dot]
  have last : p.components.getLast? = some name := by
    unfold components
    split
    · simp [List.getLast?_cons, kept]
    · dsimp only
      split
      · simp [List.getLast?_cons, kept]
      · exact kept
  have slash : name ≠ ['/'] := by
    rintro rfl
    exact Text.sep_not_mem_pieces '/' p.text _ (List.mem_of_getLast? h.1) (by simp)
  simp [Path.fileName, last, h.ne_dot, h.ne_dots, slash]

theorem Names.endsInSlash {p : Path} {name : Text} (h : p.Names name) : p.endsInSlash = false := by
  rw [Path.endsInSlash, beq_eq_false_iff_ne]
  intro last
  obtain ⟨before, eq⟩ := List.getLast?_eq_some_iff.1 last
  have found := h.1
  rw [eq, Text.pieces_append, List.getLast?_append, Text.pieces] at found
  exact h.2.1 (by simpa using found.symm)

theorem Names.closed {p : Path} {name : Text} (h : p.Names name) :
    ¬ (p.text.isEmpty || p.text.getLast? == some '/') = true := by
  have slash := h.endsInSlash
  rw [Path.endsInSlash] at slash
  rw [slash, Bool.or_false, List.isEmpty_iff]
  intro empty
  have last := h.1
  rw [empty] at last
  cases last
  exact h.2.1 rfl

end Path

namespace Tree

theorem notADirectory_eq_none {tree : Tree} {loc : Location} :
    tree.notADirectory loc = none ↔ tree.find? loc = some .directory := by
  unfold notADirectory
  cases tree.find? loc with
  | none => simp
  | some node => cases node <;> simp

theorem step_of_names {p : Path} {name : Text} (h : p.Names name) (dir : Location) :
    step dir name = if 255 < name.byteLength then .error .nameTooLong else .ok (dir ++ [name]) := by
  rw [step, if_neg (by simp [h.2.1, h.ne_dot]), if_neg h.ne_dots]

/-! ### Following names -/

theorem follow_append (tree : Tree) (current : Location) (left right : List Text) :
    tree.follow current (left ++ right) =
      (tree.follow current left).bind fun loc => tree.follow loc right := by
  induction left generalizing current with
  | nil => rfl
  | cons name left ih =>
    rw [List.cons_append, follow, follow]
    cases tree.notADirectory current with
    | some e => rfl
    | none =>
      cases step current name with
      | error e => rfl
      | ok next => exact ih next

theorem follow_cons_eq_ok_iff {tree : Tree} {current loc : Location} {name : Text}
    {rest : List Text} :
    tree.follow current (name :: rest) = .ok loc ↔
      tree.find? current = some .directory ∧
        ∃ next, step current name = .ok next ∧ tree.follow next rest = .ok loc := by
  rw [follow, ← notADirectory_eq_none]
  cases tree.notADirectory current with
  | some e => simp
  | none => cases step current name <;> simp

/-- Names lead to the same place when no directory has gone. -/
theorem follow_mono {tree tree' : Tree}
    (kept : ∀ loc, tree.find? loc = some .directory → tree'.find? loc = some .directory)
    {names : List Text} {current loc : Location} (h : tree.follow current names = .ok loc) :
    tree'.follow current names = .ok loc := by
  induction names generalizing current with
  | nil => exact h
  | cons name names ih =>
    obtain ⟨directory, next, stepped, followed⟩ := follow_cons_eq_ok_iff.1 h
    exact follow_cons_eq_ok_iff.2 ⟨kept _ directory, next, stepped, ih followed⟩

/-- The entries above the place that names lead to are directories. -/
theorem directory_of_follow {tree : Tree} {names : List Text} {current loc above : Location}
    (h : tree.follow current names = .ok loc) (part : above <+: loc) (proper : above ≠ loc)
    (start : ∀ up, up <+: current → up ≠ current → tree.find? up = some .directory) :
    tree.find? above = some .directory := by
  induction names generalizing current with
  | nil =>
    cases h
    exact start above part proper
  | cons name names ih =>
    obtain ⟨directory, next, stepped, followed⟩ := follow_cons_eq_ok_iff.1 h
    have known : ∀ up, up <+: current → tree.find? up = some .directory := by
      intro up part
      by_cases eq : up = current
      · rw [eq, directory]
      · exact start up part eq
    refine ih followed fun up part ne => ?_
    unfold step at stepped
    split at stepped
    · cases stepped
      exact known up part
    split at stepped
    · cases stepped
      exact known up (part.trans (List.dropLast_prefix _))
    split at stepped
    · cases stepped
    · cases stepped
      exact known up ((List.prefix_concat_iff.1 part).resolve_left ne)

/-- Removing what is no directory blocks no way that leads elsewhere. -/
theorem follow_remove {tree : Tree} {gone : Location} (nonempty : gone ≠ [])
    (file : tree.find? gone ≠ some .directory) {names : List Text} {current loc : Location}
    (outside : ¬ gone <+: current) (h : tree.follow current names = .ok loc) :
    (tree.remove gone).follow current names = .ok loc := by
  induction names generalizing current with
  | nil => exact h
  | cons name names ih =>
    obtain ⟨directory, next, stepped, followed⟩ := follow_cons_eq_ok_iff.1 h
    have still : (tree.remove gone).find? current = some .directory := by
      rw [find?_remove nonempty, if_neg outside, directory]
    refine follow_cons_eq_ok_iff.2 ⟨still, next, stepped, ?_⟩
    by_cases inside : gone <+: next
    · -- The way comes upon the entry itself, and cannot lead on from there.
      have reached : next = gone := by
        unfold step at stepped
        split at stepped
        · cases stepped
          exact absurd inside outside
        split at stepped
        · cases stepped
          exact absurd (inside.trans (List.dropLast_prefix _)) outside
        split at stepped
        · cases stepped
        · cases stepped
          exact ((List.prefix_concat_iff.1 inside).resolve_right outside).symm
      subst reached
      cases names with
      | nil => exact followed
      | cons name' names =>
        exact absurd (follow_cons_eq_ok_iff.1 followed).1 file
    · exact ih inside followed

/-! ### Following paths -/

theorem namesOf_congr {tree tree' : Tree} (base : tree'.base = tree.base) (path : Path) :
    tree'.namesOf path = tree.namesOf path := by
  simp [namesOf, names?, base]

/-- The names of a path end like the path, unless it is that of the root. -/
theorem getLast?_of_namesOf {tree : Tree} {path : Path} {name : Text} {names : List Text}
    (named : path.Names name) (h : tree.namesOf path = .ok names) :
    names = [] ∨ ∃ init, names = init ++ [name] := by
  have inside : ∀ t, (Text.pieces '/' t).getLast? = some name →
      ∀ ns, names?.inside (Text.pieces '/' t) = some ns → ∃ init, ns = init ++ [name] := by
    intro t last ns found
    unfold names?.inside at found
    split at found
    · cases found
    · cases found
      exact List.getLast?_eq_some_iff.1 last
  unfold namesOf at h
  split at h
  · cases h
  split at h
  · cases h
  split at h
  · next found =>
    cases h
    unfold names? at found
    split at found
    · cases found
    split at found
    · split at found
      · cases found
        exact .inl rfl
      · next rest eq =>
        have whole := List.isPrefixOf?_eq_some_iff_append_eq.1 eq
        have last := named.1
        rw [← whole, Text.pieces_append, List.getLast?_append] at last
        refine .inr (inside rest ?_ _ found)
        rwa [List.getLast?_eq_some_getLast (Text.pieces_ne_nil '/' rest), Option.some_or,
          ← List.getLast?_eq_some_getLast (Text.pieces_ne_nil '/' rest)] at last
      · split at found
        · next up =>
          rw [onlyUp, List.all_eq_true] at up
          have dots := up name (List.mem_of_getLast? named.1)
          simp [named.2.1, named.2.2] at dots
        · cases found
    · exact .inr (inside path.text named.1 _ found)
  · cases h

theorem locate_eq_ok_iff {tree : Tree} {path : Path} {loc : Location} :
    tree.locate path = .ok loc ↔
      ∃ names, tree.namesOf path = .ok names ∧ tree.follow [] names = .ok loc := by
  unfold locate
  cases tree.namesOf path <;> simp [Except.bind]

theorem lookup_eq_ok_iff {tree : Tree} {path : Path} {loc : Location} {node : Node} :
    tree.lookup path = .ok (loc, node) ↔
      tree.locate path = .ok loc ∧ tree.find? loc = some node := by
  unfold lookup
  cases tree.locate path with
  | error e => simp
  | ok there =>
    dsimp only
    constructor
    · intro h
      split at h
      · next node' found =>
        cases h
        exact ⟨rfl, found⟩
      · cases h
    · rintro ⟨here, found⟩
      cases here
      rw [found]

/-- A path that ends in a name leads to an entry of that name in a directory. -/
theorem locate_eq_ok_iff_of_names {tree : Tree} {path : Path} {name : Text} {loc : Location}
    (named : path.Names name) (below : loc ≠ []) :
    tree.locate path = .ok loc ↔
      ∃ init dir, tree.namesOf path = .ok (init ++ [name]) ∧ tree.follow [] init = .ok dir ∧
        tree.find? dir = some .directory ∧ step dir name = .ok loc := by
  rw [locate_eq_ok_iff]
  constructor
  · rintro ⟨names, found, followed⟩
    rcases getLast?_of_namesOf named found with rfl | ⟨init, rfl⟩
    · cases followed
      exact absurd rfl below
    · rw [follow_append] at followed
      cases reached : tree.follow [] init with
      | error e => simp [reached, Except.bind] at followed
      | ok dir =>
        simp only [reached, Except.bind] at followed
        obtain ⟨directory, next, stepped, rest⟩ := follow_cons_eq_ok_iff.1 followed
        cases rest
        exact ⟨init, dir, found, reached, directory, stepped⟩
  · rintro ⟨init, dir, found, reached, directory, stepped⟩
    refine ⟨_, found, ?_⟩
    rw [follow_append, reached]
    exact follow_cons_eq_ok_iff.2 ⟨directory, _, stepped, rfl⟩

end Tree

end GoSplit
