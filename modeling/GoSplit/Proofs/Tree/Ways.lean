import GoSplit.Proofs.Tree.Paths
import GoSplit.Tree.Move

/-!
Where names lead, apart from what a tree has there. The way of a path is the list of
locations at which a name is looked up; a path can be followed exactly when all of them
are directories, and two trees that agree on them follow the path alike.
-/

namespace GoSplit.Tree

/-- A name that an entry can have. -/
structure IsName (name : Text) : Prop where
  visible : name ≠ []
  plain : isDots name = false
  whole : '/' ∉ name
  short : name.byteLength ≤ 255

instance (name : Text) : Decidable (IsName name) :=
  decidable_of_iff (name ≠ [] ∧ isDots name = false ∧ '/' ∉ name ∧ name.byteLength ≤ 255)
    ⟨fun ⟨visible, plain, whole, short⟩ => ⟨visible, plain, whole, short⟩,
      fun ⟨visible, plain, whole, short⟩ => ⟨visible, plain, whole, short⟩⟩

/-- A name as it can stand in a path, be it too long for an entry or not. -/
structure IsWord (name : Text) : Prop where
  visible : name ≠ []
  plain : isDots name = false
  whole : '/' ∉ name

theorem IsName.isWord {name : Text} (h : IsName name) : IsWord name := ⟨h.visible, h.plain, h.whole⟩

theorem IsWord.ne_dots {name : Text} (h : IsWord name) : name ≠ ['.', '.'] := by
  rintro rfl
  exact absurd h.plain (by decide)

theorem IsWord.ne_dot {name : Text} (h : IsWord name) : name ≠ ['.'] := by
  rintro rfl
  exact absurd h.plain (by decide)

theorem IsName.ne_dot {name : Text} (h : IsName name) : name ≠ ['.'] := h.isWord.ne_dot

theorem IsName.ne_dots {name : Text} (h : IsName name) : name ≠ ['.', '.'] := h.isWord.ne_dots

theorem IsName.step {name : Text} (h : IsName name) (loc : Location) :
    step loc name = .ok (loc ++ [name]) := by
  rw [Tree.step, if_neg (by simp [h.visible, h.ne_dot]), if_neg h.ne_dots,
    if_neg (Nat.not_lt.2 h.short)]

@[simp] theorem step_nil (loc : Location) : step loc [] = .ok loc := by simp [step]

/-! ### Names -/

/-- Where names lead, whatever is there. -/
def land (current : Location) : List Text → Except IoError Location
  | [] => .ok current
  | name :: rest =>
    match step current name with
    | .error e => .error e
    | .ok next => land next rest

/-- The locations at which names are looked up. -/
def way (current : Location) : List Text → List Location
  | [] => []
  | name :: rest =>
    current ::
      match step current name with
      | .error _ => []
      | .ok next => way next rest

theorem land_cons_eq_ok_iff {current loc : Location} {name : Text} {rest : List Text} :
    land current (name :: rest) = .ok loc ↔
      ∃ next, step current name = .ok next ∧ land next rest = .ok loc := by
  rw [land]
  cases step current name <;> simp

theorem way_cons_of_step {current next : Location} {name : Text} (h : step current name = .ok next)
    (rest : List Text) : way current (name :: rest) = current :: way next rest := by
  rw [way, h]

/-- Names can be followed when every location on their way is a directory. -/
theorem follow_eq_ok_iff {tree : Tree} {current loc : Location} {names : List Text} :
    tree.follow current names = .ok loc ↔
      land current names = .ok loc ∧ ∀ l ∈ way current names, tree.find? l = some .directory := by
  induction names generalizing current with
  | nil => simp [follow, land, way]
  | cons name names ih =>
    rw [follow_cons_eq_ok_iff, land_cons_eq_ok_iff]
    constructor
    · rintro ⟨directory, next, stepped, followed⟩
      obtain ⟨landed, rest⟩ := ih.1 followed
      refine ⟨⟨next, stepped, landed⟩, ?_⟩
      rw [way_cons_of_step stepped]
      exact List.forall_mem_cons.2 ⟨directory, rest⟩
    · rintro ⟨⟨next, stepped, landed⟩, all⟩
      rw [way_cons_of_step stepped] at all
      obtain ⟨directory, rest⟩ := List.forall_mem_cons.1 all
      exact ⟨directory, next, stepped, ih.2 ⟨landed, rest⟩⟩

theorem follow_congr {tree tree' : Tree} {current : Location} {names : List Text}
    (same : ∀ l ∈ way current names, tree'.find? l = tree.find? l) :
    tree'.follow current names = tree.follow current names := by
  induction names generalizing current with
  | nil => rfl
  | cons name names ih =>
    rw [way] at same
    obtain ⟨here, rest⟩ := List.forall_mem_cons.1 same
    rw [follow, follow, notADirectory, notADirectory, here]
    cases stepped : step current name with
    | error e => rfl
    | ok next =>
      rw [stepped] at rest
      simp only [ih rest]

theorem land_append {current mid : Location} {left : List Text} (h : land current left = .ok mid)
    (right : List Text) : land current (left ++ right) = land mid right := by
  induction left generalizing current with
  | nil =>
    cases h
    rfl
  | cons name left ih =>
    obtain ⟨next, stepped, landed⟩ := land_cons_eq_ok_iff.1 h
    rw [List.cons_append, land, stepped]
    exact ih landed

theorem way_append {current mid : Location} {left : List Text} (h : land current left = .ok mid)
    (right : List Text) : way current (left ++ right) = way current left ++ way mid right := by
  induction left generalizing current with
  | nil =>
    cases h
    rfl
  | cons name left ih =>
    obtain ⟨next, stepped, landed⟩ := land_cons_eq_ok_iff.1 h
    rw [List.cons_append, way_cons_of_step stepped, way_cons_of_step stepped, ih landed,
      List.cons_append]

theorem exists_land_of_append {current loc : Location} {left right : List Text}
    (h : land current (left ++ right) = .ok loc) :
    ∃ mid, land current left = .ok mid ∧ land mid right = .ok loc := by
  induction left generalizing current with
  | nil => exact ⟨current, rfl, h⟩
  | cons name left ih =>
    obtain ⟨next, stepped, landed⟩ := land_cons_eq_ok_iff.1 h
    obtain ⟨mid, before, after⟩ := ih landed
    exact ⟨mid, land_cons_eq_ok_iff.2 ⟨next, stepped, before⟩, after⟩

/-- Where a part of the names leads is on the way of them all. -/
theorem mem_way_of_prefix {current loc mid : Location} {left names : List Text}
    (h : land current names = .ok loc) (part : left <+: names)
    (landed : land current left = .ok mid) :
    mid ∈ way current names ∨ mid = loc := by
  obtain ⟨right, rfl⟩ := part
  rw [land_append landed] at h
  rw [way_append landed]
  cases right with
  | nil =>
    cases h
    exact .inr rfl
  | cons name right =>
    refine .inl (List.mem_append_right _ ?_)
    rw [way]
    exact List.mem_cons_self ..

theorem land_of_isName {names : List Text} (proper : ∀ name ∈ names, IsName name)
    (current : Location) : land current names = .ok (current ++ names) := by
  induction names generalizing current with
  | nil => simp [land]
  | cons name names ih =>
    obtain ⟨here, rest⟩ := List.forall_mem_cons.1 proper
    refine land_cons_eq_ok_iff.2 ⟨_, here.step current, ?_⟩
    rw [ih rest, List.append_assoc, List.singleton_append]

/-- Proper names pass every location above the one they lead to. -/
theorem mem_way_of_isName {names : List Text} (proper : ∀ name ∈ names, IsName name)
    {current l : Location} (mem : l ∈ way current names) :
    ∃ up, up <+: names ∧ up ≠ names ∧ l = current ++ up := by
  induction names generalizing current with
  | nil => simp [way] at mem
  | cons name names ih =>
    obtain ⟨here, rest⟩ := List.forall_mem_cons.1 proper
    rw [way_cons_of_step (here.step current), List.mem_cons] at mem
    rcases mem with rfl | mem
    · exact ⟨[], List.nil_prefix, by simp, by simp⟩
    · obtain ⟨up, part, ne, rfl⟩ := ih rest mem
      exact ⟨name :: up, by simpa using part, by simpa using ne, by simp⟩

theorem step_root_of_dots {name : Text} (dots : (name.isEmpty || isDots name) = true) :
    step [] name = .ok [] := by
  rw [Bool.or_eq_true, List.isEmpty_iff, isDots, Bool.or_eq_true, decide_eq_true_eq,
    decide_eq_true_eq] at dots
  rcases dots with rfl | rfl | rfl <;> rfl

/-- Names that only lead up stay at the root. -/
theorem land_of_onlyUp {names : List Text} (up : onlyUp names = true) :
    land [] names = .ok [] := by
  induction names with
  | nil => rfl
  | cons name names ih =>
    rw [onlyUp, List.all_cons, Bool.and_eq_true] at up
    rw [land, step_root_of_dots up.1]
    exact ih up.2

theorem leadsOut_cons (depth : Nat) (name : Text) (rest : List Text) :
    leadsOut depth (name :: rest) =
      if name = [] ∨ name = ['.'] then leadsOut depth rest
      else if name = ['.', '.'] then
        match depth with
        | 0 => !onlyUp rest
        | depth + 1 => leadsOut depth rest
      else leadsOut (depth + 1) rest := by
  cases depth <;> rfl

/-- Names that do not lead out of the root do not do so at first. -/
theorem leadsOut_of_append {names rest : List Text} {depth : Nat}
    (inside : leadsOut depth (names ++ rest) = false) : leadsOut depth names = false := by
  induction names generalizing depth with
  | nil => rfl
  | cons name names ih =>
    rw [List.cons_append, leadsOut_cons] at inside
    rw [leadsOut_cons]
    by_cases still : name = [] ∨ name = ['.']
    · rw [if_pos still] at inside ⊢
      exact ih inside
    rw [if_neg still] at inside ⊢
    by_cases up : name = ['.', '.']
    · rw [if_pos up] at inside ⊢
      cases depth with
      | zero =>
        rw [Bool.not_eq_false', onlyUp, List.all_append, Bool.and_eq_true] at inside
        simpa [onlyUp] using inside.1
      | succ depth => exact ih inside
    · rw [if_neg up] at inside ⊢
      exact ih inside

/-- Names that lead below the root, and do not lead out of it on the way, can be continued. -/
theorem leadsOut_append {names rest : List Text} {current loc : Location}
    (inside : leadsOut current.length names = false) (landed : land current names = .ok loc)
    (below : loc ≠ []) (down : ∀ name ∈ rest, name ≠ ['.', '.']) :
    leadsOut current.length (names ++ rest) = false := by
  induction names generalizing current with
  | nil =>
    have downwards : ∀ depth, leadsOut depth rest = false := by
      clear inside landed
      induction rest with
      | nil => exact fun depth => rfl
      | cons name rest ih =>
        obtain ⟨here, after⟩ := List.forall_mem_cons.1 down
        intro depth
        rw [leadsOut_cons, if_neg here]
        split
        · exact ih after depth
        · exact ih after (depth + 1)
    exact downwards _
  | cons name names ih =>
    obtain ⟨next, stepped, landed⟩ := land_cons_eq_ok_iff.1 landed
    rw [List.cons_append, leadsOut_cons]
    rw [leadsOut_cons] at inside
    by_cases still : name = [] ∨ name = ['.']
    · rw [if_pos still] at inside ⊢
      rw [step, if_pos still] at stepped
      cases stepped
      exact ih inside landed
    rw [if_neg still] at inside ⊢
    by_cases up : name = ['.', '.']
    · rw [if_pos up] at inside ⊢
      rw [step, if_neg still, if_pos up] at stepped
      cases stepped
      cases size : current.length with
      | zero =>
        -- At the root only names that stay there are left, which lead nowhere below it.
        rw [size] at inside
        rw [List.length_eq_zero_iff.1 size, List.dropLast_nil] at landed
        rw [land_of_onlyUp (by simpa using inside)] at landed
        cases landed
        exact absurd rfl below
      | succ depth =>
        have shorter : current.dropLast.length = depth := by
          rw [List.length_dropLast, size, Nat.add_sub_cancel]
        rw [size] at inside
        rw [← shorter] at inside ⊢
        exact ih inside landed
    · rw [if_neg up] at inside ⊢
      rw [step, if_neg still, if_neg up] at stepped
      split at stepped
      · cases stepped
      · cases stepped
        have longer : (current ++ [name]).length = current.length + 1 := by simp
        rw [← longer] at inside ⊢
        exact ih inside landed

end GoSplit.Tree

namespace GoSplit.Path

/-- The path can be handed to the operating system. -/
structure Fits (p : Path) : Prop where
  whole : p.hasZero = false
  short : p.text.byteLength < byteLimit

instance (p : Path) : Decidable p.Fits :=
  decidable_of_iff (p.hasZero = false ∧ p.text.byteLength < byteLimit)
    ⟨fun ⟨whole, short⟩ => ⟨whole, short⟩, fun ⟨whole, short⟩ => ⟨whole, short⟩⟩

theorem Fits.of_append {p q : Path} {more : Text} (fits : q.Fits) (text : q.text = p.text ++ more) :
    p.Fits := by
  obtain ⟨whole, short⟩ := fits
  rw [hasZero, text, Text.hasZero, List.any_append, Bool.or_eq_false_iff] at whole
  rw [text, Text.byteLength_append] at short
  exact ⟨whole.1, by omega⟩

/-- What stands between a path and the names that go on behind it. -/
def gap (p : Path) : Text := if p.text.isEmpty || p.text.getLast? == some '/' then [] else ['/']

end GoSplit.Path

namespace GoSplit.Tree

/-! ### Paths -/

/-- Where a path leads, whatever is there. -/
def landing (tree : Tree) (path : Path) : Except IoError Location :=
  (tree.namesOf path).bind (land [])

/-- The locations a path passes. -/
def passed (tree : Tree) (path : Path) : List Location :=
  match tree.namesOf path with
  | .ok names => way [] names
  | .error _ => []

theorem landing_eq_ok_iff {tree : Tree} {path : Path} {loc : Location} :
    tree.landing path = .ok loc ↔
      ∃ names, tree.namesOf path = .ok names ∧ land [] names = .ok loc := by
  unfold landing
  cases tree.namesOf path <;> simp [Except.bind]

/-- A path leads to its own last name. -/
theorem getLast?_of_landing {tree : Tree} {path : Path} {name : Text} {loc : Location}
    (named : path.Names name) (below : loc ≠ []) (landed : tree.landing path = .ok loc) :
    loc.getLast? = some name := by
  obtain ⟨names, found, land⟩ := landing_eq_ok_iff.1 landed
  rcases getLast?_of_namesOf named found with rfl | ⟨init, rfl⟩
  · cases land
    exact absurd rfl below
  · obtain ⟨dir, -, last⟩ := exists_land_of_append land
    obtain ⟨next, stepped, rest⟩ := land_cons_eq_ok_iff.1 last
    cases rest
    rw [step_of_names named] at stepped
    split at stepped
    · cases stepped
    · cases stepped
      simp

theorem passed_of_namesOf {tree : Tree} {path : Path} {names : List Text}
    (h : tree.namesOf path = .ok names) : tree.passed path = way [] names := by
  rw [passed, h]

theorem landing_congr {tree tree' : Tree} (base : tree'.base = tree.base) (path : Path) :
    tree'.landing path = tree.landing path := by
  rw [landing, landing, namesOf_congr base]

theorem passed_congr {tree tree' : Tree} (base : tree'.base = tree.base) (path : Path) :
    tree'.passed path = tree.passed path := by
  rw [passed, passed, namesOf_congr base]

/-- A path can be followed when it passes directories only. -/
theorem locate_iff_landing {tree : Tree} {path : Path} {loc : Location} :
    tree.locate path = .ok loc ↔
      tree.landing path = .ok loc ∧ ∀ l ∈ tree.passed path, tree.find? l = some .directory := by
  unfold locate landing passed
  cases tree.namesOf path with
  | error e => simp [Except.bind]
  | ok names => exact follow_eq_ok_iff

theorem locate_congr {tree tree' : Tree} (base : tree'.base = tree.base) {path : Path}
    (same : ∀ l ∈ tree.passed path, tree'.find? l = tree.find? l) :
    tree'.locate path = tree.locate path := by
  unfold passed at same
  rw [locate, locate, namesOf_congr base]
  cases found : tree.namesOf path with
  | error e => rfl
  | ok names =>
    rw [found] at same
    exact follow_congr same

theorem isDir_iff {tree : Tree} {path : Path} :
    tree.isDir path = true ↔
      ∃ loc, tree.locate path = .ok loc ∧ tree.find? loc = some .directory := by
  constructor
  · intro h
    unfold isDir at h
    split at h
    · next loc found => exact ⟨loc, lookup_eq_ok_iff.1 found⟩
    · cases h
  · rintro ⟨loc, found⟩
    rw [isDir, lookup_eq_ok_iff.2 found]

theorem exists?_iff {tree : Tree} {path : Path} :
    tree.exists? path = true ↔
      ∃ loc node, tree.locate path = .ok loc ∧ tree.find? loc = some node := by
  unfold exists?
  constructor
  · intro h
    cases found : tree.lookup path with
    | error e => simp [found, Except.isOk, Except.toBool] at h
    | ok entry => exact ⟨entry.1, entry.2, lookup_eq_ok_iff.1 found⟩
  · rintro ⟨loc, node, found⟩
    rw [lookup_eq_ok_iff.2 found]
    rfl

theorem names?_inside_eq_some_iff {names found : List Text} :
    names?.inside names = some found ↔ names = found ∧ leadsOut 0 names = false := by
  unfold names?.inside
  cases leadsOut 0 names <;> simp

/-- The names of a path that leads below the root are the pieces of its text, behind the name
of the root if the path is absolute; so are those of a path with other names in their place. -/
theorem exists_pieces_of_names? {tree : Tree} {path : Path} {names : List Text} {loc : Location}
    (found : tree.names? path = some names) (landed : land [] names = .ok loc) (below : loc ≠ []) :
    ∃ lead rest, path.text = lead ++ rest ∧ rest ≠ [] ∧ names = Text.pieces '/' rest ∧
      leadsOut 0 names = false ∧
      ∀ more, tree.names? ⟨lead ++ (rest ++ more)⟩ =
        names?.inside (Text.pieces '/' (rest ++ more)) := by
  have atRoot : names ≠ [] := by
    rintro rfl
    cases landed
    exact below rfl
  unfold names? at found
  split at found
  · cases found
  next visible =>
  split at found
  · next absolute =>
    split at found
    · cases found
      exact absurd rfl atRoot
    · next rest eq =>
      have whole := List.isPrefixOf?_eq_some_iff_append_eq.1 eq
      obtain ⟨rfl, stays⟩ := names?_inside_eq_some_iff.1 found
      have more_names : rest ≠ [] := by
        rintro rfl
        cases landed
        exact below rfl
      refine ⟨tree.base ++ ['/'], rest, by simp [← whole], more_names, rfl, stays, fun more => ?_⟩
      have found' : tree.base.isPrefixOf? (tree.base ++ ['/'] ++ (rest ++ more)) =
          some ('/' :: (rest ++ more)) := by
        rw [List.isPrefixOf?_eq_some_iff_append_eq]
        simp
      have absolute' : Path.isAbsolute ⟨tree.base ++ ['/'] ++ (rest ++ more)⟩ = true := by
        rw [Path.isAbsolute, ← whole] at absolute
        rw [Path.isAbsolute]
        cases base : tree.base with
        | nil => simp
        | cons c cs =>
          rw [base] at absolute
          simpa using absolute
      rw [names?, if_neg (by simp), if_pos absolute', found']
      rfl
    · split at found
      · cases found
        exact absurd rfl atRoot
      · cases found
  · next relative =>
    obtain ⟨rfl, stays⟩ := names?_inside_eq_some_iff.1 found
    have nonempty : path.text ≠ [] := by simpa using visible
    refine ⟨[], path.text, rfl, nonempty, rfl, stays, fun more => ?_⟩
    have relative' : ¬ Path.isAbsolute ⟨[] ++ (path.text ++ more)⟩ = true := by
      rw [Path.isAbsolute] at relative ⊢
      obtain ⟨c, cs, eq⟩ := List.exists_cons_of_ne_nil nonempty
      rw [eq] at relative ⊢
      simpa using relative
    rw [names?, if_neg (by simp [nonempty]), if_neg relative', List.nil_append]

theorem namesOf_eq_ok_iff {tree : Tree} {path : Path} {names : List Text} :
    tree.namesOf path = .ok names ↔ path.Fits ∧ tree.names? path = some names := by
  constructor
  · intro h
    unfold namesOf at h
    split at h
    · cases h
    next whole =>
    split at h
    · cases h
    next short =>
    split at h
    · next found =>
      cases h
      exact ⟨⟨by simpa using whole, by omega⟩, found⟩
    · cases h
  · rintro ⟨fits, found⟩
    rw [namesOf, if_neg (by simp [fits.whole]), if_neg (Nat.not_le.2 fits.short), found]

end GoSplit.Tree

namespace GoSplit.Location

variable {rel : Location}

theorem pieces_text (nonempty : rel ≠ []) (words : ∀ name ∈ rel, Tree.IsWord name) :
    Text.pieces '/' rel.text = rel :=
  Text.pieces_joinWith nonempty fun name mem => (words name mem).whole

theorem head?_text (words : ∀ name ∈ rel, Tree.IsWord name) : rel.text.head? ≠ some '/' :=
  Text.head?_joinWith (fun name mem => (words name mem).visible)
    fun name mem => (words name mem).whole

end GoSplit.Location

namespace GoSplit.Tree

/-! ### Entries below a path -/

theorem pathIn_eq_gap {path : Path} {rel : Location} (nonempty : rel ≠ [])
    (words : ∀ name ∈ rel, IsWord name) :
    pathIn path rel = ⟨path.text ++ (path.gap ++ rel.text)⟩ := by
  rw [pathIn, if_neg (by simpa using nonempty), Path.join, if_neg (Location.head?_text words),
    Path.gap]
  split <;> rfl

theorem pathIn_of_empty {path : Path} {rel : Location} (empty : path.text = [])
    (nonempty : rel ≠ []) (words : ∀ name ∈ rel, IsWord name) : pathIn path rel = ⟨rel.text⟩ := by
  rw [pathIn_eq_gap nonempty words, Path.gap, empty]
  rfl

theorem pathIn_text {path : Path} {rel : Location} (nonempty : rel ≠ [])
    (proper : ∀ name ∈ rel, IsWord name) :
    ∃ more, (pathIn path rel).text = path.text ++ more ∧
      ∀ lead rest, path.text = lead ++ rest → rest ≠ [] → ∃ front,
        Text.pieces '/' (rest ++ more) = front ++ rel ∧
          (Text.pieces '/' rest = front ∨ Text.pieces '/' rest = front ++ [[]]) := by
  refine ⟨path.gap ++ rel.text, by rw [pathIn_eq_gap nonempty proper], fun lead rest eq named => ?_⟩
  rw [Path.gap]
  split
  · next ends =>
    have last : rest.getLast? = some '/' := by
      rw [eq, List.getLast?_append, List.getLast?_eq_some_getLast named] at ends
      simpa [named, List.getLast?_eq_some_getLast named] using ends
    obtain ⟨before, rfl⟩ := List.getLast?_eq_some_iff.1 last
    refine ⟨Text.pieces '/' before, ?_, .inr ?_⟩
    · rw [List.nil_append, List.append_assoc, List.singleton_append, Text.pieces_append,
        Location.pieces_text nonempty proper]
    · rw [Text.pieces_append]
      rfl
  · refine ⟨Text.pieces '/' rest, ?_, .inl rfl⟩
    rw [List.singleton_append, Text.pieces_append, Location.pieces_text nonempty proper]

/-- The names of an entry below a directory are those of the directory and then its own. A
slash at the end of the directory adds no name. -/
theorem exists_names?_pathIn {tree : Tree} {path : Path} {names : List Text} {loc rel : Location}
    (found : tree.names? path = some names) (landed : land [] names = .ok loc) (below : loc ≠ [])
    (nonempty : rel ≠ []) (proper : ∀ name ∈ rel, IsWord name) :
    ∃ front, tree.names? (pathIn path rel) = some (front ++ rel) ∧ land [] front = .ok loc ∧
      ∀ l ∈ way [] front, l ∈ way [] names := by
  obtain ⟨lead, rest, text, named, rfl, stays, others⟩ := exists_pieces_of_names? found landed below
  obtain ⟨more, extended, cut⟩ := @pathIn_text path rel nonempty proper
  obtain ⟨front, pieces, same⟩ := cut lead rest text named
  have landed' : land [] front = .ok loc := by
    rcases same with eq | eq
    · rwa [eq] at landed
    · rw [eq] at landed
      obtain ⟨mid, before, after⟩ := exists_land_of_append landed
      obtain ⟨next, stepped, ends⟩ := land_cons_eq_ok_iff.1 after
      rw [step_nil] at stepped
      cases stepped
      cases ends
      exact before
  have stays' : leadsOut 0 front = false := by
    rcases same with eq | eq
    · rwa [eq] at stays
    · rw [eq] at stays
      exact leadsOut_of_append stays
  refine ⟨front, ?_, landed', ?_⟩
  · have eq : pathIn path rel = ⟨lead ++ (rest ++ more)⟩ := by
      rw [← List.append_assoc, ← text, ← extended]
    rw [eq, others more, pieces, names?.inside,
      if_neg (Bool.not_eq_true _ ▸ @leadsOut_append front rel [] loc stays' landed' below
        fun name mem => (proper name mem).ne_dots)]
  · intro l mem
    rcases same with eq | eq
    · rwa [eq]
    · rw [eq, way_append landed']
      exact List.mem_append_left _ mem

theorem exists_namesOf_pathIn {tree : Tree} {path : Path} {loc rel : Location}
    (landed : tree.landing path = .ok loc) (below : loc ≠ []) (nonempty : rel ≠ [])
    (proper : ∀ name ∈ rel, IsName name) (fits : (pathIn path rel).Fits) :
    ∃ front, tree.namesOf (pathIn path rel) = .ok (front ++ rel) ∧ land [] front = .ok loc ∧
      ∀ l ∈ way [] front, l ∈ tree.passed path := by
  obtain ⟨names, found, landed⟩ := landing_eq_ok_iff.1 landed
  obtain ⟨front, found', landed', passed⟩ :=
    exists_names?_pathIn (namesOf_eq_ok_iff.1 found).2 landed
    below nonempty fun name mem => (proper name mem).isWord
  refine ⟨front, namesOf_eq_ok_iff.2 ⟨fits, found'⟩, landed', ?_⟩
  rwa [passed_of_namesOf found]

/-- Words that lead somewhere are short enough for entries. -/
theorem isName_of_land {names : List Text} {current loc : Location}
    (words : ∀ name ∈ names, IsWord name) (landed : land current names = .ok loc) :
    ∀ name ∈ names, IsName name := by
  induction names generalizing current with
  | nil => simp
  | cons name names ih =>
    obtain ⟨here, rest⟩ := List.forall_mem_cons.1 words
    obtain ⟨next, stepped, landed⟩ := land_cons_eq_ok_iff.1 landed
    refine List.forall_mem_cons.2 ⟨⟨here.visible, here.plain, here.whole, ?_⟩, ih rest landed⟩
    by_contra long
    rw [step, if_neg (by simp [here.visible, here.ne_dot]), if_neg here.ne_dots,
      if_pos (by omega)] at stepped
    cases stepped

/-- Where a path below a directory leads, if it leads anywhere. -/
theorem isName_of_landing_pathIn {tree : Tree} {path : Path} {loc rel l : Location}
    (landed : tree.landing path = .ok loc) (below : loc ≠ []) (proper : ∀ name ∈ rel, IsWord name)
    (landed' : tree.landing (pathIn path rel) = .ok l) :
    l = loc ++ rel ∧ ∀ name ∈ rel, IsName name := by
  by_cases empty : rel = []
  · rw [empty] at landed'
    have same : tree.landing path = .ok l := landed'
    rw [landed] at same
    cases same
    rw [empty]
    exact ⟨(List.append_nil loc).symm, by simp⟩
  obtain ⟨names, found, land⟩ := landing_eq_ok_iff.1 landed
  obtain ⟨names', found', land'⟩ := landing_eq_ok_iff.1 landed'
  obtain ⟨front, extended, before, -⟩ :=
    exists_names?_pathIn (namesOf_eq_ok_iff.1 found).2 land below empty proper
  rw [(namesOf_eq_ok_iff.1 found').2] at extended
  cases extended
  rw [land_append before] at land'
  have names := isName_of_land proper land'
  rw [land_of_isName names] at land'
  cases land'
  exact ⟨rfl, names⟩

theorem landing_pathIn {tree : Tree} {path : Path} {loc rel : Location}
    (landed : tree.landing path = .ok loc) (below : loc ≠ [])
    (proper : ∀ name ∈ rel, IsName name) (fits : (pathIn path rel).Fits) :
    tree.landing (pathIn path rel) = .ok (loc ++ rel) := by
  by_cases empty : rel = []
  · rw [empty, List.append_nil]
    exact landed
  obtain ⟨front, found, before, -⟩ := exists_namesOf_pathIn landed below empty proper fits
  refine landing_eq_ok_iff.2 ⟨_, found, ?_⟩
  rw [land_append before, land_of_isName proper]

theorem mem_passed_pathIn {tree : Tree} {path : Path} {loc rel l : Location}
    (landed : tree.landing path = .ok loc) (below : loc ≠ [])
    (proper : ∀ name ∈ rel, IsName name) (fits : (pathIn path rel).Fits)
    (mem : l ∈ tree.passed (pathIn path rel)) :
    l ∈ tree.passed path ∨ ∃ up, up <+: rel ∧ up ≠ rel ∧ l = loc ++ up := by
  by_cases empty : rel = []
  · rw [empty] at mem
    exact .inl mem
  obtain ⟨front, found, before, same⟩ := exists_namesOf_pathIn landed below empty proper fits
  rw [passed_of_namesOf found, way_append before, List.mem_append] at mem
  exact mem.imp (same l) (mem_way_of_isName proper)

theorem text_ne_nil_of_landing {tree : Tree} {path : Path} {loc : Location}
    (landed : tree.landing path = .ok loc) : path.text ≠ [] := by
  obtain ⟨names, found, -⟩ := landing_eq_ok_iff.1 landed
  intro empty
  have none_found := (namesOf_eq_ok_iff.1 found).2
  rw [names?, empty] at none_found
  cases none_found

/-- A path below a directory ends in the last name on the way. -/
theorem names_pathIn {path : Path} {rel : Location} {name : Text}
    (words : ∀ name ∈ rel, IsWord name) (last : rel.getLast? = some name) :
    (pathIn path rel).Names name := by
  have nonempty : rel ≠ [] := by
    rintro rfl
    cases last
  have isWord := words name (List.mem_of_getLast? last)
  refine ⟨?_, isWord.visible, isWord.plain⟩
  by_cases visible : path.text = []
  · rw [pathIn_of_empty visible nonempty words, Location.pieces_text nonempty words, last]
  · obtain ⟨more, extended, cut⟩ := @pathIn_text path rel nonempty words
    obtain ⟨front, pieces, -⟩ := cut [] path.text rfl visible
    rw [extended, pieces, List.getLast?_append, last]
    rfl

end GoSplit.Tree

namespace GoSplit.Path

/-! ### Directories above -/

theorem trimTail_suffix (t : Text) : parent.trimTail t <:+ t := by
  fun_induction parent.trimTail t with
  | case1 => exact List.suffix_rfl
  | case2 rest _ ih => exact ih.trans (List.suffix_cons ..)
  | case3 rest ih => exact ih.trans (List.suffix_cons ..)
  | case4 => exact List.suffix_rfl

/-- Trimming a path at its end stops behind a slash, or at the one that is the whole path. -/
theorem trimTail_cut (t : Text) :
    parent.trimTail t = t ∨ parent.trimTail t = ['/'] ∨
      ∃ cut, t = cut ++ '/' :: parent.trimTail t := by
  fun_induction parent.trimTail t with
  | case1 => exact .inl rfl
  | case2 rest _ ih =>
    refine .inr (ih.elim (fun eq => .inr ⟨[], by rw [eq]; rfl⟩) (Or.imp_right ?_))
    rintro ⟨cut, eq⟩
    exact ⟨'/' :: cut, congrArg _ eq⟩
  | case3 rest ih =>
    refine .inr (ih.elim (fun eq => .inl ?_) (Or.imp_right ?_))
    · cases rest with
      | nil => rfl
      | cons c rest =>
        have shorter := (trimTail_suffix (c :: rest)).length_le
        rw [parent.trimTail.eq_2 _ (by simp)] at eq
        rw [eq] at shorter
        simp only [List.length_cons] at shorter
        omega
    · rintro ⟨cut, eq⟩
      exact ⟨'.' :: cut, congrArg _ eq⟩
  | case4 => exact .inl rfl

/-- A path goes on behind its parent with a slash. -/
theorem parent_text {p q : Path} (h : p.parent = some q) :
    q.text = [] ∨ q.text = ['/'] ∨ ∃ more, p.text = q.text ++ '/' :: more := by
  obtain ⟨tail, whole⟩ := trimTail_suffix p.text.reverse
  unfold parent at h
  dsimp only at h
  generalize parent.trimTail p.text.reverse = trimmed at h whole
  split at h
  · cases h
  · cases h
  split at h
  · cases h
    exact .inl rfl
  next slash =>
  have slash : trimmed.dropWhile (· != '/') ≠ [] := by simpa using slash
  obtain ⟨c, rest, eq⟩ := List.exists_cons_of_ne_nil slash
  have isSlash : c = '/' := by
    have head := List.head?_dropWhile_not (· != '/') trimmed
    rw [eq] at head
    simpa using head
  subst isSlash
  have cut : trimmed = trimmed.takeWhile (· != '/') ++ '/' :: rest := by
    rw [← eq, List.takeWhile_append_dropWhile]
  rw [eq] at h
  generalize trimmed.takeWhile (· != '/') = last at cut
  subst cut
  have text : p.text = rest.reverse ++ '/' :: (tail ++ last).reverse := by
    rw [← List.reverse_reverse p.text, ← whole]
    simp
  rw [text]
  cases rest with
  | nil =>
    cases h
    exact .inr (.inl rfl)
  | cons c rest =>
    rw [parent.trimTail.eq_2 _ (by simp)] at h
    have more := trimTail_cut (c :: rest)
    generalize parent.trimTail (c :: rest) = kept at h more
    cases h
    by_cases empty : kept.isEmpty = true
    · exact .inr (.inl (by rw [if_pos empty]))
    rw [if_neg empty]
    rcases more with rfl | rfl | ⟨more, eq⟩
    · exact .inr (.inr ⟨_, rfl⟩)
    · exact .inr (.inl rfl)
    · refine .inr (.inr ⟨more.reverse ++ '/' :: (tail ++ last).reverse, ?_⟩)
      rw [eq]
      simp

/-- Nothing is trimmed behind a proper name. -/
theorem trimTail_of_name {name t : Text} (visible : name ≠ []) (plain : name ≠ ['.'])
    (whole : '/' ∉ name) :
    parent.trimTail (name.reverse ++ t) = name.reverse ++ t := by
  have whole : '/' ∉ name.reverse := by simpa using whole
  have plain : name.reverse ≠ ['.'] :=
    fun eq => plain (by rw [← List.reverse_reverse name, eq]; rfl)
  have visible : name.reverse ≠ [] := by simpa using visible
  generalize name.reverse = word at whole plain visible
  obtain ⟨c, cs, rfl⟩ := List.exists_cons_of_ne_nil visible
  rw [List.mem_cons, not_or] at whole
  rw [List.cons_append]
  unfold parent.trimTail
  split
  · next eq => exact absurd (List.cons.inj eq).1.symm whole.1
  · next eq => exact absurd (List.cons.inj eq).1.symm whole.1
  · next eq =>
    obtain ⟨rfl, more⟩ := List.cons.inj eq
    cases cs with
    | nil => exact absurd rfl plain
    | cons d ds =>
      have slash : d = '/' := (List.cons.inj more).1
      exact absurd (slash ▸ List.mem_cons_self ..) whole.2
  · rfl

/-- The parent of a name below a path that ends in a name itself. -/
theorem parent_of_names {p : Path} {last name : Text} (named : p.Names last)
    (isName : Tree.IsName name) : parent ⟨p.text ++ '/' :: name⟩ = some p := by
  have plain : '/' ∉ last := Text.sep_not_mem_pieces '/' p.text _ (List.mem_of_getLast? named.1)
  obtain ⟨before, text, -⟩ := Text.exists_append_of_getLast? named.1
  have kept : parent.trimTail p.text.reverse = p.text.reverse := by
    rw [text, List.reverse_append]
    exact trimTail_of_name named.2.1 named.ne_dot plain
  have visible : p.text.reverse ≠ [] := by
    rw [text]
    simp [named.2.1]
  have trimmed : parent.trimTail (p.text ++ '/' :: name).reverse =
      name.reverse ++ '/' :: p.text.reverse := by
    have back : (p.text ++ '/' :: name).reverse = name.reverse ++ '/' :: p.text.reverse := by simp
    rw [back]
    exact trimTail_of_name isName.visible isName.ne_dot isName.whole
  have rest : (name.reverse ++ '/' :: p.text.reverse).dropWhile (· != '/') =
      '/' :: p.text.reverse := by
    have whole : ∀ c ∈ name.reverse, (c != '/') = true := by
      intro c mem
      rw [bne_iff_ne]
      rintro rfl
      exact isName.whole (by simpa using mem)
    rw [List.dropWhile_append_of_pos whole]
    rfl
  unfold parent
  dsimp only
  rw [trimmed]
  split
  · next eq => simp at eq
  · next eq =>
    have first := congrArg List.length eq
    simp only [List.length_append, List.length_reverse, List.length_cons, List.length_nil] at first
    exact absurd (List.length_eq_zero_iff.1 (by omega)) isName.visible
  · rw [rest, if_neg (by simp), parent.trimTail.eq_2 _ visible, kept,
      if_neg (by simpa using visible), List.reverse_reverse]

/-- The path is the other one or one of the directories above it, as they are written. -/
def Above (q p : Path) : Prop :=
  q = p ∨ q.text = [] ∨ q.text = ['/'] ∨ ∃ more, p.text = q.text ++ '/' :: more

theorem Above.parent {p q r : Path} (h : q.Above p) (up : q.parent = some r) : r.Above p := by
  rcases h with rfl | empty | root | ⟨more, text⟩
  · exact .inr (parent_text up)
  · rw [show q = ⟨[]⟩ by rw [← empty]] at up
    cases up
  · rw [show q = ⟨['/']⟩ by rw [← root]] at up
    cases up
  · refine .inr ((parent_text up).imp_right (Or.imp_right ?_))
    rintro ⟨more', text'⟩
    exact ⟨more' ++ '/' :: more, by rw [text, text']; simp⟩

theorem Above.trans {p q r : Path} (h : r.Above q) (h' : q.Above p) : r.Above p := by
  rcases h with rfl | empty | root | ⟨more, text⟩
  · exact h'
  · exact .inr (.inl empty)
  · exact .inr (.inr (.inl root))
  · rcases h' with rfl | empty | root | ⟨more', text'⟩
    · exact .inr (.inr (.inr ⟨more, text⟩))
    · simp [empty] at text
    · have front : r.text = [] := by
        have size := congrArg List.length text
        simp only [root, List.length_append, List.length_cons, List.length_nil] at size
        exact List.length_eq_zero_iff.1 (by omega)
      exact .inr (.inl front)
    · exact .inr (.inr (.inr ⟨more ++ '/' :: more', by rw [text', text]; simp⟩))

end GoSplit.Path

namespace GoSplit.Tree

/-- The names of a directory above a path are the first names of the path, unless they lead
nowhere but to the root. -/
theorem names_of_above {tree : Tree} {q p : Path} {names names' : List Text} (above : q.Above p)
    (found : tree.names? q = some names) (found' : tree.names? p = some names') :
    names <+: names' ∨ onlyUp names = true := by
  rcases above with rfl | empty | root | ⟨more, text⟩
  · rw [found] at found'
    cases found'
    exact .inl List.prefix_rfl
  · rw [names?, empty] at found
    cases found
  · rw [names?, Path.isAbsolute, root, if_neg (by simp), if_pos (by simp)] at found
    split at found
    · cases found
      exact .inl List.nil_prefix
    · next rest eq =>
      have whole := List.isPrefixOf?_eq_some_iff_append_eq.1 eq
      have only : rest = [] := by
        have size := congrArg List.length whole
        simp only [List.length_append, List.length_cons, List.length_nil] at size
        exact List.length_eq_zero_iff.1 (by omega)
      rw [only] at found
      cases (names?_inside_eq_some_iff.1 found).1
      exact .inr rfl
    · cases found
      exact .inl List.nil_prefix
  · have visible : q.text ≠ [] := by
      intro empty
      rw [names?, empty] at found
      cases found
    have absolute : p.isAbsolute = q.isAbsolute := by
      obtain ⟨c, cs, eq⟩ := List.exists_cons_of_ne_nil visible
      rw [Path.isAbsolute, Path.isAbsolute, text, eq]
      rfl
    rw [names?, if_neg (by simpa using visible)] at found
    rw [names?, if_neg (by simp [text]), absolute] at found'
    split at found
    · next isAbsolute =>
      rw [if_pos isAbsolute] at found'
      split at found
      · cases found
        exact .inl List.nil_prefix
      · next rest eq =>
        have whole := List.isPrefixOf?_eq_some_iff_append_eq.1 eq
        have extended : tree.base.isPrefixOf? p.text = some ('/' :: (rest ++ '/' :: more)) := by
          rw [List.isPrefixOf?_eq_some_iff_append_eq, text, ← whole]
          simp
        rw [extended] at found'
        cases (names?_inside_eq_some_iff.1 found).1
        cases (names?_inside_eq_some_iff.1 found').1
        rw [Text.pieces_append]
        exact .inl (List.prefix_append ..)
      · split at found
        · cases found
          exact .inl List.nil_prefix
        · cases found
    · next isRelative =>
      rw [if_neg isRelative] at found'
      cases (names?_inside_eq_some_iff.1 found).1
      cases (names?_inside_eq_some_iff.1 found').1
      rw [text, Text.pieces_append]
      exact .inl (List.prefix_append ..)

end GoSplit.Tree
