import GoSplit.Proofs.Tree.Soundness

/-!
Two trees that look the same. A view says where to look: at some places it takes in everything,
at others files only. What a program does through paths that stay in a view comes out the same in
any two trees that look the same there, and they still do afterwards, whatever is elsewhere.
-/

namespace GoSplit

namespace Tree

/-! ### Names -/

theorem mem_namesIn {tree : Tree} (sound : tree.Sound) {loc : Location} {name : Text} :
    name ∈ tree.namesIn loc ↔ ∃ node, tree.find? (loc ++ [name]) = some node := by
  rw [namesIn, List.mem_mergeSort, List.mem_filterMap]
  constructor
  · rintro ⟨⟨key, node⟩, mem, eq⟩
    dsimp only at eq
    split at eq
    · next found =>
      cases eq
      rw [List.isPrefixOf?_eq_some_iff_append_eq] at found
      exact ⟨node, sound.find?_of_mem (by rwa [found])⟩
    · cases eq
  · rintro ⟨node, found⟩
    refine ⟨(loc ++ [name], node), exists_mem_of_find? (by simp) found, ?_⟩
    have cut : loc.isPrefixOf? (loc ++ [name]) = some [name] :=
      List.isPrefixOf?_eq_some_iff_append_eq.2 rfl
    simp [cut]

theorem nodup_namesIn {tree : Tree} (sound : tree.Sound) (loc : Location) :
    (tree.namesIn loc).Nodup := by
  refine (List.mergeSort_perm ..).nodup_iff.2 (sound.distinct.filterMap _ ?_)
  rintro ⟨key, node⟩ ⟨key', node'⟩ apart name eq name' eq' rfl
  dsimp only at eq eq'
  split at eq
  · next found =>
    cases eq
    split at eq'
    · next found' =>
      cases eq'
      rw [List.isPrefixOf?_eq_some_iff_append_eq] at found found'
      exact apart (found.symm.trans found')
    · cases eq'
  · cases eq

/-- The names in a directory depend on its entries alone. -/
theorem namesIn_congr {tree tree' : Tree} (sound : tree.Sound) (sound' : tree'.Sound)
    {loc : Location} (same : ∀ name, tree'.find? (loc ++ [name]) = tree.find? (loc ++ [name])) :
    tree'.namesIn loc = tree.namesIn loc := by
  have sorted (tree : Tree) : (tree.namesIn loc).Pairwise fun a b => Text.le a b = true :=
    @List.pairwise_mergeSort _ Text.le (fun _ _ _ => Text.le_trans) Text.le_total _
  refine List.Perm.eq_of_pairwise (fun _ _ _ _ => Text.le_antisymm) (sorted tree') (sorted tree) ?_
  rw [List.perm_ext_iff_of_nodup (nodup_namesIn sound' loc) (nodup_namesIn sound loc)]
  intro name
  rw [mem_namesIn sound', mem_namesIn sound, same]

/-! ### Ways -/

theorem names?_congr {tree tree' : Tree} (base : tree'.base = tree.base) (path : Path) :
    tree'.names? path = tree.names? path := by
  simp [names?, base]

theorem way_subset_of_prefix {left names : List Text} (part : left <+: names) (current : Location) :
    way current left ⊆ way current names := by
  obtain ⟨right, rfl⟩ := part
  induction left generalizing current with
  | nil => exact List.nil_subset _
  | cons name left ih =>
    rw [List.cons_append, way, way]
    cases step current name with
    | error e => exact List.Subset.refl _
    | ok next => exact List.cons_subset_cons _ (ih next)

theorem mem_way_of_proper_prefix {current mid : Location} {left names : List Text}
    (part : left <+: names) (proper : left ≠ names) (landed : land current left = .ok mid) :
    mid ∈ way current names := by
  obtain ⟨right, rfl⟩ := part
  rw [way_append landed]
  cases right with
  | nil => exact absurd (List.append_nil left).symm proper
  | cons name right =>
    apply List.mem_append_right
    rw [way]
    exact List.mem_cons_self ..

/-- Names that do not lead up stay below the place they start from. -/
theorem prefix_of_down {names : List Text} (down : ∀ name ∈ names, name ≠ ['.', '.'])
    (current : Location) :
    (∀ l ∈ way current names, current <+: l) ∧ ∀ l, land current names = .ok l → current <+: l := by
  induction names generalizing current with
  | nil => exact ⟨by simp [way], fun l landed => by cases landed; exact List.prefix_rfl⟩
  | cons name names ih =>
    obtain ⟨here, rest⟩ := List.forall_mem_cons.1 down
    rw [way, land]
    cases stepped : step current name with
    | error e => exact ⟨by simp, by simp⟩
    | ok next =>
      have lower : current <+: next := by
        rcases step_eq_ok stepped with ⟨rfl, -⟩ | ⟨-, up⟩ | ⟨rfl, -⟩
        · exact List.prefix_rfl
        · exact absurd up here
        · exact List.prefix_append ..
      obtain ⟨passed, landed⟩ := ih rest next
      exact ⟨List.forall_mem_cons.2 ⟨List.prefix_rfl, fun l mem => lower.trans (passed l mem)⟩,
        fun l eq => lower.trans (landed l eq)⟩

theorem eq_nil_of_mem_way_of_onlyUp {names : List Text} (up : onlyUp names = true) {l : Location}
    (mem : l ∈ way [] names) : l = [] := by
  induction names with
  | nil => cases mem
  | cons name names ih =>
    rw [onlyUp, List.all_cons, Bool.and_eq_true] at up
    rw [way_cons_of_step (step_root_of_dots up.1)] at mem
    rcases List.mem_cons.1 mem with rfl | mem
    · rfl
    · exact ih up.2 mem

end Tree

/-- The path is the other one, or goes on behind it without leading up. -/
def Path.Beneath (path top : Path) : Prop :=
  path = top ∨ ∃ more, path.text = top.text ++ '/' :: more ∧
    ∀ name ∈ Text.pieces '/' more, name ≠ ['.', '.']

theorem Tree.names?_of_beneath {tree : Tree} {path top : Path} {names : List Text} {loc : Location}
    (beneath : path.Beneath top) (found : tree.names? top = some names)
    (landed : land [] names = .ok loc) (below : loc ≠ []) :
    ∃ rest, tree.names? path = some (names ++ rest) ∧ ∀ name ∈ rest, name ≠ ['.', '.'] := by
  rcases beneath with rfl | ⟨more, text, down⟩
  · exact ⟨[], by rw [found, List.append_nil], by simp⟩
  · obtain ⟨lead, rest, text', -, rfl, stays, others⟩ := exists_pieces_of_names? found landed below
    refine ⟨Text.pieces '/' more, ?_, down⟩
    have eq : path = ⟨lead ++ (rest ++ '/' :: more)⟩ := by
      rw [← List.append_assoc, ← text', ← text]
    rw [eq, others ('/' :: more), Text.pieces_append]
    exact names?_inside_eq_some_iff.2 ⟨rfl, @leadsOut_append _ _ [] loc stays landed below down⟩

/-- What goes on behind a path leads to a place at or below the one the path leads to. -/
theorem Tree.prefix_of_beneath {tree : Tree} {path top : Path} {names : List Text}
    {loc l : Location} (beneath : path.Beneath top) (found : tree.names? top = some names)
    (landed : land [] names = .ok loc) (below : loc ≠ []) (landed' : tree.landing path = .ok l) :
    loc <+: l := by
  obtain ⟨rest, found', down⟩ := names?_of_beneath beneath found landed below
  obtain ⟨names', named, land'⟩ := landing_eq_ok_iff.1 landed'
  rw [(namesOf_eq_ok_iff.1 named).2, Option.some.injEq] at found'
  subst found'
  rw [land_append landed] at land'
  exact (prefix_of_down down loc).2 l land'

/-- An entry of a directory beneath another. -/
theorem Path.Beneath.join {path top : Path} (beneath : path.Beneath top)
    (closed : ¬ (top.text.isEmpty || top.text.getLast? == some '/') = true) {name : Text}
    (isName : Tree.IsName name) : (path.join name).Beneath top := by
  have relative : name.head? ≠ some '/' := by
    intro eq
    exact isName.whole (List.mem_of_mem_head? eq)
  have last : ∀ n ∈ Text.pieces '/' name, n ≠ ['.', '.'] := by
    rw [Text.pieces_eq_singleton isName.whole]
    simpa using isName.ne_dots
  rcases beneath with rfl | ⟨more, text, down⟩
  · refine .inr ⟨name, ?_, last⟩
    rw [Path.join, if_neg relative, if_neg closed]
  · rw [Path.join, if_neg relative]
    by_cases ends : (path.text.isEmpty || path.text.getLast? == some '/') = true
    · rw [if_pos ends]
      refine .inr ⟨more ++ name, by simp [text], ?_⟩
      rw [text] at ends
      rcases List.eq_nil_or_concat more with rfl | ⟨init, c, rfl⟩
      · exact last
      · have slash : c = '/' := by simpa [List.concat_eq_append, List.getLast?_cons] using ends
        rw [List.concat_eq_append, slash] at down ⊢
        rw [List.append_assoc, List.singleton_append, Text.pieces_append]
        rw [Text.pieces_append] at down
        intro n mem
        rcases List.mem_append.1 mem with mem | mem
        · exact down n (List.mem_append_left _ mem)
        · exact last n mem
    · rw [if_neg ends]
      refine .inr ⟨more ++ '/' :: name, by simp [text], ?_⟩
      rw [Text.pieces_append]
      intro n mem
      rcases List.mem_append.1 mem with mem | mem
      · exact down n mem
      · exact last n mem

/-! ### Views -/

/-- Where two trees are compared: at some places as a whole, at others only by the files there.
The debug log, which runs its own course, is out of sight. -/
structure View where
  /-- The name of the root, from which paths start. -/
  base : Text
  all : Location → Prop
  files : Location → Prop
  /-- Where the log may be. -/
  logs : Location → Prop
  apart : ∀ l, logs l → ¬ all l ∧ ¬ files l

namespace View

/-- Two trees that look the same. -/
structure Same (view : View) (tree tree' : Tree) : Prop where
  base : tree.base = view.base
  base' : tree'.base = view.base
  mounts : tree'.mounts = tree.mounts
  refuses : tree'.refuses = tree.refuses
  sound : tree.Sound
  sound' : tree'.Sound
  find : ∀ l, view.all l → tree'.find? l = tree.find? l
  file : ∀ l content, view.files l →
    (tree'.find? l = some (.file content) ↔ tree.find? l = some (.file content))
  log : ∀ l, tree.opened = some l → view.logs l
  log' : ∀ l, tree'.opened = some l → view.logs l

/-- All that a path passes, and the place it leads to, is in view. -/
def Covers (view : View) (path : Path) : Prop :=
  ∀ names, (Tree.empty view.base).names? path = some names →
    (∀ l ∈ Tree.way [] names, view.all l) ∧ ∀ l, Tree.land [] names = .ok l → view.all l

/-- All that a path passes is in view, and so is everything at and below the place it leads to,
which is not the root. -/
def Owns (view : View) (path : Path) : Prop :=
  ∀ names, (Tree.empty view.base).names? path = some names →
    (∀ l ∈ Tree.way [] names, view.all l) ∧
      ∀ l, Tree.land [] names = .ok l → l ≠ [] ∧ ∀ l', l <+: l' → view.all l'

variable {view : View} {tree tree' : Tree} {path : Path}

theorem Owns.covers (owns : view.Owns path) : view.Covers path := by
  intro names found
  obtain ⟨passed, landed⟩ := owns names found
  exact ⟨passed, fun l eq => (landed l eq).2 l List.prefix_rfl⟩

/-- The view takes in a directory, with all below it and the way there. -/
def TakesIn (view : View) (top : Path) : Prop :=
  ∃ names loc, (Tree.empty view.base).names? top = some names ∧ Tree.land [] names = .ok loc ∧
    loc ≠ [] ∧ (∀ l ∈ Tree.way [] names, view.all l) ∧ ∀ l, loc <+: l → view.all l

/-- A place that a path leads to, when all of it is in view. -/
theorem takesIn_of_landing {loc : Location} (base : tree.base = view.base)
    (landed : tree.landing path = .ok loc) (below : loc ≠ [])
    (passed : ∀ l ∈ tree.passed path, view.all l) (deep : ∀ l, loc <+: l → view.all l) :
    view.TakesIn path := by
  obtain ⟨names, found, land⟩ := Tree.landing_eq_ok_iff.1 landed
  rw [Tree.passed_of_namesOf found] at passed
  refine ⟨names, loc, ?_, land, below, passed, deep⟩
  rw [Tree.names?_congr base.symm]
  exact (Tree.namesOf_eq_ok_iff.1 found).2

theorem TakesIn.pathIn {rel : Location} (h : view.TakesIn path) (nonempty : rel ≠ [])
    (names : ∀ name ∈ rel, Tree.IsName name) : view.TakesIn (Tree.pathIn path rel) := by
  obtain ⟨parts, loc, found, landed, below, passed, deep⟩ := h
  obtain ⟨front, found', landed', before⟩ := Tree.exists_names?_pathIn found landed below nonempty
    fun name mem => (names name mem).isWord
  refine ⟨front ++ rel, loc ++ rel, found', ?_, ?_, fun l mem => ?_, fun l within => ?_⟩
  · rw [Tree.land_append landed', Tree.land_of_isName names]
  · simp [nonempty]
  · rw [Tree.way_append landed', List.mem_append] at mem
    rcases mem with mem | mem
    · exact passed l (before l mem)
    · exact deep l ((Tree.prefix_of_down (fun name mem => (names name mem).ne_dots) loc).1 l mem)
  · exact deep l ((List.prefix_append ..).trans within)

theorem TakesIn.owns {top : Path} (h : view.TakesIn top) (beneath : path.Beneath top) :
    view.Owns path := by
  obtain ⟨names, loc, found, landed, below, passed, deep⟩ := h
  obtain ⟨rest, found', down⟩ := Tree.names?_of_beneath beneath found landed below
  intro names' eq
  rw [found'] at eq
  cases eq
  obtain ⟨lower, lands⟩ := Tree.prefix_of_down down loc
  rw [Tree.way_append landed, Tree.land_append landed]
  refine ⟨fun l mem => ?_, fun l eq => ?_⟩
  · rcases List.mem_append.1 mem with mem | mem
    · exact passed l mem
    · exact deep l (lower l mem)
  · have within := lands l eq
    refine ⟨?_, fun l' further => deep l' (within.trans further)⟩
    rintro rfl
    exact below (List.prefix_nil.1 within)

/-- The directories above a path, as they are written, are in view with the path. -/
theorem TakesIn.covers_above {top q : Path} (h : view.TakesIn top) (beneath : path.Beneath top)
    (above : q.Above path) : view.Covers q := by
  have covers := (h.owns beneath).covers
  obtain ⟨names, loc, found, landed, below, passed, deep⟩ := h
  obtain ⟨rest, found', -⟩ := Tree.names?_of_beneath beneath found landed below
  obtain ⟨way, lands⟩ := covers _ found'
  have root : view.all [] := by
    cases names with
    | nil =>
      cases landed
      exact absurd rfl below
    | cons name names =>
      apply passed
      rw [Tree.way]
      exact List.mem_cons_self ..
  intro front foundQ
  rcases Tree.names_of_above above foundQ found' with part | up
  · refine ⟨fun l mem => way l (Tree.way_subset_of_prefix part [] mem), fun l eq => ?_⟩
    by_cases whole : front = names ++ rest
    · exact lands l (whole ▸ eq)
    · exact way l (Tree.mem_way_of_proper_prefix part whole eq)
  · refine ⟨fun l mem => ?_, fun l eq => ?_⟩
    · rwa [Tree.eq_nil_of_mem_way_of_onlyUp up mem]
    · rw [Tree.land_of_onlyUp up] at eq
      cases eq
      exact root

namespace Same

/-- Trees that look the same do so in a view that takes in less. -/
theorem mono {view' : View} (h : view.Same tree tree') (base : view'.base = view.base)
    (all : ∀ l, view'.all l → view.all l) (files : ∀ l, view'.files l → view.files l)
    (logs : ∀ l, view.logs l → view'.logs l) : view'.Same tree tree' :=
  { h with
    base := h.base.trans base.symm
    base' := h.base'.trans base.symm
    find := fun l mem => h.find l (all l mem)
    file := fun l content mem => h.file l content (files l mem)
    log := fun l isOpen => logs l (h.log l isOpen)
    log' := fun l isOpen => logs l (h.log' l isOpen) }

theorem names? (h : view.Same tree tree') :
    tree.names? path = (Tree.empty view.base).names? path :=
  Tree.names?_congr h.base path

theorem passed (h : view.Same tree tree') (covers : view.Covers path) :
    ∀ l ∈ tree.passed path, tree'.find? l = tree.find? l := by
  intro l mem
  unfold Tree.passed at mem
  split at mem
  · next names found =>
    have named := (Tree.namesOf_eq_ok_iff.1 found).2
    rw [h.names?] at named
    exact h.find l ((covers names named).1 l mem)
  · cases mem

theorem all_of_landing (h : view.Same tree tree') (covers : view.Covers path) {loc : Location}
    (landed : tree.landing path = .ok loc) : view.all loc := by
  obtain ⟨names, found, land⟩ := Tree.landing_eq_ok_iff.1 landed
  have named := (Tree.namesOf_eq_ok_iff.1 found).2
  rw [h.names?] at named
  exact (covers names named).2 loc land

theorem owns_of_landing (h : view.Same tree tree') (owns : view.Owns path) {loc : Location}
    (landed : tree.landing path = .ok loc) : loc ≠ [] ∧ ∀ l, loc <+: l → view.all l := by
  obtain ⟨names, found, land⟩ := Tree.landing_eq_ok_iff.1 landed
  have named := (Tree.namesOf_eq_ok_iff.1 found).2
  rw [h.names?] at named
  exact (owns names named).2 loc land

/-! ### Looking -/

theorem locate (h : view.Same tree tree') (covers : view.Covers path) :
    tree'.locate path = tree.locate path :=
  Tree.locate_congr (h.base'.trans h.base.symm) (h.passed covers)

theorem lookup (h : view.Same tree tree') (covers : view.Covers path) :
    tree'.lookup path = tree.lookup path := by
  rw [Tree.lookup, Tree.lookup, h.locate covers]
  cases located : tree.locate path with
  | error e => rfl
  | ok loc =>
    dsimp only
    rw [h.find loc (h.all_of_landing covers (Tree.locate_iff_landing.1 located).1)]

theorem exists? (h : view.Same tree tree') (covers : view.Covers path) :
    tree'.exists? path = tree.exists? path := by
  rw [Tree.exists?, Tree.exists?, h.lookup covers]

theorem isDir (h : view.Same tree tree') (covers : view.Covers path) :
    tree'.isDir path = tree.isDir path := by
  rw [Tree.isDir, Tree.isDir, h.lookup covers]

theorem readBytes (h : view.Same tree tree') (covers : view.Covers path) :
    tree'.readBytes path = tree.readBytes path := by
  rw [Tree.readBytes, Tree.readBytes, h.lookup covers]

theorem namesAt (h : view.Same tree tree') (owns : view.Owns path) :
    tree'.namesAt path = tree.namesAt path := by
  rw [Tree.namesAt, Tree.namesAt, h.lookup owns.covers]
  cases looked : tree.lookup path with
  | error e => rfl
  | ok entry =>
    obtain ⟨loc, _ | content⟩ := entry
    · have landed := (Tree.locate_iff_landing.1 (Tree.lookup_eq_ok_iff.1 looked).1).1
      obtain ⟨-, deep⟩ := h.owns_of_landing owns landed
      have same := Tree.namesIn_congr h.sound h.sound' fun name =>
        h.find (loc ++ [name]) (deep _ (List.prefix_append ..))
      simp only [same]
    · rfl

theorem enter (h : view.Same tree tree') (covers : view.Covers path) :
    tree'.enter path = tree.enter path := by
  have look := h.passed covers
  unfold Tree.enter
  rw [Tree.namesOf_congr (h.base'.trans h.base.symm)]
  cases found : tree.namesOf path with
  | error e => rfl
  | ok names =>
    rw [Tree.passed_of_namesOf found] at look
    have part : (names.reverse.dropWhile List.isEmpty).reverse <+: names := by
      rw [← List.reverse_suffix, List.reverse_reverse]
      exact List.dropWhile_suffix _
    simp only [Bind.bind, Except.bind]
    generalize (names.reverse.dropWhile List.isEmpty).reverse = kept at part
    have init := (List.dropLast_prefix kept).trans part
    rw [Tree.follow_congr fun l mem => look l (Tree.way_subset_of_prefix init [] mem)]
    cases followed : tree.follow [] kept.dropLast with
    | error e => rfl
    | ok dir =>
      have same : tree'.find? dir = tree.find? dir := by
        by_cases whole : kept.dropLast = names
        · -- Only the path of the root has no name that is looked up.
          have none : kept = [] := by
            have size := part.length_le
            rw [← whole, List.length_dropLast] at size
            by_contra some
            have := List.length_pos_iff.2 some
            omega
          rw [none] at followed
          cases followed
          rw [Tree.find?_nil, Tree.find?_nil]
        · exact look dir (Tree.mem_way_of_proper_prefix init whole
            (Tree.follow_eq_ok_iff.1 followed).1)
      simp only [Tree.notADirectory, same]

end Same

end View

end GoSplit
