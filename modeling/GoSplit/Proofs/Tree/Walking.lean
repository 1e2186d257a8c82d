import GoSplit.Proofs.Tree.Directories
import GoSplit.Shading.Tree
import Mathlib.Data.List.Nodup

/-!
Which files a walk finds. The Go files below a directory are listed once each, by paths that
lead to different places; a tree in which only the contents of files differ is walked alike.
-/

namespace GoSplit

namespace Location

theorem le_trans : ∀ {a b c : Location}, le a b = true → le b c = true → le a c = true
  | [], _, _, _, _ => rfl
  | _ :: _, [], _, h, _ => by cases h
  | _ :: _, _ :: _, [], _, h => by cases h
  | a :: as, b :: bs, c :: cs, h, h' => by
    by_cases first : a = b
    · subst first
      by_cases second : a = c
      · subst second
        simp only [le, if_true] at h h' ⊢
        exact le_trans h h'
      · simpa [le, second] using h'
    · have less : Text.le a b = true := by simpa [le, first] using h
      by_cases second : b = c
      · subst second
        simpa [le, first] using less
      · have less' : Text.le b c = true := by simpa [le, second] using h'
        have apart : a ≠ c := by
          rintro rfl
          exact first (Text.le_antisymm less less')
        simpa [le, apart] using Text.le_trans less less'

theorem le_total : ∀ a b : Location, (le a b || le b a) = true
  | [], _ => by simp [le]
  | _ :: _, [] => by simp [le]
  | a :: as, b :: bs => by
    by_cases same : a = b
    · subst same
      simpa [le] using le_total as bs
    · simpa [le, same, Ne.symm same] using Text.le_total a b

theorem le_antisymm : ∀ {a b : Location}, le a b = true → le b a = true → a = b
  | [], [], _, _ => rfl
  | [], _ :: _, _, h => by cases h
  | _ :: _, [], h, _ => by cases h
  | a :: as, b :: bs, h, h' => by
    by_cases same : a = b
    · subst same
      simp only [le, if_true] at h h'
      rw [le_antisymm h h']
    · simp only [le, if_neg same, if_neg (Ne.symm same)] at h h'
      exact absurd (Text.le_antisymm h h') same

end Location

namespace Tree

/-- A tree as an operating system keeps it: names are proper, no two entries are in one place,
and every entry lies in a directory. -/
structure Sound (tree : Tree) : Prop where
  closed : tree.Closed
  below : ∀ e ∈ tree.entries, e.1 ≠ []
  names : ∀ e ∈ tree.entries, ∀ name ∈ e.1, IsName name
  distinct : tree.entries.Pairwise fun a b => a.1 ≠ b.1

instance (tree : Tree) : Decidable tree.Sound :=
  decidable_of_iff (tree.Closed ∧ (∀ e ∈ tree.entries, e.1 ≠ []) ∧
      (∀ e ∈ tree.entries, ∀ name ∈ e.1, IsName name) ∧
      tree.entries.Pairwise fun a b => a.1 ≠ b.1)
    ⟨fun ⟨closed, below, names, distinct⟩ => ⟨closed, below, names, distinct⟩,
      fun ⟨closed, below, names, distinct⟩ => ⟨closed, below, names, distinct⟩⟩

namespace Sound

variable {tree : Tree} {loc : Location} {node : Node}

theorem find?_of_mem (sound : tree.Sound) (mem : (loc, node) ∈ tree.entries) :
    tree.find? loc = some node := by
  rw [find?_of_ne (sound.below _ mem), Option.map_eq_some_iff]
  refine ⟨(loc, node), ?_, rfl⟩
  have distinct := sound.distinct
  generalize tree.entries = entries at mem distinct
  induction entries with
  | nil => simp at mem
  | cons e entries ih =>
    obtain ⟨first, rest⟩ := List.pairwise_cons.1 distinct
    rcases List.mem_cons.1 mem with rfl | mem
    · exact List.find?_cons_of_pos (by simp)
    · have apart : e.1 ≠ loc := first _ mem
      rw [List.find?_cons_of_neg (by simpa using apart)]
      exact ih mem rest

theorem mem_iff (sound : tree.Sound) (below : loc ≠ []) :
    (loc, node) ∈ tree.entries ↔ tree.find? loc = some node :=
  ⟨sound.find?_of_mem, exists_mem_of_find? below⟩

theorem isName (sound : tree.Sound) {rel : Location} (found : tree.find? (loc ++ rel) = some node)
    {name : Text} (mem : name ∈ rel) : IsName name := by
  have below : loc ++ rel ≠ [] := by
    intro empty
    rw [(List.append_eq_nil_iff.1 empty).2] at mem
    cases mem
  exact sound.names _ (exists_mem_of_find? below found) name (List.mem_append_right _ mem)

/-- The names of an entry are proper. -/
theorem isName_of_find? (sound : tree.Sound) {node : Node} (found : tree.find? loc = some node) :
    ∀ name ∈ loc, IsName name := by
  intro name mem
  exact @Sound.isName tree [] node sound loc found name mem

/-- An entry in a directory; it takes the place of no directory, unless it is one. -/
theorem put (sound : tree.Sound) {node : Node} (below : loc ≠ [])
    (above : tree.find? loc.dropLast = some .directory) (names : ∀ name ∈ loc, IsName name)
    (free : node = .directory ∨ tree.find? loc ≠ some .directory) : (tree.put loc node).Sound := by
  have kept : ∀ l, tree.find? l = some .directory →
      (tree.put loc node).find? l = some .directory := by
    intro l directory
    rw [find?_put below]
    split
    · next eq =>
      rcases free with rfl | free
      · rfl
      · exact absurd (eq ▸ directory) free
    · exact directory
  have sub : ∀ e ∈ tree.entries.filter fun e => !e.1.same loc, e ∈ tree.entries :=
    fun e mem => (List.mem_filter.1 mem).1
  refine ⟨List.forall_mem_cons.2 ⟨kept _ above, fun e mem => ?_⟩,
    List.forall_mem_cons.2 ⟨below, fun e mem => sound.below e (sub e mem)⟩,
    List.forall_mem_cons.2 ⟨names, fun e mem => sound.names e (sub e mem)⟩,
    List.pairwise_cons.2 ⟨fun e mem eq => ?_, sound.distinct.filter _⟩⟩
  · exact kept _ (sound.closed e (sub e mem))
  · have apart := (List.mem_filter.1 mem).2
    rw [Bool.not_eq_true', ← Bool.not_eq_true, Location.same_eq_true] at apart
    exact apart eq.symm

/-- Another file in the place of a file. -/
theorem put_file (sound : tree.Sound) {content : Content}
    (found : tree.find? loc = some (.file content)) (content' : Content) :
    (tree.put loc (.file content')).Sound := by
  have below : loc ≠ [] := by
    rintro rfl
    simp at found
  refine sound.put below (sound.closed _ (exists_mem_of_find? below found))
    (sound.isName_of_find? found) (.inr ?_)
  rw [found]
  simp

end Sound

/-! ### Trees of one shape -/

/-- The other tree has directories and files in the same places. -/
structure Matches (tree tree' : Tree) : Prop where
  base : tree'.base = tree.base
  kind : ∀ l, tree'.notADirectory l = tree.notADirectory l

namespace Matches

variable {tree tree' tree'' : Tree}

theorem refl (tree : Tree) : Matches tree tree := ⟨rfl, fun _ => rfl⟩

theorem trans (h : Matches tree tree') (h' : Matches tree' tree'') : Matches tree tree'' :=
  ⟨h'.base.trans h.base, fun l => (h'.kind l).trans (h.kind l)⟩

theorem directory (h : Matches tree tree') {l : Location} :
    tree'.find? l = some .directory ↔ tree.find? l = some .directory := by
  rw [← notADirectory_eq_none, ← notADirectory_eq_none, h.kind]

theorem missing (h : Matches tree tree') {l : Location} :
    tree'.find? l = none ↔ tree.find? l = none := by
  have iff : ∀ tree : Tree, tree.find? l = none ↔ tree.notADirectory l = some .notFound := by
    intro tree
    unfold notADirectory
    cases tree.find? l with
    | none => simp
    | some node => cases node <;> simp
  rw [iff, iff, h.kind]

theorem follow (h : Matches tree tree') (current : Location) (names : List Text) :
    tree'.follow current names = tree.follow current names := by
  induction names generalizing current with
  | nil => rfl
  | cons name names ih =>
    rw [Tree.follow, Tree.follow, h.kind]
    simp only [ih]

theorem locate (h : Matches tree tree') (path : Path) : tree'.locate path = tree.locate path := by
  have same : tree'.follow [] = tree.follow [] := funext (h.follow [])
  rw [Tree.locate, Tree.locate, namesOf_congr h.base, same]

/-- Where there is an entry in the one tree, there is one in the other. -/
theorem lookup (h : Matches tree tree') {path : Path} {loc : Location} {node : Node}
    (found : tree.lookup path = .ok (loc, node)) :
    ∃ node', tree'.lookup path = .ok (loc, node') := by
  obtain ⟨located, here⟩ := lookup_eq_ok_iff.1 found
  cases there : tree'.find? loc with
  | none =>
    rw [h.missing, here] at there
    cases there
  | some node' => exact ⟨node', lookup_eq_ok_iff.2 ⟨by rw [h.locate, located], there⟩⟩

end Matches

/-- Another file in the place of a file. -/
theorem matches_put {tree : Tree} {loc : Location} {content : Content}
    (found : tree.find? loc = some (.file content)) (content' : Content) :
    Matches tree (tree.put loc (.file content')) := by
  have below : loc ≠ [] := by
    rintro rfl
    simp at found
  refine ⟨rfl, fun l => ?_⟩
  rw [notADirectory, notADirectory, find?_put below]
  by_cases here : l = loc
  · rw [if_pos here, here, found]
  · rw [if_neg here]

/-- A note changes one file, if any. -/
theorem append_cases (tree : Tree) (line : Text) :
    tree.append line = tree ∨ ∃ loc content content', tree.opened = some loc ∧
      tree.find? loc = some (.file content) ∧ tree.append line = tree.put loc (.file content') := by
  unfold append
  split
  · exact .inl rfl
  · next loc isOpen =>
    split
    · next content found => exact .inr ⟨loc, content, _, isOpen, found, rfl⟩
    · exact .inl rfl

theorem matches_append (tree : Tree) (line : Text) : Matches tree (tree.append line) := by
  rcases append_cases tree line with eq | ⟨loc, content, content', -, found, eq⟩
  · rw [eq]
    exact .refl tree
  · rw [eq]
    exact matches_put found content'

/-! ### Paths of entries -/

/-- An absolute path starts with the name of the root of the tree. -/
def Inside (tree : Tree) (path : Path) : Prop :=
  path.isAbsolute = true → ∃ rest, path.text = tree.base ++ rest ∧
    (rest = [] ∨ rest.head? = some '/')

theorem inside_congr {tree tree' : Tree} (base : tree'.base = tree.base) {path : Path} :
    tree'.Inside path ↔ tree.Inside path := by
  rw [Inside, Inside, base]

/-- An empty name at the end leads nowhere. -/
theorem leadsOut_append_blank (names : List Text) (depth : Nat) :
    leadsOut depth (names ++ [[]]) = leadsOut depth names := by
  induction names generalizing depth with
  | nil => cases depth <;> rfl
  | cons name names ih =>
    have up : onlyUp (names ++ [[]]) = onlyUp names := by simp [onlyUp]
    rw [List.cons_append, leadsOut_cons, leadsOut_cons, ih, ih, up]
    cases depth with
    | zero => rfl
    | succ depth => simp only [ih]

/-- The names of a directory are in the tree if they are with others behind them. -/
theorem names?_inside_of_append {names front rel : List Text}
    (same : names = front ∨ names = front ++ [[]]) (stays : leadsOut 0 (front ++ rel) = false) :
    names?.inside names = some names := by
  rw [names?_inside_eq_some_iff, and_iff_right rfl]
  have before := leadsOut_of_append stays
  rcases same with rfl | rfl
  · exact before
  · rwa [leadsOut_append_blank]

/-- Names of a directory and of an entry below it, as their pieces run. -/
theorem exists_front_of_pieces {rest more : Text} {rel : Location} {front : List Text}
    (words : ∀ name ∈ rel, IsWord name)
    (cut : Text.pieces '/' (rest ++ '/' :: more) = front ++ rel)
    (same : Text.pieces '/' rest = front ∨ Text.pieces '/' rest = front ++ [[]]) :
    Text.pieces '/' more = rel := by
  rw [Text.pieces_append] at cut
  rcases same with eq | eq
  · rw [eq] at cut
    exact List.append_cancel_left cut
  · rw [eq, List.append_assoc] at cut
    have blank : [] ∈ rel := by
      rw [← List.append_cancel_left cut]
      simp
    exact absurd rfl (words [] blank).visible

/-- A path that ends in words does not only lead up. -/
theorem not_onlyUp_pathIn {path : Path} {rel : Location} (visible : path.text ≠ [])
    (nonempty : rel ≠ []) (words : ∀ name ∈ rel, IsWord name) :
    onlyUp (Text.pieces '/' (pathIn path rel).text) = false := by
  obtain ⟨more, extended, cut⟩ := @pathIn_text path rel nonempty words
  obtain ⟨front, pieces, -⟩ := cut [] path.text rfl visible
  obtain ⟨name, others, rfl⟩ := List.exists_cons_of_ne_nil nonempty
  have here := words name (List.mem_cons_self ..)
  rw [← Bool.not_eq_true, onlyUp, List.all_eq_true, extended, pieces]
  intro all
  have up := all name (by simp)
  simp [here.visible, here.plain] at up

theorem isAbsolute_pathIn {path : Path} {rel : Location} (visible : path.text ≠ [])
    (nonempty : rel ≠ []) (words : ∀ name ∈ rel, IsWord name) :
    (pathIn path rel).isAbsolute = path.isAbsolute := by
  obtain ⟨more, extended, -⟩ := @pathIn_text path rel nonempty words
  obtain ⟨c, cs, eq⟩ := List.exists_cons_of_ne_nil visible
  rw [Path.isAbsolute, Path.isAbsolute, extended, eq]
  rfl

/-- The names of an entry below a directory end with its own, behind those of the directory. -/
theorem exists_front {tree : Tree} {path : Path} {rel : Location} {names' : List Text}
    (inside : tree.Inside path) (visible : path.text ≠ []) (nonempty : rel ≠ [])
    (words : ∀ name ∈ rel, IsWord name) (found' : tree.names? (pathIn path rel) = some names') :
    ∃ names front, tree.names? path = some names ∧ names' = front ++ rel ∧
      (names = front ∨ names = front ++ [[]]) := by
  have down := not_onlyUp_pathIn visible nonempty words
  have absolute := isAbsolute_pathIn visible nonempty words
  obtain ⟨more, extended, cut⟩ := @pathIn_text path rel nonempty words
  obtain ⟨front, pieces, same⟩ := cut [] path.text rfl visible
  have visible' : ¬ (pathIn path rel).text.isEmpty = true := by simp [extended, visible]
  rw [names?, if_neg visible', absolute] at found'
  rw [names?, if_neg (by simpa using visible)]
  by_cases isAbsolute : path.isAbsolute = true
  · rw [if_pos isAbsolute] at found' ⊢
    obtain ⟨rest, text, shape⟩ := inside isAbsolute
    have first : tree.base.isPrefixOf? path.text = some rest :=
      List.isPrefixOf?_eq_some_iff_append_eq.2 text.symm
    have first' : tree.base.isPrefixOf? (pathIn path rel).text = some (rest ++ more) := by
      rw [List.isPrefixOf?_eq_some_iff_append_eq, extended, text, List.append_assoc]
    rw [first]
    rw [first'] at found'
    rcases shape with rfl | slash
    · -- The path of the root itself.
      refine ⟨[], [], rfl, ?_, .inl rfl⟩
      rw [List.nil_append] at found' ⊢
      split at found'
      · next eq =>
        cases eq
        rw [List.append_nil] at pieces
        rcases same with eq | eq
        · rw [eq] at pieces
          exact absurd (List.self_eq_append_right.1 pieces) nonempty
        · rw [eq] at pieces
          have blank : [] ∈ rel := by
            rw [← List.append_cancel_left pieces]
            simp
          exact absurd rfl (words [] blank).visible
      · next below eq =>
        cases eq
        obtain ⟨rfl, -⟩ := names?_inside_eq_some_iff.1 found'
        exact exists_front_of_pieces words pieces same
      · rw [down] at found'
        cases found'
    · obtain ⟨below, rfl⟩ : ∃ below, rest = '/' :: below := by
        cases rest with
        | nil => cases slash
        | cons c below =>
          rw [List.head?_cons, Option.some.injEq] at slash
          exact ⟨below, by rw [slash]⟩
      obtain ⟨rfl, stays⟩ := names?_inside_eq_some_iff.1 found'
      cases below with
      | nil =>
        rw [text] at pieces same
        rw [Text.pieces_append] at same
        rw [List.append_assoc, List.singleton_append, Text.pieces_append] at pieces
        rcases same with eq | eq
        · rw [← eq, List.append_assoc] at pieces
          exact ⟨[[]], [[]], rfl, List.append_cancel_left pieces, .inl rfl⟩
        · rw [← List.append_cancel_right eq] at pieces
          exact ⟨[[]], [], rfl, List.append_cancel_left pieces, .inr rfl⟩
      | cons c below =>
        obtain ⟨front, pieces, same⟩ :=
          cut (tree.base ++ ['/']) (c :: below) (by simp [text]) (by simp)
        have stays' : leadsOut 0 (front ++ rel) = false := by
          rw [← pieces]
          exact stays
        exact ⟨_, front, names?_inside_of_append same stays', pieces, same⟩
  · rw [if_neg isAbsolute] at found' ⊢
    obtain ⟨rfl, stays⟩ := names?_inside_eq_some_iff.1 found'
    rw [extended] at stays ⊢
    rw [pieces] at stays
    exact ⟨_, front, names?_inside_of_append same stays, pieces, same⟩

/-- A path below a directory leads below the place of the directory, if it leads anywhere. -/
theorem exists_landing_of_pathIn {tree : Tree} {path : Path} {rel l : Location}
    (inside : tree.Inside path) (visible : path.text ≠ []) (words : ∀ name ∈ rel, IsWord name)
    (landed' : tree.landing (pathIn path rel) = .ok l) :
    ∃ loc, tree.landing path = .ok loc ∧ l = loc ++ rel := by
  by_cases empty : rel = []
  · rw [empty] at landed' ⊢
    exact ⟨l, landed', (List.append_nil l).symm⟩
  obtain ⟨names', found', land'⟩ := landing_eq_ok_iff.1 landed'
  obtain ⟨fits, listed'⟩ := namesOf_eq_ok_iff.1 found'
  obtain ⟨names, front, listed, rfl, same⟩ := exists_front inside visible empty words listed'
  obtain ⟨loc, before, after⟩ := exists_land_of_append land'
  rw [land_of_isName (isName_of_land words after)] at after
  cases after
  refine ⟨loc, landing_eq_ok_iff.2 ⟨names, namesOf_eq_ok_iff.2 ⟨?_, listed⟩, ?_⟩, rfl⟩
  · obtain ⟨more, extended, -⟩ := @pathIn_text path rel empty words
    exact fits.of_append extended
  · rcases same with rfl | rfl
    · exact before
    · rw [land_append before]
      exact (land_blank (by simp) loc).1

/-- The path of an entry below a directory leads there, if it leads anywhere. -/
theorem eq_of_locate_pathIn {tree : Tree} {path : Path} {loc rel l : Location}
    (inside : tree.Inside path) (located : tree.locate path = .ok loc)
    (proper : ∀ name ∈ rel, IsName name) (located' : tree.locate (pathIn path rel) = .ok l) :
    l = loc ++ rel := by
  have landed := (locate_iff_landing.1 located).1
  obtain ⟨_, landed', rfl⟩ := exists_landing_of_pathIn inside (text_ne_nil_of_landing landed)
    (fun name mem => (proper name mem).isWord) (locate_iff_landing.1 located').1
  rw [landed] at landed'
  cases landed'
  rfl

/-- Unless a path is that of the root, its last name is its last piece. -/
theorem getLast?_of_names? {tree : Tree} {path : Path} {names : List Text}
    (found : tree.names? path = some names) (nonempty : names ≠ []) :
    (Text.pieces '/' path.text).getLast? = names.getLast? := by
  unfold names? at found
  split at found
  · cases found
  split at found
  · split at found
    · cases found
      exact absurd rfl nonempty
    · next rest eq =>
      obtain ⟨rfl, -⟩ := names?_inside_eq_some_iff.1 found
      rw [← List.isPrefixOf?_eq_some_iff_append_eq.1 eq, Text.pieces_append, List.getLast?_append,
        List.getLast?_eq_some_getLast (Text.pieces_ne_nil '/' rest)]
      rfl
    · split at found
      · cases found
        exact absurd rfl nonempty
      · cases found
  · obtain ⟨rfl, -⟩ := names?_inside_eq_some_iff.1 found
    rfl

/-- The path of a file ends in its name. -/
theorem exists_names_of_file {tree : Tree} {path : Path} {loc : Location} {content : Content}
    (located : tree.locate path = .ok loc) (file : tree.find? loc = some (.file content)) :
    ∃ name, path.Names name := by
  obtain ⟨names, found, followed⟩ := locate_eq_ok_iff.1 located
  have nonempty : names ≠ [] := by
    rintro rfl
    cases followed
    simp at file
  obtain ⟨init, last, rfl⟩ : ∃ init last, names = init ++ [last] := by
    rcases List.eq_nil_or_concat names with empty | ⟨init, last, eq⟩
    · exact absurd empty nonempty
    · exact ⟨init, last, by rw [eq, List.concat_eq_append]⟩
  have ends := getLast?_of_names? (namesOf_eq_ok_iff.1 found).2 nonempty
  rw [List.getLast?_concat] at ends
  rw [follow_append] at followed
  cases reached : tree.follow [] init with
  | error e => simp [reached, Except.bind] at followed
  | ok mid =>
    simp only [reached, Except.bind] at followed
    obtain ⟨directory, next, stepped, rest⟩ := follow_cons_eq_ok_iff.1 followed
    cases rest
    -- A name that leads nowhere or up would lead to a directory.
    have up : tree.find? mid.dropLast = some .directory := by
      by_cases atRoot : mid.dropLast = mid
      · rw [atRoot, directory]
      · exact directory_of_follow reached (List.dropLast_prefix mid) atRoot (by simp)
    refine ⟨last, ends, ?_, ?_⟩
    · rintro rfl
      rw [step_nil] at stepped
      cases stepped
      rw [directory] at file
      cases file
    · rw [isDots, Bool.or_eq_false_iff, decide_eq_false_iff_not, decide_eq_false_iff_not]
      constructor
      · rintro rfl
        rw [step, if_pos (.inr rfl)] at stepped
        cases stepped
        rw [directory] at file
        cases file
      · rintro rfl
        rw [step, if_neg (by simp), if_pos rfl] at stepped
        cases stepped
        rw [up] at file
        cases file

theorem pathIn_injective {path : Path} (visible : path.text ≠ []) {rel rel' : Location}
    (proper : ∀ name ∈ rel, IsName name) (proper' : ∀ name ∈ rel', IsName name)
    (same : pathIn path rel = pathIn path rel') : rel = rel' := by
  have pieces : ∀ {rel : Location}, (∀ name ∈ rel, IsName name) → ∃ front,
      Text.pieces '/' (pathIn path rel).text = front ++ rel ∧
        (Text.pieces '/' path.text = front ∨ Text.pieces '/' path.text = front ++ [[]]) := by
    intro rel proper
    by_cases empty : rel = []
    · exact ⟨Text.pieces '/' path.text, by simp [empty, pathIn], .inl rfl⟩
    · obtain ⟨more, extended, cut⟩ :=
        @pathIn_text path rel empty fun name mem => (proper name mem).isWord
      rw [extended]
      exact cut [] path.text rfl visible
  have blank : ∀ {rel rel' : Location} {front : List Text}, (∀ name ∈ rel', IsName name) →
      front ++ [[]] ++ rel ≠ front ++ rel' := by
    intro rel rel' front proper eq
    rw [List.append_assoc] at eq
    have mem : [] ∈ rel' := by
      rw [← List.append_cancel_left eq]
      simp
    exact (proper [] mem).visible rfl
  obtain ⟨front, cut, before⟩ := pieces proper
  obtain ⟨front', cut', before'⟩ := pieces proper'
  rw [same, cut'] at cut
  rcases before with eq | eq <;> rcases before' with eq' | eq'
  · rw [← eq, ← eq'] at cut
    exact (List.append_cancel_left cut).symm
  · rw [← eq, eq'] at cut
    exact absurd cut.symm (blank proper')
  · rw [← eq', eq] at cut
    exact absurd cut (blank proper)
  · rw [List.append_cancel_right (eq.symm.trans eq')] at cut
    exact (List.append_cancel_left cut).symm

/-! ### Walks -/

theorem mem_subtree {tree : Tree} {loc rel : Location} {node : Node} :
    (rel, node) ∈ tree.subtree loc ↔ (loc ++ rel, node) ∈ tree.entries := by
  rw [subtree, (List.mergeSort_perm ..).mem_iff, List.mem_filterMap]
  constructor
  · rintro ⟨⟨key, node'⟩, mem, eq⟩
    obtain ⟨rest, isRest, same⟩ := Option.map_eq_some_iff.1 eq
    cases same
    rwa [List.isPrefixOf?_eq_some_iff_append_eq.1 isRest]
  · intro mem
    exact ⟨_, mem, Option.map_eq_some_iff.2
      ⟨rel, List.isPrefixOf?_eq_some_iff_append_eq.2 rfl, rfl⟩⟩

theorem pairwise_subtree {tree : Tree} (sound : tree.Sound) (loc : Location) :
    (tree.subtree loc).Pairwise fun a b => a.1 ≠ b.1 := by
  rw [subtree, (List.mergeSort_perm ..).pairwise_iff fun h => Ne.symm h]
  refine sound.distinct.filterMap _ ?_
  intro e e' apart found eq found' eq' same
  obtain ⟨rest, isRest, rfl⟩ := Option.map_eq_some_iff.1 eq
  obtain ⟨rest', isRest', rfl⟩ := Option.map_eq_some_iff.1 eq'
  apply apart
  rw [← List.isPrefixOf?_eq_some_iff_append_eq.1 isRest,
    ← List.isPrefixOf?_eq_some_iff_append_eq.1 isRest']
  exact congrArg _ same

/-- The place of an entry that is a file. -/
def filePlace : Location × Node → Option Location
  | (rel, .file _) => some rel
  | (_, .directory) => none

theorem filesAmong_eq_ok_iff {tree : Tree} {dir : Path} {entries : List (Location × Node)}
    {files : List Location} :
    tree.filesAmong dir entries = .ok files ↔
      (∀ rel, (rel, .directory) ∈ entries → ∃ found, tree.lookup (pathIn dir rel) = .ok found) ∧
        files = entries.filterMap filePlace := by
  induction entries generalizing files with
  | nil => simp [filesAmong, eq_comm]
  | cons e entries ih =>
    obtain ⟨rel, node⟩ := e
    cases node with
    | directory =>
      rw [filesAmong]
      cases looked : tree.lookup (pathIn dir rel) with
      | error e =>
        simp only [reduceCtorEq, List.mem_cons, false_iff, not_and]
        intro all
        obtain ⟨found, eq⟩ := all rel (.inl rfl)
        rw [looked] at eq
        cases eq
      | ok found =>
        simp only [ih, List.mem_cons, Prod.mk.injEq, and_true, List.filterMap_cons, filePlace]
        constructor
        · rintro ⟨all, eq⟩
          refine ⟨?_, eq⟩
          rintro rel' (rfl | mem)
          · exact ⟨found, looked⟩
          · exact all rel' mem
        · rintro ⟨all, eq⟩
          exact ⟨fun rel' mem => all rel' (.inr mem), eq⟩
    | file content =>
      rw [filesAmong]
      cases rest : tree.filesAmong dir entries with
      | error e =>
        have never := fun files => (@ih files).2
        simp only [rest, reduceCtorEq] at never
        simp only [Except.map, reduceCtorEq, List.mem_cons, Prod.mk.injEq, reduceCtorEq, and_false,
          false_or, false_iff, not_and]
        intro all
        exact absurd ⟨all, rfl⟩ (never _)
      | ok others =>
        obtain ⟨all, eq⟩ := ih.1 rest
        simp only [Except.map, Except.ok.injEq, List.mem_cons, Prod.mk.injEq, reduceCtorEq,
          and_false, false_or, List.filterMap_cons, filePlace]
        rw [eq]
        exact ⟨fun h => ⟨all, h.symm⟩, fun h => h.2.symm⟩

/-- A walk looks at the directories below a directory and lists the files. -/
theorem walk_eq_ok_iff {tree : Tree} {dir : Path} {files : List Location} :
    tree.walk dir = .ok files ↔
      ∃ loc node, tree.lookup dir = .ok (loc, node) ∧
        (∀ rel, (rel, .directory) ∈ tree.subtree loc →
          ∃ found, tree.lookup (pathIn dir rel) = .ok found) ∧
        files = (tree.subtree loc).filterMap filePlace := by
  unfold walk
  cases tree.lookup dir with
  | error e => simp
  | ok found =>
    obtain ⟨loc, node⟩ := found
    simp [filesAmong_eq_ok_iff]

theorem filePlace_eq_some_iff {e : Location × Node} {rel : Location} :
    filePlace e = some rel ↔ ∃ content, e = (rel, .file content) := by
  obtain ⟨rel', node⟩ := e
  cases node <;> simp [filePlace]

/-- The Go file at a location relative to a directory. -/
structure GoFile (tree : Tree) (root : Path) (loc rel : Location) (content : Content) : Prop where
  found : tree.find? (loc ++ rel) = some (.file content)
  isGo : (pathIn root rel).isGoFile = true

/-- The Go files that a walk finds, those at the top first. -/
theorem filesToShade_eq_ok_iff {tree : Tree} {root : Path} {paths : List Path} :
    tree.filesToShade root = .ok paths ↔
      ∃ files, tree.walk root = .ok files ∧
        let go := files.filter fun rel => (pathIn root rel).isGoFile
        paths = ((go.filter fun rel => rel.length == 1) ++
          go.filter fun rel => !(rel.length == 1)).map (pathIn root) := by
  unfold filesToShade goFilesIn
  cases tree.walk root with
  | error e => simp [Except.map]
  | ok files =>
    simp only [Except.map, List.partition_eq_filter_filter, Except.ok.injEq, exists_eq_left',
      Function.comp_def]
    exact eq_comm

/-- The entries below a location, listed in order. -/
theorem subtree_eq_of_perm {tree : Tree} (sound : tree.Sound) {loc : Location}
    {listed : List (Location × Node)}
    (below : (tree.entries.filterMap
      fun e => (loc.isPrefixOf? e.1).map fun rest => (rest, e.2)).Perm listed)
    (sorted : listed.Pairwise fun a b => Location.le a.1 b.1 = true) :
    tree.subtree loc = listed := by
  have perm : (tree.subtree loc).Perm listed := (List.mergeSort_perm ..).trans below
  have inOrder : (tree.subtree loc).Pairwise fun a b => Location.le a.1 b.1 = true :=
    @List.pairwise_mergeSort (Location × Node) (fun a b => Location.le a.1 b.1)
      (fun _ _ _ => Location.le_trans)
      (fun _ _ => Location.le_total ..) _
  refine perm.eq_of_pairwise (fun a b mem mem' le le' => ?_) inOrder sorted
  obtain ⟨rel, node⟩ := a
  obtain ⟨rel', node'⟩ := b
  obtain rfl : rel = rel' := Location.le_antisymm le le'
  have here := sound.find?_of_mem (mem_subtree.1 mem)
  rw [sound.find?_of_mem (mem_subtree.1 (perm.mem_iff.2 mem'))] at here
  cases here
  rfl

/-- The Go files of a tree whose entries are known. -/
theorem filesToShade_eq_of_perm {tree : Tree} {root : Path} {loc : Location} {node : Node}
    (sound : tree.Sound) (found : tree.lookup root = .ok (loc, node))
    {listed : List (Location × Node)}
    (below : (tree.entries.filterMap
      fun e => (loc.isPrefixOf? e.1).map fun rest => (rest, e.2)).Perm listed)
    (sorted : listed.Pairwise fun a b => Location.le a.1 b.1 = true)
    (directories : ∀ e ∈ listed, e.2 = .directory → (tree.lookup (pathIn root e.1)).isOk = true) :
    tree.filesToShade root =
      let go := (listed.filterMap filePlace).filter fun rel => (pathIn root rel).isGoFile
      .ok (((go.filter fun rel => rel.length == 1) ++
        go.filter fun rel => !(rel.length == 1)).map (pathIn root)) := by
  have subtree : tree.subtree loc = listed := subtree_eq_of_perm sound below sorted
  refine filesToShade_eq_ok_iff.2
    ⟨_, walk_eq_ok_iff.2 ⟨loc, node, found, fun rel mem => ?_, rfl⟩, ?_⟩
  · rw [subtree] at mem
    have ok := directories _ mem rfl
    cases looked : tree.lookup (pathIn root rel) with
    | error e =>
      rw [looked] at ok
      cases ok
    | ok entry => exact ⟨entry, rfl⟩
  · rw [subtree]

/-- The files to shade are the Go files at or below the root, each once. -/
theorem filesToShade_eq_ok {tree : Tree} (sound : tree.Sound) {root : Path} {paths : List Path}
    (collected : tree.filesToShade root = .ok paths) :
    ∃ loc node, tree.lookup root = .ok (loc, node) ∧ paths.Nodup ∧
      ∀ path, path ∈ paths ↔ ∃ rel content, path = pathIn root rel ∧
        tree.GoFile root loc rel content := by
  obtain ⟨files, walked, listed⟩ := filesToShade_eq_ok_iff.1 collected
  obtain ⟨loc, node, found, -, rfl⟩ := walk_eq_ok_iff.1 walked
  have perm : paths.Perm ((((tree.subtree loc).filterMap filePlace).filter fun rel =>
      (pathIn root rel).isGoFile).map (pathIn root)) := by
    rw [listed]
    exact List.Perm.map _ (List.filter_append_perm ..)
  have mem : ∀ rel, rel ∈ (tree.subtree loc).filterMap filePlace ↔
      ∃ content, tree.find? (loc ++ rel) = some (.file content) := by
    intro rel
    rw [List.mem_filterMap]
    constructor
    · rintro ⟨e, memE, eq⟩
      obtain ⟨content, rfl⟩ := filePlace_eq_some_iff.1 eq
      exact ⟨content, sound.find?_of_mem (mem_subtree.1 memE)⟩
    · rintro ⟨content, file⟩
      have below : loc ++ rel ≠ [] := by
        intro empty
        simp [empty] at file
      exact ⟨_, mem_subtree.2 ((sound.mem_iff below).2 file), rfl⟩
  have visible : root.text ≠ [] := by
    obtain ⟨located, -⟩ := lookup_eq_ok_iff.1 found
    exact text_ne_nil_of_landing (locate_iff_landing.1 located).1
  refine ⟨loc, node, found, perm.nodup_iff.2 ?_, fun path => ?_⟩
  · apply List.Nodup.map_on
    · intro rel memRel rel' memRel' same
      obtain ⟨content, file⟩ := (mem rel).1 (List.mem_filter.1 memRel).1
      obtain ⟨content', file'⟩ := (mem rel').1 (List.mem_filter.1 memRel').1
      exact pathIn_injective visible (fun _ => sound.isName file) (fun _ => sound.isName file') same
    · apply List.Nodup.filter
      refine (pairwise_subtree sound loc).filterMap _ ?_
      intro e e' apart rel eq rel' eq'
      obtain ⟨content, rfl⟩ := filePlace_eq_some_iff.1 eq
      obtain ⟨content', rfl⟩ := filePlace_eq_some_iff.1 eq'
      exact apart
  · rw [perm.mem_iff, List.mem_map]
    constructor
    · rintro ⟨rel, memRel, rfl⟩
      obtain ⟨memFile, isGo⟩ := List.mem_filter.1 memRel
      obtain ⟨content, file⟩ := (mem rel).1 memFile
      exact ⟨rel, content, rfl, file, isGo⟩
    · rintro ⟨rel, content, rfl, file, isGo⟩
      exact ⟨rel, List.mem_filter.2 ⟨(mem rel).2 ⟨content, file⟩, isGo⟩, rfl⟩

/-- A tree of the same shape can be walked as well. -/
theorem Matches.exists_filesToShade {tree tree' : Tree} (h : Matches tree tree')
    (sound : tree.Sound) (sound' : tree'.Sound) {root : Path} {paths : List Path}
    (collected : tree.filesToShade root = .ok paths) :
    ∃ paths', tree'.filesToShade root = .ok paths' := by
  obtain ⟨files, walked, -⟩ := filesToShade_eq_ok_iff.1 collected
  obtain ⟨loc, node, found, directories, rfl⟩ := walk_eq_ok_iff.1 walked
  obtain ⟨node', found'⟩ := h.lookup found
  have walked' : tree'.walk root = .ok ((tree'.subtree loc).filterMap filePlace) := by
    refine walk_eq_ok_iff.2 ⟨loc, node', found', fun rel mem => ?_, rfl⟩
    have mem' := mem_subtree.1 mem
    have here := h.directory.1 (sound'.find?_of_mem mem')
    obtain ⟨⟨l, node⟩, looked⟩ := directories rel
      (mem_subtree.2 ((sound.mem_iff (sound'.below _ mem')).2 here))
    obtain ⟨node', looked'⟩ := h.lookup looked
    exact ⟨_, looked'⟩
  exact ⟨_, filesToShade_eq_ok_iff.2 ⟨_, walked', rfl⟩⟩

end Tree

end GoSplit
