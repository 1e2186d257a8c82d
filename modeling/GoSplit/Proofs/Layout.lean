import GoSplit.Proofs.ImportPath
import GoSplit.Proofs.Job.Confined

/-!
The layout of the output. Whatever the settings are, the private subtree lies properly below the
output root, and the same names lead to it that the private namespace has behind the name of the
module. So an old subtree is removed without touching the root or anything beside the subtree, and
an import path of the namespace names the directory where its package is put.
-/

namespace GoSplit

/-! ### Names behind a path -/

namespace Location

variable {rel rel' : Location}

theorem text_append (nonempty : rel ≠ []) (nonempty' : rel' ≠ []) :
    text (rel ++ rel') = text rel ++ '/' :: text rel' := by
  induction rel with
  | nil => exact absurd rfl nonempty
  | cons name rest ih =>
    rw [List.cons_append, text, Text.joinWith_cons
      (List.append_ne_nil_of_right_ne_nil rest nonempty')]
    by_cases last : rest = []
    · simp [last, text, Text.joinWith]
    · rw [text, Text.joinWith_cons last]
      have rest := ih last
      rw [text, text] at rest
      rw [rest]
      simp

end Location

namespace Tree

variable {tree after : Tree} {path : Path} {rel rel' l : Location}

theorem pathIn_pathIn (nonempty : rel ≠ []) (nonempty' : rel' ≠ [])
    (words : ∀ name ∈ rel, IsWord name) (words' : ∀ name ∈ rel', IsWord name) :
    pathIn (pathIn path rel) rel' = pathIn path (rel ++ rel') := by
  have open_end : (pathIn path rel).gap = ['/'] :=
    if_neg (names_pathIn words (List.getLast?_eq_some_getLast nonempty)).closed
  rw [pathIn_eq_gap nonempty' words', open_end, pathIn_eq_gap nonempty words,
    pathIn_eq_gap (List.append_ne_nil_of_left_ne_nil nonempty rel')
      (List.forall_mem_append.2 ⟨words, words'⟩), Location.text_append nonempty nonempty']
  simp

/-- The names behind a path are its last elements. -/
theorem components_pathIn (words : ∀ name ∈ rel, IsWord name) :
    (pathIn path rel).components = path.components ++ rel := by
  by_cases nonempty : rel = []
  · simp [nonempty, pathIn]
  have kept : (rel.filter fun name => !name.isEmpty && name != ['.']) = rel := by
    refine List.filter_eq_self.2 fun name mem => ?_
    have here := words name mem
    simp [here.visible, here.ne_dot]
  by_cases visible : path.text = []
  · have relative : (rel.text.head? == some '/') = false :=
      beq_eq_false_iff_ne.2 (Location.head?_text words)
    have head : (rel.head? == some ['.']) = false := by
      rw [beq_eq_false_iff_ne]
      exact fun eq => (words _ (List.mem_of_mem_head? eq)).ne_dot rfl
    rw [pathIn_of_empty visible nonempty words, Path.components, Path.isAbsolute, relative,
      Location.pieces_text nonempty words, kept, Path.components, Path.isAbsolute, visible]
    simp [head, Text.pieces]
  · have absolute := isAbsolute_pathIn visible nonempty words
    obtain ⟨more, extended, cut⟩ := @pathIn_text path rel nonempty words
    obtain ⟨front, pieces, same⟩ := cut [] path.text rfl visible
    have filled : front ≠ [] := by
      rintro rfl
      rcases same with eq | eq
      · exact Text.pieces_ne_nil '/' path.text eq
      · rw [← Text.joinWith_pieces '/' path.text, eq] at visible
        exact visible rfl
    have head : (front ++ rel).head? = (Text.pieces '/' path.text).head? := by
      obtain ⟨name, others, rfl⟩ := List.exists_cons_of_ne_nil filled
      rcases same with eq | eq <;> rw [eq] <;> rfl
    have plain : ((Text.pieces '/' path.text).filter fun name => !name.isEmpty && name != ['.']) =
        front.filter fun name => !name.isEmpty && name != ['.'] := by
      rcases same with eq | eq <;> rw [eq]
      simp
    rw [Path.components, absolute, extended, pieces, head, List.filter_append, kept,
      Path.components, plain]
    split
    · rfl
    · split <;> rfl

/-! ### Places properly below a path -/

/-- Properly below a path: there and not at the path itself. -/
inductive LiesBelow (tree : Tree) (path : Path) (l : Location) : Prop
  /-- The empty path stands for the root of the tree. -/
  | root : path.text = [] → l ≠ [] → LiesBelow tree path l
  | place {loc : Location} : tree.landing path = .ok loc → loc <+: l → l ≠ loc →
    LiesBelow tree path l
  /-- The path is that of a directory above the root of the tree, which is below it with all it
  has. -/
  | above {up : Location} : ¬ tree.Inside path → up ≠ [] → (∀ name ∈ up, IsWord name) →
    tree.base = (pathIn path up).text → LiesBelow tree path l

theorem liesBelow_congr {tree' : Tree} (base : tree'.base = tree.base) :
    tree'.LiesBelow path l ↔ tree.LiesBelow path l := by
  have congr : ∀ {tree tree' : Tree}, tree'.base = tree.base → tree'.LiesBelow path l →
      tree.LiesBelow path l := by
    intro tree tree' base h
    cases h with
    | root empty other => exact .root empty other
    | place landed within other => exact .place (by rwa [landing_congr base.symm]) within other
    | above outside nonempty words eq =>
      exact .above (fun inside => outside ((inside_congr base).2 inside)) nonempty words (base ▸ eq)
  exact ⟨congr base, congr base.symm⟩

/-- No path lies properly below itself. -/
theorem not_liesBelow_landing (inside : tree.Inside path) (landed : tree.landing path = .ok l) :
    ¬ tree.LiesBelow path l := by
  intro below
  cases below with
  | root empty _ => exact text_ne_nil_of_landing landed empty
  | place landed' _ other =>
    rw [landed] at landed'
    cases landed'
    exact other rfl
  | above outside _ _ _ => exact outside inside

/-- What stands behind a path up to a slash between names are names as well. -/
theorem exists_words_of_gap {more rest : Text} (nonempty : rel ≠ [])
    (words : ∀ name ∈ rel, IsWord name) (some : more ≠ [])
    (cut : path.gap ++ rel.text = more ++ '/' :: rest) :
    ∃ up : Location, up ≠ [] ∧ (∀ name ∈ up, IsWord name) ∧ more = path.gap ++ up.text := by
  obtain ⟨front, rfl, text⟩ : ∃ front, more = path.gap ++ front ∧
    rel.text = front ++ '/' :: rest := by
    rw [Path.gap] at cut ⊢
    split
    · next ends =>
      rw [if_pos ends] at cut
      exact ⟨more, rfl, cut⟩
    · next ends =>
      rw [if_neg ends] at cut
      obtain ⟨c, front, rfl⟩ := List.exists_cons_of_ne_nil some
      obtain ⟨rfl, text⟩ := List.cons.inj cut
      exact ⟨front, rfl, text⟩
  have names : rel = Text.pieces '/' front ++ Text.pieces '/' rest := by
    rw [← Text.pieces_append, ← text, Location.pieces_text nonempty words]
  refine ⟨Text.pieces '/' front, Text.pieces_ne_nil '/' front, fun name mem => words name ?_, ?_⟩
  · rw [names]
    exact List.mem_append_left _ mem
  · rw [Location.text, Text.joinWith_pieces]

/-- A path outside of the tree that names go on from into the tree is that of a directory above
it. -/
theorem exists_base_of_names? {names : List Text} (outside : ¬ tree.Inside path)
    (nonempty : rel ≠ []) (words : ∀ name ∈ rel, IsWord name)
    (found : tree.names? (pathIn path rel) = some names) :
    ∃ up, up ≠ [] ∧ (∀ name ∈ up, IsWord name) ∧ tree.base = (pathIn path up).text := by
  obtain ⟨absolute, other⟩ := Classical.not_imp.1 outside
  have visible : path.text ≠ [] := by
    intro empty
    simp [Path.isAbsolute, empty] at absolute
  have text : (pathIn path rel).text = path.text ++ (path.gap ++ rel.text) := by
    rw [pathIn_eq_gap nonempty words]
  rw [names?, if_neg (by simp [text, visible]), isAbsolute_pathIn visible nonempty words,
    if_pos absolute] at found
  split at found
  · next whole =>
    refine ⟨rel, nonempty, words, ?_⟩
    rw [← List.isPrefixOf?_eq_some_iff_append_eq.1 whole, List.append_nil]
  · next rest eq =>
    have cut := List.isPrefixOf?_eq_some_iff_append_eq.1 eq
    rw [text] at cut
    rcases List.append_eq_append_iff.1 cut with ⟨more, eq, tail⟩ | ⟨more, eq, tail⟩
    · refine absurd ⟨more, eq, ?_⟩ other
      cases more with
      | nil => exact .inl rfl
      | cons c more => exact .inr (by rw [List.head?_cons, (List.cons.inj tail).1])
    · by_cases none : more = []
      · refine absurd ⟨[], ?_, .inl rfl⟩ other
        rw [eq, none, List.append_nil, List.append_nil]
      · obtain ⟨up, some, words', rfl⟩ := exists_words_of_gap nonempty words none tail
        exact ⟨up, some, words', by rw [eq, pathIn_eq_gap some words']⟩
  · rw [not_onlyUp_pathIn visible nonempty words] at found
    cases found

theorem landing_pathIn_of_empty {loc : Location} (empty : path.text = []) (nonempty : rel ≠ [])
    (words : ∀ name ∈ rel, IsWord name) (landed : tree.landing (pathIn path rel) = .ok loc) :
    loc = rel := by
  rw [pathIn_of_empty empty nonempty words] at landed
  obtain ⟨names, found, land⟩ := landing_eq_ok_iff.1 landed
  have listed := (namesOf_eq_ok_iff.1 found).2
  have visible : rel.text ≠ [] := text_ne_nil_of_landing landed
  have relative : ¬ (Path.mk rel.text).isAbsolute = true := by
    rw [Path.isAbsolute, beq_iff_eq]
    exact Location.head?_text words
  rw [names?, if_neg (by simpa using visible), if_neg relative,
    Location.pieces_text nonempty words] at listed
  obtain ⟨rfl, -⟩ := names?_inside_eq_some_iff.1 listed
  rw [land_of_isName (isName_of_land words land)] at land
  cases land
  rfl

/-- A path that goes on behind another with names leads properly below it, if it leads anywhere. -/
theorem liesBelow_of_landing {loc : Location} (nonempty : rel ≠ [])
    (words : ∀ name ∈ rel, IsWord name) (landed : tree.landing (pathIn path rel) = .ok loc)
    (within : loc <+: l) : tree.LiesBelow path l := by
  by_cases empty : path.text = []
  · refine .root empty ?_
    rintro rfl
    rw [List.prefix_nil.1 within] at landed
    exact nonempty (landing_pathIn_of_empty empty nonempty words landed).symm
  by_cases inside : tree.Inside path
  · obtain ⟨top, landedTop, rfl⟩ := exists_landing_of_pathIn inside empty words landed
    refine .place landedTop ((List.prefix_append ..).trans within) ?_
    rintro rfl
    have longer := within.length_le
    rw [List.length_append] at longer
    exact nonempty (List.length_eq_zero_iff.1 (by omega))
  · obtain ⟨names, found, -⟩ := landing_eq_ok_iff.1 landed
    obtain ⟨up, some, words', base⟩ := exists_base_of_names? inside nonempty words
      (namesOf_eq_ok_iff.1 found).2
    exact .above inside some words' base

/-- Removing what a path goes on to changes nothing that does not lie properly below the path. -/
theorem find?_of_removeDirs_pathIn {result : Except IoError Unit} (nonempty : rel ≠ [])
    (words : ∀ name ∈ rel, IsWord name)
    (ran : (removeDirs (pathIn path rel)).on tree = (result, after))
    (out : ¬ tree.LiesBelow path l) :
    after.find? l = tree.find? l := by
  rcases on_removeDirs_cases ran with ⟨rfl, -⟩ | ⟨loc, located, -, kept⟩
  · rfl
  have apart : ¬ loc <+: l := fun within =>
    out (liesBelow_of_landing nonempty words (locate_iff_landing.1 located).1 within)
  have below : loc ≠ [] := by
    rintro rfl
    exact apart List.nil_prefix
  have cleared : (tree.clear loc).find? l = tree.find? l := by
    rw [find?_clear, if_neg fun within => apart within.1]
  rcases kept with rfl | rfl
  · exact cleared
  · rw [find?_remove below, if_neg apart, cleared]

/-- All that does not lie properly below a path is as it was, but for lines that the log has
more. -/
def ChangedBelow (tree : Tree) (path : Path) (after : Tree) : Prop :=
  ∃ logged, tree.Quiet logged ∧ ∀ l, ¬ tree.LiesBelow path l → after.find? l = logged.find? l

theorem Quiet.changedBelow {logged : Tree} (quiet : tree.Quiet logged) (nonempty : rel ≠ [])
    (words : ∀ name ∈ rel, IsWord name)
    (ran : after = logged ∨ ∃ result, (removeDirs (pathIn path rel)).on logged = (result, after)) :
    tree.ChangedBelow path after := by
  refine ⟨logged, quiet, fun l out => ?_⟩
  rcases ran with rfl | ⟨result, removing⟩
  · rfl
  · refine find?_of_removeDirs_pathIn nonempty words removing fun below => out ?_
    exact (liesBelow_congr quiet.rewritten.base).1 below

end Tree

/-! ### Removing the private subtree -/

/-- What dropping an old subtree comes to. -/
theorem Relocation.dropOld_cases {thirdParty : Path} {site after : Site}
    {result : Except SplitError Unit} (ran : (dropOld thirdParty).on site = (result, after)) :
    ∃ noted, site.tree.Quiet noted ∧
      (after.tree = noted ∨ ∃ r, (Tree.removeDirs thirdParty).on noted = (r, after.tree)) := by
  rw [dropOld, SiteM.on_bind_of_ok (SiteM.on_look _ site)] at ran
  split at ran
  · rw [SiteM.on_bind_of_ok (Site.on_note _ _)] at ran
    exact ⟨_, .append _ _, .inr ⟨_, Prod.ext rfl (congrArg (fun outcome => outcome.2.tree) ran)⟩⟩
  · cases ran
    exact ⟨_, .refl _, .inl rfl⟩

/-! ### Layouts -/

/-- A clean import path does not start with a slash. -/
theorem ImportPath.exists_cons_of_words {path : Text}
    (words : ∀ name ∈ segments path, Tree.IsWord name) : ∃ c more, path = c :: more ∧ c ≠ '/' := by
  have first := Location.head?_text words
  rw [Location.text, segments, Text.joinWith_pieces] at first
  cases path with
  | nil => exact absurd rfl (words [] (by simp [segments, Text.pieces])).visible
  | cons c more => exact ⟨c, more, rfl, by simpa using first⟩

namespace Layout

/-- Names lead from the root to the private subtree, and the namespace has them behind the name of
the module. -/
structure Nested (layout : Layout) (segs : Location) : Prop where
  nonempty : segs ≠ []
  words : ∀ seg ∈ segs, Tree.IsWord seg
  thirdParty : layout.thirdParty = Tree.pathIn layout.root segs
  importPrefix : layout.importPrefix = layout.projectName ++ '/' :: segs.text

/-- In the module of a layout an import path names the directory below the root that has the names
behind the name of the module. -/
def Names (layout : Layout) (importPath : Text) (dir : Path) : Prop :=
  ∃ rel : Location, rel ≠ [] ∧ (∀ name ∈ rel, Tree.IsWord name) ∧
    importPath = layout.projectName ++ '/' :: rel.text ∧ dir = Tree.pathIn layout.root rel

variable {layout : Layout} {segs : Location} {path : Text}

theorem Nested.components (h : layout.Nested segs) :
    layout.thirdParty.components = layout.root.components ++ segs := by
  rw [h.thirdParty, Tree.components_pathIn h.words]

/-- Removing the private subtree changes nothing but what lies properly below the root. -/
theorem Nested.changedBelow {tree noted after : Tree} (h : layout.Nested segs)
    (quiet : tree.Quiet noted)
    (ran : after = noted ∨ ∃ r, (Tree.removeDirs layout.thirdParty).on noted = (r, after)) :
    tree.ChangedBelow layout.root after := by
  rw [h.thirdParty] at ran
  exact quiet.changedBelow h.nonempty h.words ran

theorem Nested.importPrefix_ne_nil (h : layout.Nested segs) : layout.importPrefix ≠ [] := by
  rw [h.importPrefix]
  simp

theorem Nested.getLast?_importPrefix (h : layout.Nested segs) :
    layout.importPrefix.getLast? ≠ some '/' := by
  have closed :=
    (@Tree.names_pathIn ⟨[]⟩ segs _ h.words (List.getLast?_eq_some_getLast h.nonempty)).closed
  rw [Tree.pathIn_of_empty rfl h.nonempty h.words, Bool.or_eq_true, not_or, List.isEmpty_iff,
    beq_iff_eq] at closed
  rw [h.importPrefix, List.getLast?_append_of_ne_nil _ (by simp),
    List.getLast?_cons_of_ne_nil closed.1]
  exact closed.2

/-- An import path of the namespace whose rest is clean names the directory that has the rest below
the private subtree. -/
theorem Nested.names (h : layout.Nested segs)
    (clean : ∀ name ∈ ImportPath.segments path, Tree.IsWord name) :
    layout.Names (ImportPath.join layout.importPrefix path) (layout.thirdParty.below path) := by
  have some := ImportPath.segments_ne_nil path
  have text : Location.text (ImportPath.segments path) = path := Text.joinWith_pieces '/' path
  refine ⟨segs ++ ImportPath.segments path, ?_, List.forall_mem_append.2 ⟨h.words, clean⟩, ?_, ?_⟩
  · exact List.append_ne_nil_of_left_ne_nil h.nonempty _
  · obtain ⟨c, more, rfl, first⟩ := ImportPath.exists_cons_of_words clean
    rw [ImportPath.join_eq h.getLast?_importPrefix,
      List.dropWhile_cons_of_neg (by simpa using first), h.importPrefix,
      Location.text_append h.nonempty some, text]
    simp
  · rw [Path.below_of_words _ clean, h.thirdParty, Tree.pathIn_pathIn h.nonempty some h.words clean]

/-- There the package of a shaded import is looked for. -/
theorem Nested.isVendored_join (h : layout.Nested segs)
    (clean : ∀ name ∈ ImportPath.segments path, Tree.IsWord name) (classifier : Classifier)
    (tree : Tree) :
    (Shader.mk classifier layout.importPrefix).isVendored tree layout.thirdParty
      (ImportPath.join layout.importPrefix path) = tree.isDir (layout.thirdParty.below path) := by
  obtain ⟨c, more, rfl, first⟩ := ImportPath.exists_cons_of_words clean
  rw [ImportPath.join_eq h.getLast?_importPrefix]
  exact Shader.isVendored_append ⟨c, List.mem_cons_self .., first⟩

end Layout

namespace Config

/-- What a settings file gives has been validated. -/
theorem validate_of_ofToml {text : Text} {config : Config} (read : ofToml text = .ok config) :
    config.validate = .ok config := by
  unfold ofToml at read
  split at read
  · next decoded _ =>
    have same : decoded = config := by
      unfold validate at read
      split at read
      · cases read
      · split at read
        · cases read
        · cases read
          rfl
    rwa [same] at read
  · cases read

theorem nested_layout {config : Config} (valid : config.validate = .ok config) (package : Text) :
    (config.layout package).Nested (Text.pieces '/' config.thirdPartyName) where
  nonempty := Text.pieces_ne_nil '/' config.thirdPartyName
  words := words_thirdPartyName valid
  thirdParty := config.thirdParty_eq package
  importPrefix := by
    rw [Location.text, Text.joinWith_pieces]
    rfl

/-- Whatever the settings and the package are, the private subtree is a proper subdirectory of the
root, and the namespace follows it. Both times an old subtree is removed, nothing changes but what
lies properly below the root, which the root itself does not; and in the namespace a clean import
path names the directory where its package is looked for. -/
theorem layout_keeps_inside {config : Config} (valid : config.validate = .ok config)
    (package : Text) :
    let layout := config.layout package
    ∃ segs : Location, layout.Nested segs ∧
      layout.thirdParty.components = layout.root.components ++ segs ∧
      layout.importPrefix ≠ [] ∧ layout.importPrefix.getLast? ≠ some '/' ∧
      (∀ site : Site, site.tree.ChangedBelow layout.root
        ((Relocation.dropOld layout.thirdParty).on site).2.tree) ∧
      (∀ (job : Job) (input : Path) (source : Job.Source) (site : Site), source.layout = layout →
        job.needsVendoring source = false →
          site.tree.ChangedBelow layout.root ((job.vendor input source).on site).2.tree) ∧
      (∀ (tree : Tree) (loc : Location), tree.Inside layout.root →
        tree.landing layout.root = .ok loc →
        ¬ tree.LiesBelow layout.root loc) ∧
      ∀ path : Text, (∀ name ∈ ImportPath.segments path, Tree.IsWord name) →
        layout.Names (ImportPath.join layout.importPrefix path) (layout.thirdParty.below path) ∧
        ∀ (classifier : Classifier) (tree : Tree),
          (Shader.mk classifier layout.importPrefix).isVendored tree layout.thirdParty
            (ImportPath.join layout.importPrefix path) =
              tree.isDir (layout.thirdParty.below path) := by
  intro layout
  have inside : layout.Nested (Text.pieces '/' config.thirdPartyName) := nested_layout valid package
  refine ⟨_, inside, inside.components, inside.importPrefix_ne_nil, inside.getLast?_importPrefix,
    fun site => ?_, fun job input source site same unneeded => ?_,
    fun tree loc there landed => Tree.not_liesBelow_landing there landed,
    fun path clean => ⟨inside.names clean, inside.isVendored_join clean⟩⟩
  · obtain ⟨noted, quiet, after⟩ := Relocation.dropOld_cases (Prod.eta _).symm
    exact inside.changedBelow quiet after
  · rcases job.vendor_cases (Prod.eta _).symm with ⟨needed, -⟩ | ⟨noted, quiet, -, after⟩
    · rw [unneeded] at needed
      cases needed
    · rw [same] at after
      exact inside.changedBelow quiet after

/-- Settings with slashes around the private subtree. -/
def nestedSettings : Text := "output_dir = \"out/\"\nthird_party_dir = \"/deps/go/\"\n".toList

def nestedConfig : Config :=
  { default with outputDir := some ⟨"out/".toList⟩, thirdPartyDir := "/deps/go/".toList }

/-- An output directory with an old subtree. -/
def staleSite : Site :=
  .start { Tree.empty ['/', 'w'] with
    entries := [(["out".toList], .directory), (["out".toList, "deps".toList], .directory),
      (["out".toList, "deps".toList, "go".toList], .directory)] } 0

theorem layout_keeps_inside_sample :
    ofToml nestedSettings = .ok nestedConfig ∧
      (nestedConfig.layout ['p']).Names "p_split/deps/go/h.io/q".toList
        ⟨"out/deps/go/h.io/q".toList⟩ ∧
      ((Relocation.dropOld (nestedConfig.layout ['p']).thirdParty).on staleSite).2.tree.find?
        ["out".toList] = some .directory := by
  have decoded : (ofToml nestedSettings).toOption = some nestedConfig := by decide +kernel
  have read : ofToml nestedSettings = .ok nestedConfig := by
    cases parsed : ofToml nestedSettings with
    | error e =>
      rw [parsed] at decoded
      cases decoded
    | ok config =>
      rw [parsed] at decoded
      exact congrArg _ (Option.some.inj decoded)
  obtain ⟨segs, -, -, -, -, dropped, -, root, paths⟩ :=
    layout_keeps_inside (validate_of_ofToml read) ['p']
  refine ⟨read, ?_, ?_⟩
  · have clean : ∀ name ∈ ImportPath.segments "h.io/q".toList, Tree.IsName name := by decide
    have named := (paths "h.io/q".toList fun name mem => (clean name mem).isWord).1
    have path : ImportPath.join (nestedConfig.layout ['p']).importPrefix "h.io/q".toList =
        "p_split/deps/go/h.io/q".toList := by
      decide +kernel
    have dir : (nestedConfig.layout ['p']).thirdParty.below "h.io/q".toList =
        ⟨"out/deps/go/h.io/q".toList⟩ := by
      decide +kernel
    rwa [path, dir] at named
  · obtain ⟨logged, quiet, same⟩ := dropped staleSite
    have landed : staleSite.tree.landing (nestedConfig.layout ['p']).root = .ok ["out".toList] := by
      decide +kernel
    rw [same _ (root _ _ (by simp [Tree.Inside, Path.isAbsolute, layout, nestedConfig]) landed)]
    refine (quiet.rewritten.directory _).2 ?_
    decide +kernel

end Config

end GoSplit
