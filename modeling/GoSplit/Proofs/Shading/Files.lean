import GoSplit.Proofs.Site
import GoSplit.Proofs.Tree.Walking

/-!
Shading files one by one. What becomes of a file depends on the file alone: files in other
places may be shaded before it or not. So the outcome of every file of a walk, and with it the
report, can be read off the tree at the start, and so can the tree at the end.
-/

namespace GoSplit

namespace Shader

/-! ### One file -/

/-- What shading the file at a path comes to: an error, nothing to do, or its new text. -/
def verdict (shader : Shader) (tree : Tree) (path : Path) :
    Except FileShadeError (Option Shaded) :=
  match tree.readText path with
  | .error e => .error (.read e)
  | .ok src =>
    match shader.shadeSource path.text src with
    | .error e => .error (.source e)
    | .ok none => .ok none
    | .ok (some shaded) =>
      match tree.writeText path shaded.text with
      | .error e => .error (.write e)
      | .ok _ => .ok (some shaded)

/-- The outcome a report shows. -/
def outcome (shader : Shader) (tree : Tree) (path : Path) : Except FileShadeError (Option Nat) :=
  (shader.verdict tree path).map (Option.map Shaded.rewritten)

theorem readText_eq_ok_iff {tree : Tree} {path : Path} {src : Text} :
    tree.readText path = .ok src ↔
      ∃ loc content, tree.locate path = .ok loc ∧ tree.find? loc = some (.file content) ∧
        content.text? = some src := by
  unfold Tree.readText Tree.readBytes
  constructor
  · intro read
    split at read
    · cases read
    next content bytes =>
    split at bytes
    · cases bytes
    · cases bytes
    next loc content' found =>
    cases bytes
    split at read
    · next text decoded =>
      cases read
      obtain ⟨located, file⟩ := Tree.lookup_eq_ok_iff.1 found
      exact ⟨loc, content, located, file, decoded⟩
    · cases read
  · rintro ⟨loc, content, located, file, decoded⟩
    rw [Tree.lookup_eq_ok_iff.2 ⟨located, file⟩]
    simp [decoded]

/-- A file with imports to move is found, read, and can be written. -/
theorem verdict_eq_some {shader : Shader} {tree : Tree} {path : Path} {shaded : Shaded}
    (moves : shader.verdict tree path = .ok (some shaded)) :
    ∃ loc content src name, path.Names name ∧ tree.Takes path loc ∧
      tree.find? loc = some (.file content) ∧ content.text? = some src ∧
      shader.shadeSource path.text src = .ok (some shaded) := by
  unfold verdict at moves
  split at moves
  · cases moves
  next src read =>
  obtain ⟨loc, content, located, file, decoded⟩ := readText_eq_ok_iff.1 read
  obtain ⟨name, named⟩ := Tree.exists_names_of_file located file
  split at moves
  · cases moves
  · cases moves
  next shaded' source =>
  split at moves
  · cases moves
  next written wrote =>
  cases moves
  obtain ⟨loc', takes, -⟩ := (Tree.writeBytes_eq_ok_iff named).1 wrote
  have same := takes.located
  rw [located] at same
  cases same
  exact ⟨loc, content, src, name, named, takes, file, decoded, source⟩

/-! ### Trees in which some files are shaded -/

/-- The tree after the files at some paths were shaded. -/
structure Through (shader : Shader) (start : Tree) (done : List Path) (tree : Tree) : Prop
    extends Tree.Matches start tree where
  sound : tree.Sound
  mounts : tree.mounts = start.mounts
  refuses : tree.refuses = start.refuses
  opened : tree.opened = start.opened
  shaded : ∀ path ∈ done, ∀ l moved, start.locate path = .ok l →
    shader.verdict start path = .ok (some moved) →
    tree.find? l = some (.file (Content.ofText moved.text))
  same : ∀ l, start.opened ≠ some l →
    (∀ path ∈ done, ∀ moved, start.locate path = .ok l →
      shader.verdict start path ≠ .ok (some moved)) →
    tree.find? l = start.find? l

/-- The path leads neither to a file that was shaded already nor to the log. -/
def Fresh (start : Tree) (done : List Path) (path : Path) : Prop :=
  ∀ l, start.locate path = .ok l → start.opened ≠ some l ∧ ∀ q ∈ done, start.locate q ≠ .ok l

namespace Through

variable {shader : Shader} {start tree : Tree} {done : List Path} {path : Path}

theorem refl (shader : Shader) {start : Tree} (sound : start.Sound) :
    shader.Through start [] start :=
  { Tree.Matches.refl start with
    sound, mounts := rfl, refuses := rfl, opened := rfl
    shaded := by simp
    same := fun _ _ _ => rfl }

theorem congr {done' : List Path} (h : shader.Through start done tree)
    (same : ∀ p, p ∈ done' ↔ p ∈ done) : shader.Through start done' tree :=
  { h with
    shaded := fun path mem => h.shaded path ((same path).1 mem)
    same := fun l log free => h.same l log fun path mem => free path ((same path).2 mem) }

/-- Nothing happened yet to a file whose path is fresh. -/
theorem find?_eq (h : shader.Through start done tree) (fresh : Fresh start done path)
    {l : Location} (located : start.locate path = .ok l) : tree.find? l = start.find? l := by
  obtain ⟨log, apart⟩ := fresh l located
  exact h.same l log fun q mem moved located' => absurd located' (apart q mem)

theorem readText (h : shader.Through start done tree) (fresh : Fresh start done path) :
    tree.readText path = start.readText path := by
  have looked : tree.lookup path = start.lookup path := by
    rw [Tree.lookup, Tree.lookup, h.locate]
    cases located : start.locate path with
    | error e => rfl
    | ok l =>
      dsimp only
      rw [h.find?_eq fresh located]
  rw [Tree.readText, Tree.readBytes, looked, Tree.readText, Tree.readBytes]

theorem takes (h : shader.Through start done tree) {l : Location} (takes : start.Takes path l) :
    tree.Takes path l :=
  ⟨by rw [h.locate, takes.located], by rw [ne_eq, h.directory]; exact takes.free,
    by rw [h.refuses, takes.allowed]⟩

/-- A path of a file is written to with the same success. -/
theorem writeText_error (h : shader.Through start done tree) {name : Text} (named : path.Names name)
    {text : Text} {e : IoError} (refused : start.writeText path text = .error e) :
    tree.writeText path text = .error e := by
  rw [Tree.writeText, Tree.writeBytes_of_names named] at refused ⊢
  rw [h.locate]
  cases located : start.locate path with
  | error e' => rwa [located] at refused
  | ok l =>
    rw [located] at refused
    simp only [Except.bind, h.directory] at refused ⊢
    split
    · next directory => rwa [if_pos directory] at refused
    · next free =>
      rw [if_neg free, Tree.create] at refused
      rw [Tree.create, h.refuses]
      cases refuses : start.refuses l with
      | some e' => rwa [refuses] at refused
      | none =>
        rw [refuses] at refused
        cases refused

/-- Another file in the place of a file. -/
theorem put (h : shader.Through start done tree) {done' : List Path} {l : Location}
    {content content' : Content} (found : tree.find? l = some (.file content))
    (shaded : ∀ p ∈ done', ∀ l' moved, start.locate p = .ok l' →
      shader.verdict start p = .ok (some moved) →
      (tree.put l (.file content')).find? l' = some (.file (Content.ofText moved.text)))
    (same : ∀ l', start.opened ≠ some l' →
      (∀ p ∈ done', ∀ moved, start.locate p = .ok l' →
        shader.verdict start p ≠ .ok (some moved)) →
      (tree.put l (.file content')).find? l' = start.find? l') :
    shader.Through start done' (tree.put l (.file content')) :=
  { h.toMatches.trans (Tree.matches_put found content') with
    sound := h.sound.put_file found content'
    mounts := h.mounts, refuses := h.refuses, opened := h.opened, shaded, same }

/-- A note goes to the log. -/
theorem append (h : shader.Through start done tree)
    (log : ∀ p ∈ done, ∀ l, start.locate p = .ok l → start.opened ≠ some l) (line : Text) :
    shader.Through start done (tree.append line) := by
  rcases Tree.append_cases tree line with eq | ⟨l, content, content', isOpen, found, eq⟩
  · rwa [eq]
  have elsewhere : ∀ l', start.opened ≠ some l' → (tree.append line).find? l' = tree.find? l' :=
    fun l' apart => (Tree.rewritten_append tree line).same l' (by rwa [h.opened])
  rw [eq] at elsewhere ⊢
  refine h.put found (fun p mem l' moved located verdict => ?_) fun l' apart free => ?_
  · rw [elsewhere l' (log p mem l' located)]
    exact h.shaded p mem l' moved located verdict
  · rw [elsewhere l' apart]
    exact h.same l' apart free

/-- A file with nothing to move, or one that cannot be shaded, stays as it is. -/
theorem skip (h : shader.Through start done tree)
    (stays : ∀ moved, shader.verdict start path ≠ .ok (some moved)) :
    shader.Through start (done ++ [path]) tree := by
  refine { h with
    shaded := fun p mem l moved located verdict => ?_
    same := fun l apart free => ?_ }
  · rcases List.mem_append.1 mem with mem | mem
    · exact h.shaded p mem l moved located verdict
    · obtain rfl := List.mem_singleton.1 mem
      exact absurd verdict (stays moved)
  · exact h.same l apart fun p mem => free p (List.mem_append_left _ mem)

/-- The new text of a file takes the place of the old one. -/
theorem write (h : shader.Through start done tree) (fresh : Fresh start done path) {moved : Shaded}
    (verdict : shader.verdict start path = .ok (some moved)) :
    ∃ written, tree.writeText path moved.text = .ok written ∧
      shader.Through start (done ++ [path]) written := by
  obtain ⟨loc, content, src, name, named, takes, file, -, -⟩ := verdict_eq_some verdict
  have found : tree.find? loc = some (.file content) := by
    rw [h.find?_eq fresh takes.located, file]
  refine ⟨_, (Tree.writeBytes_eq_ok_iff named).2 ⟨loc, h.takes takes, rfl⟩,
    h.put found (fun p mem l moved' located verdict' => ?_) fun l apart free => ?_⟩
  · rw [Tree.find?_put takes.below]
    rcases List.mem_append.1 mem with mem | mem
    · have other : l ≠ loc := by
        rintro rfl
        exact (fresh l takes.located).2 p mem located
      rw [if_neg other]
      exact h.shaded p mem l moved' located verdict'
    · obtain rfl := List.mem_singleton.1 mem
      rw [takes.located] at located
      rw [verdict] at verdict'
      cases located
      cases verdict'
      rw [if_pos rfl]
  · have other : l ≠ loc := by
      rintro rfl
      exact free path (List.mem_append_right _ (List.mem_singleton_self path)) moved takes.located
        verdict
    rw [Tree.find?_put takes.below, if_neg other]
    exact h.same l apart fun p mem => free p (List.mem_append_left _ mem)

/-- What becomes of a file can be told beforehand. -/
theorem verdict_eq (h : shader.Through start done tree) (fresh : Fresh start done path) :
    shader.verdict tree path = shader.verdict start path := by
  have before : ∀ moved, shader.verdict start path = .ok (some moved) →
      shader.verdict tree path = .ok (some moved) := by
    intro moved verdict
    obtain ⟨loc, content, src, name, named, takes, file, decoded, source⟩ := verdict_eq_some verdict
    obtain ⟨written, wrote, -⟩ := h.write fresh verdict
    have read := readText_eq_ok_iff.2 ⟨loc, content, takes.located, file, decoded⟩
    rw [Shader.verdict, h.readText fresh, read]
    simp only [source, wrote]
  cases read : start.readText path with
  | error e => rw [Shader.verdict, h.readText fresh, read, Shader.verdict, read]
  | ok src =>
    cases source : shader.shadeSource path.text src with
    | error e => simp only [Shader.verdict, h.readText fresh, read, source]
    | ok result =>
      cases result with
      | none => simp only [Shader.verdict, h.readText fresh, read, source]
      | some moved =>
        cases wrote : start.writeText path moved.text with
        | error e =>
          obtain ⟨loc, content, located, file, -⟩ := readText_eq_ok_iff.1 read
          obtain ⟨name, named⟩ := Tree.exists_names_of_file located file
          simp only [Shader.verdict, h.readText fresh, read, source, wrote,
            h.writeText_error named wrote]
        | ok written =>
          have verdict : shader.verdict start path = .ok (some moved) := by
            simp only [Shader.verdict, read, source, wrote]
          rw [verdict, before moved verdict]

end Through

/-! ### Shading on a site -/

/-- The note on a shaded file. -/
def shadedNote (path : Path) (moved : Shaded) : String :=
  s!"shaded {moved.rewritten} import(s) in {path.str}"

theorem on_shadeFile (shader : Shader) (path : Path) (site : Site) :
    (shader.shadeFile path).on site =
      match shader.verdict site.tree path with
      | .error e => (.error e, site)
      | .ok none => (.ok none, site)
      | .ok (some moved) =>
        match site.tree.writeText path moved.text with
        | .error e => (.error (.write e), site)
        | .ok written =>
          (.ok (some moved.rewritten), { site with tree := written }.noted
            (shadedNote path moved)) := by
  rw [shadeFile, SiteM.on_bind, SiteM.on_look]
  dsimp only
  rw [SiteM.on_bind, SiteM.on_lift, verdict]
  cases site.tree.readText path with
  | error e => rfl
  | ok src =>
    simp only [Except.mapError]
    rw [SiteM.on_bind, SiteM.on_lift]
    cases shader.shadeSource path.text src with
    | error e => rfl
    | ok result =>
      cases result with
      | none => rfl
      | some moved =>
        dsimp only
        rw [SiteM.on_bind, SiteM.on_files, FileM.on_mapError, FileM.on_change]
        cases wrote : site.tree.writeText path moved.text with
        | error e => rfl
        | ok written =>
          dsimp only
          rw [wrote]
          rfl

/-- A file among others that are shaded. -/
theorem Through.shadeFile {shader : Shader} {start : Tree} {done : List Path} {path : Path}
    {site : Site} (h : shader.Through start done site.tree) (fresh : Fresh start done path)
    (log : ∀ p ∈ done, ∀ l, start.locate p = .ok l → start.opened ≠ some l) :
    ∃ after, (shader.shadeFile path).on site = (shader.outcome start path, after) ∧
      shader.Through start (done ++ [path]) after.tree := by
  rw [on_shadeFile, h.verdict_eq fresh, outcome]
  cases verdict : shader.verdict start path with
  | error e => exact ⟨site, rfl, h.skip (by simp [verdict])⟩
  | ok result =>
    cases result with
    | none => exact ⟨site, rfl, h.skip (by simp [verdict])⟩
    | some moved =>
      obtain ⟨written, wrote, through⟩ := h.write fresh verdict
      simp only [wrote]
      refine ⟨_, rfl, through.append ?_ _⟩
      intro p mem l located
      rcases List.mem_append.1 mem with mem | mem
      · exact log p mem l located
      · obtain rfl := List.mem_singleton.1 mem
        exact (fresh l located).1

/-! ### A walk -/

/-- Paths that lead to different places, none of them the log. -/
structure Apart (tree : Tree) (paths : List Path) : Prop where
  log : ∀ p ∈ paths, ∀ l, tree.locate p = .ok l → tree.opened ≠ some l
  places : ∀ p ∈ paths, ∀ q ∈ paths, ∀ l, tree.locate p = .ok l → tree.locate q = .ok l → p = q

theorem Apart.fresh {tree : Tree} {paths done : List Path} (apart : Apart tree paths)
    (sub : done ⊆ paths) {path : Path} (mem : path ∈ paths) (new : path ∉ done) :
    Fresh tree done path := by
  intro l located
  refine ⟨apart.log path mem l located, fun q memQ located' => new ?_⟩
  rwa [apart.places path mem q (sub memQ) l located located']

/-- Whether a walk ends with the outcome of a file. -/
def stops (policy : ShadePolicy) (outcome : Except FileShadeError (Option Nat)) : Bool :=
  policy = .abort && !outcome.isOk

/-- The report on a walk, and the files it came to, as the tree at the start tells them. -/
def tally (shader : Shader) (policy : ShadePolicy) (tree : Tree) (report : ShadeReport) :
    List Path → ShadeReport
  | [] => report
  | path :: rest =>
    let outcome := shader.outcome tree path
    let report := report.record path outcome
    if stops policy outcome then { report with aborted := true }
    else shader.tally policy tree report rest

@[inherit_doc tally]
def visited (shader : Shader) (policy : ShadePolicy) (tree : Tree) : List Path → List Path
  | [] => []
  | path :: rest =>
    path :: if stops policy (shader.outcome tree path) then [] else shader.visited policy tree rest

theorem visited_subset (shader : Shader) (policy : ShadePolicy) (tree : Tree) (paths : List Path) :
    shader.visited policy tree paths ⊆ paths := by
  induction paths with
  | nil => exact List.Subset.refl _
  | cons path rest ih =>
    rw [visited]
    apply List.cons_subset_cons
    split
    · exact List.nil_subset _
    · exact ih

/-- Shading files in order. -/
theorem Through.shadeFiles {shader : Shader} {start : Tree} (policy : ShadePolicy)
    {paths done : List Path} {site : Site} (h : shader.Through start done site.tree)
    (apart : Apart start (done ++ paths)) (nodup : (done ++ paths).Nodup) (report : ShadeReport) :
    ∃ after, (shader.shadeFiles policy report paths).on site =
        (.ok (shader.tally policy start report paths), after) ∧
      shader.Through start (done ++ shader.visited policy start paths) after.tree := by
  induction paths generalizing done site report with
  | nil => exact ⟨site, rfl, by rwa [visited, List.append_nil]⟩
  | cons path rest ih =>
    have fresh : Fresh start done path :=
      apart.fresh (List.subset_append_left ..) (by simp) fun mem =>
        (List.nodup_append.1 nodup).2.2 path mem path (by simp) rfl
    obtain ⟨after, shaded, through⟩ := h.shadeFile fresh fun p mem => apart.log p (by simp [mem])
    rw [Shader.shadeFiles, SiteM.on_bind, SiteM.on_attempt, shaded, tally, visited]
    dsimp only
    have decided : (policy = .abort ∧ (!(shader.outcome start path).isOk) = true) ↔
        stops policy (shader.outcome start path) = true := by
      simp [stops]
    by_cases ends : stops policy (shader.outcome start path) = true
    · rw [if_pos (decided.2 ends), if_pos ends, if_pos ends]
      exact ⟨after, rfl, through⟩
    · rw [if_neg (mt decided.1 ends), if_neg ends, if_neg ends]
      rw [List.append_cons] at apart nodup ⊢
      exact ih through apart nodup (report.record path (shader.outcome start path))

end Shader

/-! ### Walks below a root -/

/-- What a walk asks of a tree: it is sound, the root lies in it, and the log is none of the
files to shade. -/
structure Tree.Walkable (tree : Tree) (root : Path) : Prop where
  sound : tree.Sound
  inside : tree.Inside root
  log : ∀ loc rel, tree.locate root = .ok loc → tree.opened = some (loc ++ rel) →
    (Tree.pathIn root rel).isGoFile = false

namespace Shader

variable {shader : Shader} {start tree : Tree} {root : Path} {paths : List Path}

/-- The path of a file below the root leads to the file or nowhere. -/
theorem eq_of_locate (walkable : start.Walkable root) {loc rel l : Location}
    (located : start.locate root = .ok loc) {node : Node}
    (found : start.find? (loc ++ rel) = some node)
    (here : start.locate (Tree.pathIn root rel) = .ok l) : l = loc ++ rel :=
  Tree.eq_of_locate_pathIn walkable.inside located (fun _ => walkable.sound.isName found) here

/-- A walk comes to different places. -/
theorem apart_of_filesToShade (walkable : start.Walkable root)
    (collected : start.filesToShade root = .ok paths) : Apart start paths := by
  obtain ⟨loc, node, found, -, mem⟩ := Tree.filesToShade_eq_ok walkable.sound collected
  obtain ⟨located, -⟩ := Tree.lookup_eq_ok_iff.1 found
  constructor
  · intro p memP l here isOpen
    obtain ⟨rel, content, rfl, file⟩ := (mem p).1 memP
    rw [eq_of_locate walkable located file.found here] at isOpen
    have other := walkable.log loc rel located isOpen
    rw [file.isGo] at other
    cases other
  · intro p memP q memQ l here here'
    obtain ⟨rel, content, rfl, file⟩ := (mem p).1 memP
    obtain ⟨rel', content', rfl, file'⟩ := (mem q).1 memQ
    have same := (eq_of_locate walkable located file.found here).symm.trans
      (eq_of_locate walkable located file'.found here')
    rw [List.append_cancel_left same]

/-- A tree in which files are shaded can be walked like the one at the start. -/
theorem Through.walkable {done : List Path} (h : shader.Through start done tree)
    (walkable : start.Walkable root) : tree.Walkable root where
  sound := h.sound
  inside := (Tree.inside_congr h.base).2 walkable.inside
  log := by
    intro loc rel located isOpen
    rw [h.locate] at located
    rw [h.opened] at isOpen
    exact walkable.log loc rel located isOpen

theorem on_shadeTree_of_error (policy : ShadePolicy) {site : Site} {e : SplitError}
    (refused : site.tree.filesToShade root = .error e) :
    (shader.shadeTree policy root).on site = (.error e, site) := by
  rw [shadeTree, SiteM.on_bind, SiteM.on_look]
  dsimp only
  rw [SiteM.on_bind, SiteM.on_lift, refused]

/-- The line on a walk. -/
def walkNote (root : Path) (report : ShadeReport) : String :=
  s!"shading {root.str}: {report.filesVisited} visited, "
    ++ s!"{report.filesRewritten} rewritten, {report.failures.length} failed"

/-- Shading a tree gives the report, and the tree, that can be told from the start. -/
theorem on_shadeTree (shader : Shader) (policy : ShadePolicy) {site : Site}
    (walkable : site.tree.Walkable root) (collected : site.tree.filesToShade root = .ok paths) :
    ∃ after, (shader.shadeTree policy root).on site =
        (.ok (shader.tally policy site.tree .empty paths), after) ∧
      shader.Through site.tree (shader.visited policy site.tree paths) after.tree := by
  have apart := apart_of_filesToShade walkable collected
  obtain ⟨-, -, -, nodup, -⟩ := Tree.filesToShade_eq_ok walkable.sound collected
  obtain ⟨after, ran, through⟩ := (Through.refl shader walkable.sound).shadeFiles policy
    (List.nil_append paths ▸ apart) (List.nil_append paths ▸ nodup) .empty
  rw [List.nil_append] at through
  refine ⟨after.noted (walkNote root (shader.tally policy site.tree .empty paths)), ?_,
    through.append (fun p mem => apart.log p (shader.visited_subset _ _ _ mem)) _⟩
  rw [shadeTree, SiteM.on_bind, SiteM.on_look]
  dsimp only
  rw [SiteM.on_bind, SiteM.on_lift, collected]
  dsimp only
  rw [SiteM.on_bind_of_ok ran]
  rfl

/-! ### Walks without failures -/

theorem failures_record (report : ShadeReport) (path : Path)
    (outcome : Except FileShadeError (Option Nat)) :
    (report.record path outcome).failures = [] ↔ report.failures = [] ∧ outcome.isOk = true := by
  match outcome with
  | .ok none => simp [ShadeReport.record, Except.isOk, Except.toBool]
  | .ok (some count) => simp [ShadeReport.record, Except.isOk, Except.toBool]
  | .error e => simp [ShadeReport.record, Except.isOk, Except.toBool]

/-- A report without failures is one on files of which none failed. -/
theorem tally_failures_eq_nil_iff {policy : ShadePolicy} {report : ShadeReport} :
    (shader.tally policy tree report paths).failures = [] ↔
      report.failures = [] ∧ ∀ path ∈ paths, (shader.outcome tree path).isOk = true := by
  induction paths generalizing report with
  | nil => simp [tally]
  | cons path rest ih =>
    rw [tally, List.forall_mem_cons]
    by_cases ends : stops policy (shader.outcome tree path) = true
    · have failed : (shader.outcome tree path).isOk = false := by
        rw [stops, Bool.and_eq_true, Bool.not_eq_true'] at ends
        exact ends.2
      rw [if_pos ends]
      refine iff_of_false (fun none => ?_) fun ⟨_, ok, _⟩ => by simp [failed] at ok
      have ok := ((failures_record ..).1 none).2
      simp [failed] at ok
    · rw [if_neg ends, ih, failures_record, and_assoc]

/-- A walk in which no file fails comes to every file. -/
theorem visited_of_isOk (policy : ShadePolicy)
    (all : ∀ path ∈ paths, (shader.outcome tree path).isOk = true) :
    shader.visited policy tree paths = paths := by
  induction paths with
  | nil => rfl
  | cons path rest ih =>
    obtain ⟨ok, others⟩ := List.forall_mem_cons.1 all
    have goesOn : stops policy (shader.outcome tree path) = false := by simp [stops, ok]
    rw [visited, goesOn, if_neg Bool.false_ne_true, ih others]

/-- The bytes of a Go file after shading. -/
def shadeContent (shader : Shader) (path : Path) (content : Content) : Content :=
  match content.text? with
  | none => content
  | some src =>
    match shader.shadeSource path.text src with
    | .ok (some moved) => .ofText moved.text
    | _ => content

/-- A file that did not fail is text that can be shaded. -/
theorem exists_shadeSource {path : Path} {loc : Location} {content : Content}
    (ok : (shader.outcome tree path).isOk = true)
    (only : ∀ l, tree.locate path = .ok l → l = loc)
    (file : tree.find? loc = some (.file content)) :
    ∃ src result, tree.locate path = .ok loc ∧ content.text? = some src ∧
      shader.shadeSource path.text src = .ok result ∧ shader.verdict tree path = .ok result := by
  obtain ⟨result, verdict⟩ : ∃ result, shader.verdict tree path = .ok result := by
    cases verdict : shader.verdict tree path with
    | error e => simp [outcome, verdict, Except.map, Except.isOk, Except.toBool] at ok
    | ok result => exact ⟨result, rfl⟩
  have given := verdict
  unfold Shader.verdict at given
  split at given
  · cases given
  next src read =>
  obtain ⟨l, content', located, file', decoded⟩ := readText_eq_ok_iff.1 read
  obtain rfl := only l located
  rw [file] at file'
  cases file'
  refine ⟨src, result, located, decoded, ?_, verdict⟩
  split at given
  · cases given
  · next source =>
    cases given
    exact source
  · next moved source =>
    split at given
    · cases given
    · cases given
      exact source

/-- After a walk without failures every Go file below the root is shaded, and nothing else
has changed but the log. -/
theorem Through.find?_of_all (h : shader.Through start paths tree) (walkable : start.Walkable root)
    (collected : start.filesToShade root = .ok paths)
    (all : ∀ path ∈ paths, (shader.outcome start path).isOk = true) {loc : Location}
    (located : start.locate root = .ok loc) :
    (∀ rel content, start.GoFile root loc rel content →
      tree.find? (loc ++ rel) =
        some (.file (shader.shadeContent (Tree.pathIn root rel) content))) ∧
    ∀ l, start.opened ≠ some l → (∀ rel content, l = loc ++ rel →
      ¬ start.GoFile root loc rel content) →
      tree.find? l = start.find? l := by
  obtain ⟨loc', node, found, -, mem⟩ := Tree.filesToShade_eq_ok walkable.sound collected
  have same := (Tree.lookup_eq_ok_iff.1 found).1
  rw [located] at same
  cases same
  constructor
  · intro rel content file
    have memP := (mem (Tree.pathIn root rel)).2 ⟨rel, content, rfl, file⟩
    obtain ⟨src, result, here, decoded, source, verdict⟩ := exists_shadeSource (all _ memP)
      (fun l => eq_of_locate walkable located file.found) file.found
    cases result with
    | some moved =>
      rw [h.shaded _ memP _ moved here verdict]
      simp only [shadeContent, decoded, source]
    | none =>
      simp only [shadeContent, decoded, source]
      rw [← file.found]
      have apart := apart_of_filesToShade walkable collected
      refine h.same _ (apart.log _ memP _ here) fun p memP' moved here' verdict' => ?_
      rw [apart.places p memP' _ memP _ here' here, verdict] at verdict'
      cases verdict'
  · intro l apart free
    refine h.same l apart fun p memP moved here verdict => ?_
    obtain ⟨rel, content, rfl, file⟩ := (mem p).1 memP
    exact free rel content (eq_of_locate walkable located file.found here) file

end Shader

end GoSplit
