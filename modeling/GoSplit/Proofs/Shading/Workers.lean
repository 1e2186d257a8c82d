import GoSplit.Proofs.Shading
import GoSplit.Proofs.Shading.Files

/-!
Shading files side by side. Every file has a worker of its own: it reads the file, registers
it in a file set that all share, parses it, looks up the position of a fault, and writes the
file back. The workers take their steps in any order; their outcomes are put together in the
order of the files. Nothing shows the order of the steps but the file set and the log.
-/

namespace GoSplit

/-! ### The workers -/

/-- How far the worker of a file has come. -/
inductive Stage where
  | waiting
  | read (src : Text)
  | registered (src : Text) (handle : FileSet.Handle)
  | faulty (fault : ParseFault) (handle : FileSet.Handle)
  | parsed (src : Text) (file : SourceFile)
  | shaded (moved : Shaded)
  | written (moved : Shaded)
  | finished (outcome : Except FileShadeError (Option Nat))

/-- What the workers share, and how far each has come. -/
structure Workshop where
  site : Site
  set : FileSet
  stage : Nat → Stage

namespace Workshop

/-- The next step of the worker of a file, the site and the file set after it, and how far the
worker is then. -/
def work (shader : Shader) (path : Path) (site : Site) (set : FileSet) :
    Stage → Site × FileSet × Stage
  | .waiting =>
    match site.tree.readText path with
    | .error e => (site, set, .finished (.error (.read e)))
    | .ok src => (site, set, .read src)
  | .read src =>
    let (handle, set) := set.add path.text src
    (site, set, .registered src handle)
  | .registered src handle =>
    match SourceFile.ofSource src with
    | .error fault => (site, set, .faulty fault handle)
    | .ok file => (site, set, .parsed src file)
  | .faulty fault handle =>
    let error : ParseError := ⟨fault.cause, set.position handle fault.offset⟩
    (site, set, .finished (.error (.source (.parse error))))
  | .parsed src file =>
    match (file.importSpecs.filter shader.moves).map shader.edit with
    | [] => (site, set, .finished (.ok none))
    | edits =>
      match Edit.applyAll src edits with
      | .error e => (site, set, .finished (.error (.source (.edit e))))
      | .ok text => (site, set, .shaded ⟨text, edits.length⟩)
  | .shaded moved =>
    match site.tree.writeText path moved.text with
    | .error e => (site, set, .finished (.error (.write e)))
    | .ok tree => ({ site with tree }, set, .written moved)
  | .written moved =>
    (site.noted (Shader.shadedNote path moved), set, .finished (.ok (some moved.rewritten)))
  | .finished outcome => (site, set, .finished outcome)

/-- A worker takes a step. -/
def step (shader : Shader) (files : List Path) (shop : Workshop) (worker : Nat) : Workshop :=
  match files[worker]? with
  | none => shop
  | some path =>
    let (site, set, stage) := work shader path shop.site shop.set (shop.stage worker)
    ⟨site, set, Function.update shop.stage worker stage⟩

/-- The workers take steps as a schedule has it. -/
def run (shader : Shader) (files : List Path) (schedule : List Nat) (shop : Workshop) : Workshop :=
  schedule.foldl (step shader files) shop

/-- Puts the outcomes together in the order of the files, when all workers are done. -/
def gather (stage : Nat → Stage) (report : ShadeReport) (worker : Nat) :
    List Path → Option ShadeReport
  | [] => some report
  | path :: rest =>
    match stage worker with
    | .finished outcome => gather stage (report.record path outcome) (worker + 1) rest
    | _ => none

end Workshop

/-- Shades a tree with a worker for every file; none when the schedule ends before they are
done. The file set may hold other files before. -/
def Shader.shadeTogether (shader : Shader) (root : Path) (set : FileSet) (schedule : List Nat)
    (site : Site) : Option (Except SplitError ShadeReport × Site) :=
  match site.tree.filesToShade root with
  | .error e => some (.error e, site)
  | .ok files =>
    let shop := Workshop.run shader files schedule ⟨site, set, fun _ => .waiting⟩
    (Workshop.gather shop.stage .empty 0 files).map fun report =>
      (.ok report, shop.site.noted (walkNote root report))

/-! ### The file set -/

namespace FileSet

/-- The entry that a handle names. -/
def entryOf (set : FileSet) (handle : Handle) : Option Entry := set.files[handle.index]?

theorem entryOf_add (set : FileSet) (name src : Text) :
    (set.add name src).2.entryOf (set.add name src).1 = some (.ofSource name src) := by
  simp [entryOf, add]

/-- A handle stays valid while other files are added. -/
theorem entryOf_add_of_some {set : FileSet} {handle : Handle} {entry : Entry}
    (known : set.entryOf handle = some entry) (name src : Text) :
    (set.add name src).2.entryOf handle = some entry := by
  have bound : handle.index < set.files.length := (List.getElem?_eq_some_iff.1 known).1
  rw [entryOf, add, List.getElem?_append_left bound]
  exact known

theorem position_of_entryOf {set : FileSet} {handle : Handle} {name src : Text}
    (known : set.entryOf handle = some (.ofSource name src)) (offset : Nat) :
    set.position handle offset = Position.locate name src offset := by
  have here : set.files[handle.index]? = some (.ofSource name src) := known
  rw [position, here]
  rfl

end FileSet

/-! ### What a worker knows -/

namespace Stage

/-- The worker is past changing its file. -/
def past : Stage → Bool
  | .written _ | .finished _ => true
  | _ => false

/-- The steps that are left at most. -/
def left : Stage → Nat
  | .waiting => 6
  | .read _ => 5
  | .registered _ _ => 4
  | .parsed _ _ => 3
  | .shaded _ => 2
  | .faulty _ _ => 1
  | .written _ => 1
  | .finished _ => 0

/-- What a worker has found out is so in the tree at the start. -/
def Tells (shader : Shader) (start : Tree) (set : FileSet) (path : Path) : Stage → Prop
  | .waiting => True
  | .read src => start.readText path = .ok src
  | .registered src handle =>
    start.readText path = .ok src ∧ set.entryOf handle = some (.ofSource path.text src)
  | .faulty fault handle => ∃ src, start.readText path = .ok src ∧
    set.entryOf handle = some (.ofSource path.text src) ∧ SourceFile.ofSource src = .error fault
  | .parsed src file => start.readText path = .ok src ∧ SourceFile.ofSource src = .ok file
  | .shaded moved => ∃ src, start.readText path = .ok src ∧
    shader.shadeSource path.text src = .ok (some moved)
  | .written moved => shader.verdict start path = .ok (some moved)
  | .finished outcome => outcome = shader.outcome start path

/-- It is so whatever other files are registered. -/
theorem Tells.mono {shader : Shader} {start : Tree} {set set' : FileSet} {path : Path}
    {stage : Stage} (grows : ∀ handle entry, set.entryOf handle = some entry →
      set'.entryOf handle = some entry)
    (tells : stage.Tells shader start set path) : stage.Tells shader start set' path := by
  cases stage with
  | registered src handle => exact ⟨tells.1, grows _ _ tells.2⟩
  | faulty fault handle =>
    obtain ⟨src, read, known, found⟩ := tells
    exact ⟨src, read, grows _ _ known, found⟩
  | _ => exact tells

end Stage

namespace Workshop

variable {shader : Shader} {start : Tree}

theorem left_work (path : Path) (site : Site) (set : FileSet) (stage : Stage) :
    (work shader path site set stage).2.2.left ≤ stage.left - 1 := by
  cases stage with
  | waiting =>
    rw [work]
    split <;> simp [Stage.left]
  | read src => simp [work, Stage.left]
  | registered src handle =>
    rw [work]
    split <;> simp [Stage.left]
  | faulty fault handle => simp [work, Stage.left]
  | parsed src file =>
    rw [work]
    split
    · simp [Stage.left]
    · split <;> simp [Stage.left]
  | shaded moved =>
    rw [work]
    split <;> simp [Stage.left]
  | written moved => simp [work, Stage.left]
  | finished outcome => simp [work, Stage.left]

/-- What a step of a worker does: the handles given out stay valid, what the worker knows is
so, and the tree is one in which the files of the workers that are past are shaded. -/
structure Advances (shader : Shader) (start : Tree) (path : Path) (done : List Path)
    (set : FileSet) (stage : Stage) (next : Site × FileSet × Stage) : Prop where
  grows : ∀ handle entry, set.entryOf handle = some entry → next.2.1.entryOf handle = some entry
  tells : next.2.2.Tells shader start next.2.1 path
  through : (next.2.2.past = stage.past ∧ shader.Through start done next.1.tree) ∨
    (stage.past = false ∧ next.2.2.past = true ∧
      shader.Through start (done ++ [path]) next.1.tree)

/-- One step of a worker. -/
theorem advances {path : Path} {done : List Path} {site : Site} {set : FileSet} {stage : Stage}
    (through : shader.Through start done site.tree)
    (fresh : stage.past = false → Shader.Fresh start done path)
    (log : ∀ p ∈ done, ∀ l, start.locate p = .ok l → start.opened ≠ some l)
    (tells : stage.Tells shader start set path) :
    Advances shader start path done set stage (work shader path site set stage) := by
  -- A worker that gives up on its file leaves it as it is.
  have gives : ∀ e, stage.past = false → shader.verdict start path = .error e →
      Advances shader start path done set stage (site, set, .finished (.error e)) := by
    intro e before verdict
    refine ⟨fun _ _ known => known, ?_, .inr ⟨before, rfl, through.skip (by simp [verdict])⟩⟩
    simp [Stage.Tells, Shader.outcome, verdict, Except.map]
  cases stage with
  | waiting =>
    have same := through.readText (fresh rfl)
    cases read : start.readText path with
    | error e =>
      simp only [work, same, read]
      exact gives _ rfl (by simp [Shader.verdict, read])
    | ok src =>
      simp only [work, same, read]
      exact ⟨fun _ _ known => known, read, .inl ⟨rfl, through⟩⟩
  | read src =>
    exact ⟨fun _ _ known => FileSet.entryOf_add_of_some known _ _,
      ⟨tells, FileSet.entryOf_add set path.text src⟩, .inl ⟨rfl, through⟩⟩
  | registered src handle =>
    obtain ⟨read, known⟩ := tells
    cases parsed : SourceFile.ofSource src with
    | error fault =>
      simp only [work, parsed]
      exact ⟨fun _ _ known => known, ⟨src, read, known, parsed⟩, .inl ⟨rfl, through⟩⟩
    | ok file =>
      simp only [work, parsed]
      exact ⟨fun _ _ known => known, ⟨read, parsed⟩, .inl ⟨rfl, through⟩⟩
  | faulty fault handle =>
    obtain ⟨src, read, known, parsed⟩ := tells
    simp only [work, FileSet.position_of_entryOf known]
    apply gives _ rfl
    simp [Shader.verdict, read, Shader.shadeSource, SourceFile.parse, parsed, Except.mapError,
      ParseFault.locate]
  | parsed src file =>
    obtain ⟨read, parsed⟩ := tells
    have source : shader.shadeSource path.text src =
        match (file.importSpecs.filter shader.moves).map shader.edit with
        | [] => .ok none
        | edits =>
          match Edit.applyAll src edits with
          | .error e => .error (.edit e)
          | .ok text => .ok (some ⟨text, edits.length⟩) := by
      rw [Shader.shadeSource, SourceFile.parse, parsed]
      rfl
    rw [work]
    generalize (file.importSpecs.filter shader.moves).map shader.edit = edits at source
    cases edits with
    | nil =>
      have verdict : shader.verdict start path = .ok none := by
        simp only [Shader.verdict, read, source]
      refine ⟨fun _ _ known => known, ?_, .inr ⟨rfl, rfl, through.skip (by simp [verdict])⟩⟩
      simp [Stage.Tells, Shader.outcome, verdict, Except.map]
    | cons edit edits =>
      dsimp only at source ⊢
      cases applied : Edit.applyAll src (edit :: edits) with
      | error e =>
        rw [applied] at source
        exact gives _ rfl (by simp [Shader.verdict, read, source])
      | ok text =>
        rw [applied] at source
        exact ⟨fun _ _ known => known, ⟨src, read, source⟩, .inl ⟨rfl, through⟩⟩
  | shaded moved =>
    obtain ⟨src, read, source⟩ := tells
    cases wrote : start.writeText path moved.text with
    | error e =>
      obtain ⟨loc, content, located, file, -⟩ := Shader.readText_eq_ok_iff.1 read
      obtain ⟨name, named⟩ := Tree.exists_names_of_file located file
      simp only [work, through.writeText_error named wrote]
      exact gives _ rfl (by simp [Shader.verdict, read, source, wrote])
    | ok tree =>
      have verdict : shader.verdict start path = .ok (some moved) := by
        simp only [Shader.verdict, read, source, wrote]
      obtain ⟨written, wrote', after⟩ := through.write (fresh rfl) verdict
      simp only [work, wrote']
      exact ⟨fun _ _ known => known, verdict, .inr ⟨rfl, rfl, after⟩⟩
  | written moved =>
    refine ⟨fun _ _ known => known, ?_, .inl ⟨rfl, through.append log _⟩⟩
    have verdict : shader.verdict start path = .ok (some moved) := tells
    simp [Stage.Tells, work, Shader.outcome, verdict, Except.map]
  | finished outcome =>
    exact ⟨fun _ _ known => known, tells, .inl ⟨rfl, through⟩⟩

/-! ### Runs -/

/-- What every worker knows is so, and the files of those that are past are shaded. -/
structure Along (shader : Shader) (start : Tree) (files : List Path) (shop : Workshop) : Prop where
  tells : ∀ worker path, files[worker]? = some path →
    (shop.stage worker).Tells shader start shop.set path
  through : ∃ done, shader.Through start done shop.site.tree ∧
    ∀ path, path ∈ done ↔ ∃ worker, files[worker]? = some path ∧ (shop.stage worker).past = true

variable {files : List Path}

theorem Along.waiting (shader : Shader) {site : Site} (sound : site.tree.Sound) (set : FileSet) :
    Along shader site.tree files ⟨site, set, fun _ => .waiting⟩ :=
  ⟨fun _ _ _ => trivial, [], .refl shader sound, by simp [Stage.past]⟩

theorem Along.step (apart : Shader.Apart start files) (nodup : files.Nodup) {shop : Workshop}
    (h : Along shader start files shop) (worker : Nat) :
    Along shader start files (shop.step shader files worker) := by
  rw [Workshop.step]
  cases here : files[worker]? with
  | none => exact h
  | some path =>
    obtain ⟨done, through, mem⟩ := h.through
    -- Another worker has another file.
    have own : ∀ other, files[other]? = some path → other = worker := by
      intro other there
      obtain ⟨bound, at'⟩ := List.getElem?_eq_some_iff.1 there
      obtain ⟨bound', at''⟩ := List.getElem?_eq_some_iff.1 here
      exact nodup.getElem_inj_iff.1 (at'.trans at''.symm)
    have sub : done ⊆ files := by
      intro p memP
      obtain ⟨other, there, -⟩ := (mem p).1 memP
      exact List.mem_of_getElem? there
    have fresh : (shop.stage worker).past = false → Shader.Fresh start done path := by
      intro before
      refine apart.fresh sub (List.mem_of_getElem? here) fun memP => ?_
      obtain ⟨other, there, past⟩ := (mem path).1 memP
      rw [own other there, before] at past
      cases past
    have advance := advances through fresh (fun p memP => apart.log p (sub memP))
      (h.tells worker path here)
    dsimp only
    generalize work shader path shop.site shop.set (shop.stage worker) = next at advance
    obtain ⟨site, set, stage⟩ := next
    obtain ⟨grows, tells, tree⟩ := advance
    refine ⟨fun other p there => ?_, ?_⟩
    · dsimp only
      by_cases same : other = worker
      · rw [same, here] at there
        cases there
        rw [same, Function.update_self]
        exact tells
      · rw [Function.update_of_ne same]
        exact (h.tells other p there).mono grows
    · rcases tree with ⟨past, tree⟩ | ⟨before, past, tree⟩
      · refine ⟨done, tree, fun p => (mem p).trans (exists_congr fun other => and_congr_right ?_)⟩
        intro there
        dsimp only at past ⊢
        by_cases same : other = worker
        · rw [same, Function.update_self, past]
        · rw [Function.update_of_ne same]
      · refine ⟨done ++ [path], tree, fun p => ?_⟩
        dsimp only at past ⊢
        rw [List.mem_append, List.mem_singleton, mem]
        constructor
        · rintro (⟨other, there, past'⟩ | rfl)
          · refine ⟨other, there, ?_⟩
            have same : other ≠ worker := by
              rintro rfl
              rw [before] at past'
              cases past'
            rwa [Function.update_of_ne same]
          · exact ⟨worker, here, by rwa [Function.update_self]⟩
        · rintro ⟨other, there, past'⟩
          by_cases same : other = worker
          · rw [same, here] at there
            cases there
            exact .inr rfl
          · rw [Function.update_of_ne same] at past'
            exact .inl ⟨other, there, past'⟩

theorem Along.run (apart : Shader.Apart start files) (nodup : files.Nodup) {shop : Workshop}
    (h : Along shader start files shop) (schedule : List Nat) :
    Along shader start files (shop.run shader files schedule) := by
  induction schedule generalizing shop with
  | nil => exact h
  | cons worker schedule ih => exact ih (h.step apart nodup worker)

/-- A step of a worker leaves it fewer steps, and the others as many as before. -/
theorem left_step (shader : Shader) (shop : Workshop) (worker other : Nat)
    (bound : other < files.length) :
    ((shop.step shader files worker).stage other).left ≤
      (shop.stage other).left - if worker = other then 1 else 0 := by
  rw [Workshop.step]
  split
  · next absent =>
    have apart : worker ≠ other := by
      rintro rfl
      rw [List.getElem?_eq_none_iff] at absent
      omega
    rw [if_neg apart]
    exact Nat.le_refl _
  · next path here =>
    dsimp only
    by_cases same : worker = other
    · rw [same, Function.update_self, if_pos rfl, ← same]
      exact left_work path shop.site shop.set (shop.stage worker)
    · rw [Function.update_of_ne (Ne.symm same), if_neg same]
      exact Nat.le_refl _

theorem left_run (shader : Shader) (shop : Workshop) (schedule : List Nat) (worker : Nat)
    (bound : worker < files.length) :
    ((shop.run shader files schedule).stage worker).left ≤
      (shop.stage worker).left - schedule.count worker := by
  induction schedule generalizing shop with
  | nil => simp [run]
  | cons first schedule ih =>
    have rest := ih (shop.step shader files first)
    have now := left_step shader shop first worker bound
    rw [List.count_cons]
    simp only [beq_iff_eq]
    rw [run] at rest ⊢
    rw [List.foldl_cons]
    omega

/-! ### Outcomes -/

theorem tally_collect_cons (report : ShadeReport) (path : Path) (rest : List Path) :
    shader.tally .collect start report (path :: rest) =
      shader.tally .collect start (report.record path (shader.outcome start path)) rest := rfl

/-- The outcomes that are gathered are those of a walk in order. -/
theorem gather_eq_some {stage : Nat → Stage} {set : FileSet} {report result : ShadeReport} {n : Nat}
    (tells : ∀ i path, files[i]? = some path → (stage (n + i)).Tells shader start set path)
    (gathered : gather stage report n files = some result) :
    result = shader.tally .collect start report files ∧
      ∀ i < files.length, (stage (n + i)).past = true := by
  induction files generalizing n report with
  | nil =>
    cases gathered
    exact ⟨rfl, by simp⟩
  | cons path rest ih =>
    rw [gather] at gathered
    split at gathered
    · next outcome isFinished =>
      have told := tells 0 path rfl
      rw [Nat.add_zero, isFinished] at told
      have same : outcome = shader.outcome start path := told
      rw [same] at gathered
      have later : ∀ i p, rest[i]? = some p → (stage (n + 1 + i)).Tells shader start set p := by
        intro i p there
        rw [Nat.add_right_comm]
        exact tells (i + 1) p (by rwa [List.getElem?_cons_succ])
      obtain ⟨total, past⟩ := ih later gathered
      refine ⟨by rw [total, tally_collect_cons], fun i bound => ?_⟩
      cases i with
      | zero =>
        rw [Nat.add_zero, isFinished]
        rfl
      | succ i =>
        rw [List.length_cons] at bound
        have here := past i (by omega)
        rwa [Nat.add_right_comm] at here
    · cases gathered

theorem gather_isSome {stage : Nat → Stage} {report : ShadeReport} {n : Nat}
    (done : ∀ i < files.length, (stage (n + i)).left = 0) :
    (gather stage report n files).isSome = true := by
  induction files generalizing n report with
  | nil => rfl
  | cons path rest ih =>
    have first := done 0 (by simp)
    rw [Nat.add_zero] at first
    rw [gather]
    cases isStage : stage n with
    | finished outcome =>
      apply ih
      intro i bound
      have here := done (i + 1) (by simpa using bound)
      rwa [← Nat.add_assoc, Nat.add_right_comm] at here
    | _ => simp [isStage, Stage.left] at first

end Workshop

namespace Shader

variable {shader : Shader} {root : Path} {files : List Path} {site : Site}

theorem visited_collect (shader : Shader) (tree : Tree) (paths : List Path) :
    shader.visited .collect tree paths = paths := by
  induction paths with
  | nil => rfl
  | cons path rest ih =>
    have goesOn : stops .collect (shader.outcome tree path) = false := by simp [stops]
    rw [visited, goesOn, if_neg Bool.false_ne_true, ih]

/-- Workers that are done have shaded the files as a walk in order would. -/
theorem through_of_shadeTogether (walkable : site.tree.Walkable root)
    (collected : site.tree.filesToShade root = .ok files) {set : FileSet} {schedule : List Nat}
    {result : Except SplitError ShadeReport} {after : Site}
    (ran : shader.shadeTogether root set schedule site = some (result, after)) :
    result = .ok (shader.tally .collect site.tree .empty files) ∧
      shader.Through site.tree files after.tree := by
  have apart := apart_of_filesToShade walkable collected
  obtain ⟨-, -, -, nodup, -⟩ := Tree.filesToShade_eq_ok walkable.sound collected
  rw [shadeTogether, collected] at ran
  dsimp only at ran
  have along := (Workshop.Along.waiting shader walkable.sound set).run apart nodup schedule
  generalize Workshop.run shader files schedule _ = shop at ran along
  obtain ⟨report, gathered, same⟩ := Option.map_eq_some_iff.1 ran
  cases same
  have tells : ∀ i path, files[i]? = some path →
      (shop.stage (0 + i)).Tells shader site.tree shop.set path := by
    intro i path here
    rw [Nat.zero_add]
    exact along.tells i path here
  obtain ⟨total, past⟩ := Workshop.gather_eq_some tells gathered
  obtain ⟨done, through, mem⟩ := along.through
  have all : ∀ path, path ∈ files ↔ path ∈ done := by
    intro path
    rw [mem]
    constructor
    · intro memP
      obtain ⟨i, bound, here⟩ := List.mem_iff_getElem.1 memP
      have past' := past i bound
      rw [Nat.zero_add] at past'
      exact ⟨i, List.getElem?_eq_some_iff.2 ⟨bound, here⟩, past'⟩
    · rintro ⟨i, here, -⟩
      exact List.mem_of_getElem? here
  exact ⟨by rw [total], (through.congr all).append apart.log _⟩

/-- Two trees in which the same files are shaded differ in the log at most. -/
theorem Through.rewritten {start tree tree' : Tree} {done : List Path}
    (h : shader.Through start done tree) (h' : shader.Through start done tree') :
    Tree.Rewritten (fun l => start.opened = some l) tree tree' := by
  refine ⟨h'.base.trans h.base.symm, h'.mounts.trans h.mounts.symm, h'.refuses.trans h.refuses.symm,
    h'.opened.trans h.opened.symm, fun l => h'.directory.trans h.directory.symm, fun l apart => ?_⟩
  by_cases moves : ∃ p ∈ done, ∃ moved, start.locate p = .ok l ∧
      shader.verdict start p = .ok (some moved)
  · obtain ⟨p, mem, moved, located, verdict⟩ := moves
    rw [h.shaded p mem l moved located verdict, h'.shaded p mem l moved located verdict]
  · have stays : ∀ p ∈ done, ∀ moved, start.locate p = .ok l →
        shader.verdict start p ≠ .ok (some moved) :=
      fun p mem moved located verdict => moves ⟨p, mem, moved, located, verdict⟩
    rw [h.same l apart stays, h'.same l apart stays]

/-- Whatever the order in which the workers take their steps, once they are done the report
is that of a walk in order, the positions in its messages included, and so is every file but
the log. They are done when each has taken its steps. -/
theorem shadeTogether_eq_shadeTree (shader : Shader) (root : Path) (set : FileSet)
    (schedule : List Nat) (site : Site) (walkable : site.tree.Walkable root) :
    (∀ result after, shader.shadeTogether root set schedule site = some (result, after) →
      result = ((shader.shadeTree .collect root).on site).1 ∧
      Tree.Rewritten (fun l => site.tree.opened = some l)
        ((shader.shadeTree .collect root).on site).2.tree after.tree) ∧
    ((∀ files, site.tree.filesToShade root = .ok files →
        ∀ worker < files.length, Stage.waiting.left ≤ schedule.count worker) →
      (shader.shadeTogether root set schedule site).isSome = true) := by
  cases collected : site.tree.filesToShade root with
  | error e =>
    rw [on_shadeTree_of_error .collect collected, shadeTogether, collected]
    refine ⟨fun result after ran => ?_, fun _ => rfl⟩
    cases ran
    exact ⟨rfl, .refl _ _⟩
  | ok files =>
    obtain ⟨inOrder, ran, through⟩ := on_shadeTree shader .collect walkable collected
    rw [visited_collect] at through
    rw [ran]
    constructor
    · intro result after ran'
      obtain ⟨report, through'⟩ := through_of_shadeTogether walkable collected ran'
      exact ⟨report, through.rewritten through'⟩
    · intro fair
      rw [shadeTogether, collected, Option.isSome_map]
      apply Workshop.gather_isSome
      intro worker bound
      rw [Nat.zero_add]
      have left := Workshop.left_run shader ⟨site, set, fun _ => .waiting⟩ schedule worker bound
      have turns := fair files rfl worker bound
      dsimp only at left
      omega

/-- A file with a fault beside one without. -/
def sampleSite : Site :=
  .start { Tree.empty ['/', 'w'] with
    entries := [([['m']], .directory), ([['m'], "a.go".toList], .file (.ofText "package m".toList)),
      ([['m'], "b.go".toList], .file (.ofText "package m\n\nvar x = (".toList))] } 0

/-- The worker of the second file registers it first. -/
theorem shadeTogether_sample :
    ∃ report after, sample.shadeTogether ⟨['m']⟩ .empty [1, 0, 1, 0, 0, 1, 0, 1, 0, 0, 1, 1]
      sampleSite =
        some (.ok report, after) ∧
      ((sample.shadeTree .collect ⟨['m']⟩).on sampleSite).1 = .ok report ∧
      report.filesVisited = 2 ∧
      report.failures = [⟨⟨"m/b.go".toList⟩, "m/b.go:3:9: '(' is never closed"⟩] := by
  have walkable : sampleSite.tree.Walkable ⟨['m']⟩ :=
    { sound := by decide +kernel
      inside := by simp [Tree.Inside, Path.isAbsolute]
      log := by intro _ _ _ isOpen; cases isOpen }
  have found : sampleSite.tree.lookup ⟨['m']⟩ = .ok ([['m']], .directory) := by decide +kernel
  have files : sampleSite.tree.filesToShade ⟨['m']⟩ =
      .ok [⟨"m/a.go".toList⟩, ⟨"m/b.go".toList⟩] := by
    rw [Tree.filesToShade_eq_of_perm walkable.sound found (.refl _) (by decide +kernel)
      (by decide +kernel)]
    decide +kernel
  obtain ⟨after, inOrder, -⟩ := on_shadeTree sample .collect walkable files
  obtain ⟨same, done⟩ := shadeTogether_eq_shadeTree sample ⟨['m']⟩ .empty
    [1, 0, 1, 0, 0, 1, 0, 1, 0, 0, 1, 1] sampleSite walkable
  have finished := done fun files' eq worker bound => by
    rw [files] at eq
    cases eq
    have either : worker = 0 ∨ worker = 1 := by
      simp only [List.length_cons, List.length_nil] at bound
      omega
    rcases either with rfl | rfl <;> decide
  obtain ⟨⟨result, after'⟩, ran⟩ := Option.isSome_iff_exists.1 finished
  obtain ⟨equal, -⟩ := same result after' ran
  rw [inOrder] at equal
  rw [equal] at ran
  exact ⟨_, after', ran, by rw [inOrder], by decide +kernel, by decide +kernel⟩

end Shader

end GoSplit
