import GoSplit.Error
import GoSplit.Log

/-!
Where a run does its work: a file tree, and a journal of what the run has told so far.
An action either succeeds or stops the run; what it did to the site stays either way.
A note also goes to the debug log, if there is one.
-/

namespace GoSplit

inductive Event where
  /-- A line of output. -/
  | said (line : String)
  /-- A line that tells of trouble. -/
  | warned (line : String)
  /-- A line for the debug log. -/
  | noted (line : String)
  /-- A request to a toolchain. -/
  | requested (call : Text)
  deriving DecidableEq, Repr

structure Site where
  tree : Tree
  /-- The events so far, in order. -/
  journal : List Event
  /-- Milliseconds since the run began, as far as it is told. -/
  elapsed : Nat

/-- Actions on a site that may fail; what was done before a failure stays done. -/
abbrev SiteM (ε α : Type) := ExceptT ε (StateM Site) α

/-- The steps of a run. -/
abbrev RunM (α : Type) := SiteM SplitError α

namespace SiteM

def on {ε α : Type} (action : SiteM ε α) (site : Site) : Except ε α × Site :=
  (ExceptT.run action).run site

def record {ε : Type} (event : Event) : SiteM ε Unit :=
  modify fun site => { site with journal := site.journal ++ [event] }

def say {ε : Type} (line : String) : SiteM ε Unit := record (.said line)

def warn {ε : Type} (line : String) : SiteM ε Unit := record (.warned line)

/-- Notes something, and writes it to the debug log. -/
def note {ε : Type} (line : String) : SiteM ε Unit := do
  record (.noted line)
  modify fun site =>
    { site with tree := site.tree.append (Log.line site.elapsed line.toList) }

/-- Looks at the tree. -/
def look {ε α : Type} (f : Tree → α) : SiteM ε α := do return f (← get).tree

def lift {ε α : Type} : Except ε α → SiteM ε α
  | .ok a => pure a
  | .error e => throw e

/-- An action on the tree alone. -/
def files {ε α : Type} (action : FileM ε α) : SiteM ε α := ExceptT.mk fun site =>
  let (result, tree) := action.on site.tree
  (result, { site with tree })

def mapError {ε δ α : Type} (f : ε → δ) (action : SiteM ε α) : SiteM δ α := ExceptT.mk fun site =>
  let (result, site) := action.on site
  (result.mapError f, site)

/-- Runs an action and hands over its result, failed or not. -/
def attempt {ε δ α : Type} (action : SiteM ε α) : SiteM δ (Except ε α) := ExceptT.mk fun site =>
  let (result, site) := action.on site
  (.ok result, site)

end SiteM

namespace Site

/-- The site at the beginning of a run. -/
def start (tree : Tree) (elapsed : Nat) : Site := ⟨tree, [], elapsed⟩

/-- Changes the tree at a path; a failure is reported on that path. -/
def change (path : Path) (f : Tree → Except IoError Tree) : RunM Unit :=
  SiteM.files (FileM.mapError (.io path) (FileM.change f))

def makeDirs (path : Path) : RunM Unit :=
  SiteM.files (FileM.mapError (.io path) (Tree.makeDirs path))

def removeDirs (path : Path) : RunM Unit :=
  SiteM.files (FileM.mapError (.io path) (Tree.removeDirs path))

end Site

end GoSplit
