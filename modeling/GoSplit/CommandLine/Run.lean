import GoSplit.CommandLine
import GoSplit.Report

/-!
Carrying out a command line. The exit status and the two streams are read off how the
run ended and what it told. The debug log, when there is one, is open from the start
and begins with the request.
-/

namespace GoSplit.CommandLine

/-- What a run finds around it. -/
structure Environment where
  programs : Programs
  /-- Where notes are written. -/
  debugLog : Option Path
  /-- Sets the workspace of this run apart from others. -/
  suffix : Text
  /-- Milliseconds the run takes, as far as it is told. -/
  elapsed : Nat

structure Outcome where
  status : Nat
  output : Text
  errors : Text
  tree : Tree

/-! ### Commands -/

def job (env : Environment) (config : Config) : Job where
  config := config
  toolchain := Toolchain.ofProgram env.programs config.goBinary config.verbose
  pruner := config.prunerFrom env.programs
  suffix := env.suffix

def warnEach : List String → RunM Unit
  | [] => pure ()
  | warning :: rest => do
    SiteM.warn s!"warning: {warning}"
    warnEach rest

def SplitArgs.run (env : Environment) (args : SplitArgs) : RunM Unit := do
  let config ← SiteM.lift (← SiteM.look args.config)
  let report ← (job env config).split args.input
  warnEach report.warnings
  SiteM.say (s!"Split {args.input.str} into {report.layout.root.str} "
    ++ s!"({report.buckets.length} files, {report.shading.importsRewritten} imports shaded)")
  match args.reportFile with
  | none => pure ()
  | some path =>
    let text := (report.toJson env.elapsed).text
    Site.change path fun tree => tree.writeText path text

def ShadeArgs.run (env : Environment) (args : ShadeArgs) : RunM Unit := do
  let config ← SiteM.lift (← SiteM.look args.common.config)
  let report ← (job env config).shade args.root args.space
  SiteM.say (s!"Shaded {report.importsRewritten} imports in "
    ++ s!"{report.filesRewritten} of {report.filesVisited} files")

def partialOutputNote : String :=
  "note: the output directory may be partially written; inspect or remove it before re-running"

/-- Carries out a command and gives the exit status. -/
def carryOut (env : Environment) (args : List Text) : SiteM Empty Nat := do
  match parse args with
  | .error e =>
    SiteM.warn e.text
    return 2
  | .ok .help =>
    SiteM.say helpText
    return 0
  | .ok .version =>
    SiteM.say versionText
    return 0
  | .ok (.split args) =>
    SiteM.note args.text.str
    report (← SiteM.attempt (args.run env))
  | .ok (.shade args) =>
    SiteM.note args.text.str
    report (← SiteM.attempt (args.run env))
where
  report : Except SplitError Unit → SiteM Empty Nat
    | .ok () => return 0
    | .error e => do
      SiteM.warn s!"error: {e.message}"
      if e.leavesPartialOutput then SiteM.warn partialOutputNote
      return e.exitStatus

/-- Opens the log that was asked for; without it notes are dropped. -/
def openLog (env : Environment) : SiteM Empty Unit := do
  match env.debugLog with
  | none => pure ()
  | some path =>
    match Log.start (← SiteM.look id) path with
    | .error _ => pure ()
    | .ok tree =>
      modify fun site => { site with tree }
      SiteM.warn s!"Debug logging enabled: {path.str}"

def output (journal : List Event) : Text :=
  journal.flatMap fun
    | .said line => line.toList ++ ['\n']
    | _ => []

def errors (journal : List Event) : Text :=
  journal.flatMap fun
    | .warned line => line.toList ++ ['\n']
    | _ => []

/-- Runs the program on a tree. -/
def run (env : Environment) (args : List Text) (tree : Tree) : Outcome :=
  let action : SiteM Empty Nat := do
    openLog env
    carryOut env args
  let (result, site) := action.on (Site.start tree env.elapsed)
  let status := match result with
    | .ok status => status
    | .error e => e.elim
  ⟨status, output site.journal, errors site.journal, Log.close site.tree⟩

end GoSplit.CommandLine
