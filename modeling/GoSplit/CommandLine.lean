import GoSplit.CommandLine.Words
import GoSplit.Config.File
import GoSplit.Text.Quoted

/-!
The commands of the program and their options. `split` makes a module of a source file,
`shade` shades an existing tree again. Options given on the command line win over the
settings file.
-/

namespace GoSplit.CommandLine

/-- Options of both commands. -/
structure Common where
  workDir : Path
  configFile : Option Path
  verbose : Bool
  noProgress : Bool
  noParallel : Bool
  failFast : Bool
  externalRoots : List Text
  deriving DecidableEq, Repr

structure SplitArgs where
  common : Common
  input : Path
  output : Option Path
  pruner : Option PrunerChoice
  go : Option Text
  goimports : Option Text
  noTidy : Bool
  reportFile : Option Path
  deriving DecidableEq, Repr

structure ShadeArgs where
  common : Common
  root : Path
  /-- The private namespace. -/
  space : Text
  deriving DecidableEq, Repr

inductive Request where
  | help
  | version
  | split (args : SplitArgs)
  | shade (args : ShadeArgs)
  deriving DecidableEq, Repr

/-! ### Requests as the debug log shows them -/

namespace Shown

def flag (b : Bool) : Text := if b then "true".toList else "false".toList

def path (p : Path) : Text := Text.Quoted.encode p.text

def list (items : List Text) : Text := '[' :: Text.joinWith [',', ' '] items ++ [']']

/-- A name with something in parentheses. -/
def call (name : String) (inner : Text) : Text := name.toList ++ '(' :: inner ++ [')']

def optional (value : Option Text) : Text :=
  match value with
  | some shown => call "Some" shown
  | none => "None".toList

/-- A name with named fields in braces. -/
def fields (name : String) (values : List (String × Text)) : Text :=
  let shown := values.map fun (field, value) => field.toList ++ [':', ' '] ++ value
  name.toList ++ " \x7b ".toList ++ Text.joinWith [',', ' '] shown ++ " \x7d".toList

/-- A command of the program. -/
def command (name : String) (args : Text) : Text :=
  fields "App" [("command", call name args)]

end Shown

def Common.text (common : Common) : Text :=
  Shown.fields "CommonArgs" [
    ("work_dir", Shown.path common.workDir),
    ("config", Shown.optional (common.configFile.map Shown.path)),
    ("verbose", Shown.flag common.verbose),
    ("no_progress", Shown.flag common.noProgress),
    ("no_parallel", Shown.flag common.noParallel),
    ("fail_fast", Shown.flag common.failFast),
    ("external_roots", Shown.list (common.externalRoots.map Text.Quoted.encode))]

def prunerText : PrunerChoice → Text
  | .usage => "Usage".toList
  | .goimports => "Goimports".toList

def SplitArgs.text (args : SplitArgs) : Text :=
  Shown.command "Split" (Shown.fields "SplitArgs" [
    ("input", Shown.path args.input),
    ("output", Shown.optional (args.output.map Shown.path)),
    ("common", args.common.text),
    ("pruner", Shown.optional (args.pruner.map prunerText)),
    ("go_binary", Shown.optional (args.go.map Text.Quoted.encode)),
    ("goimports", Shown.optional (args.goimports.map Text.Quoted.encode)),
    ("no_tidy", Shown.flag args.noTidy),
    ("report_json", Shown.optional (args.reportFile.map Shown.path))])

def ShadeArgs.text (args : ShadeArgs) : Text :=
  Shown.command "Shade" (Shown.fields "ShadeArgs" [
    ("root", Shown.path args.root),
    ("prefix", Text.Quoted.encode args.space),
    ("common", args.common.text)])

/-! ### Options -/

def commonOptions : List OptionSpec :=
  [.path "work-dir" (some 'C'), .path "config" none, .flag "verbose" (some 'v'),
   .flag "no-progress" none, .flag "no-parallel" none, .flag "fail-fast" none,
   .list "external-root"]

def splitOptions : List OptionSpec :=
  commonOptions ++
    [.path "output" (some 'o'), .choice "pruner" ["usage", "goimports"], .text "go",
     .text "goimports", .flag "no-tidy" none, .path "report-json" none]

def shadeOptions : List OptionSpec := commonOptions ++ [.text "prefix"]

namespace Given

def path? (given : Given) (option : String) : Option Path := (given.value? option).map Path.mk

def common (given : Given) : Common where
  workDir := (given.path? "work-dir").getD (Path.ofString ".")
  configFile := given.path? "config"
  verbose := given.has "verbose"
  noProgress := given.has "no-progress"
  noParallel := given.has "no-parallel"
  failFast := given.has "fail-fast"
  externalRoots := given.values "external-root"

def splitArgs (given : Given) (input : Path) : SplitArgs where
  common := given.common
  input := input
  output := given.path? "output"
  pruner := (given.value? "pruner").map fun t =>
    if t = "goimports".toList then PrunerChoice.goimports else .usage
  go := given.value? "go"
  goimports := given.value? "goimports"
  noTidy := given.has "no-tidy"
  reportFile := given.path? "report-json"

end Given

def splitRequest : Reading → Except UsageError Request
  | .help => .ok .help
  | .done _ none => .error (.missing "<INPUT>")
  | .done given (some input) => .ok (.split (given.splitArgs ⟨input⟩))

def shadeRequest : Reading → Except UsageError Request
  | .help => .ok .help
  | .done _ none => .error (.missing "<ROOT>")
  | .done given (some root) =>
    match given.value? "prefix" with
    | none => .error (.missing "--prefix")
    | some space => .ok (.shade ⟨given.common, ⟨root⟩, space⟩)

/-- A call for help names at most one command. -/
def helpRequest : List Text → Except UsageError Request
  | [] => .ok .help
  | [name] =>
    if ["split", "shade", "help"].any fun c => c.toList == name then .ok .help
    else .error (.unknownCommand name)
  | _ :: name :: _ => .error (.unknownCommand name)

/-- Reads the whole command line. -/
def parse : List Text → Except UsageError Request
  | [] => .error .missingCommand
  | word :: rest =>
    if word = "split".toList then
      (readWords splitOptions "<INPUT>" [] none rest).bind splitRequest
    else if word = "shade".toList then
      (readWords shadeOptions "<ROOT>" [] none rest).bind shadeRequest
    else if word = "help".toList then helpRequest rest
    else if word = "--help".toList then .ok .help
    else if word = "--version".toList then .ok .version
    else match word with
      | '-' :: 'h' :: _ => .ok .help
      | '-' :: 'V' :: _ => .ok .version
      | _ => .error (if looksLikeOption word then .unknownOption word else .unknownCommand word)

namespace Common

/-- The settings file with the options on top. -/
def config (common : Common) (tree : Tree) : Except SplitError Config := do
  let base ← match common.configFile with
    | some path => Config.load tree path
    | none => (Config.discover tree common.workDir).map fun found => found.getD Config.default
  return { base with
    workDir := common.workDir
    verbose := base.verbose || common.verbose
    progress := base.progress && !common.noProgress
    parallel := base.parallel && !common.noParallel
    shadePolicy := if common.failFast then .abort else base.shadePolicy
    externalRoots := base.externalRoots ++ common.externalRoots }

end Common

def SplitArgs.config (args : SplitArgs) (tree : Tree) : Except SplitError Config := do
  let base ← args.common.config tree
  return { base with
    outputDir := args.output <|> base.outputDir
    pruner := args.pruner.getD base.pruner
    goBinary := args.go.getD base.goBinary
    goimportsBinary := args.goimports.getD base.goimportsBinary
    tidy := base.tidy && !args.noTidy }

def program : String := "go-splitter"

def versionText : String := s!"{program} 0.1.0"

def usage : String :=
  s!"Usage: {program} split [OPTIONS] <INPUT>\n" ++
    s!"       {program} shade [OPTIONS] --prefix <PREFIX> <ROOT>"

/-- An option as the help shows it. -/
def optionLine (spec : OptionSpec) : String :=
  let short := match spec.short with
    | some c => s!"-{c}, "
    | none => ""
  let value := if spec.takesValue then " <VALUE>" else ""
  s!"  {short}--{spec.long}{value}"

def helpText : String :=
  let options := splitOptions ++ shadeOptions.drop commonOptions.length
  "\n".intercalate (usage :: "" :: "Options:" :: options.map optionLine)

def UsageError.text (e : UsageError) : String :=
  s!"error: {e.message}\n\n{usage}\n\nFor more information, try '--help'."

end GoSplit.CommandLine
