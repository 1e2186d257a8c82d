import GoSplit.Path
import GoSplit.Toml.Document

/-!
Settings of a run and where its output goes. A settings file gives some of them and
leaves the others at their defaults; the output pattern has to mention the package,
and the private subtree has to be a proper subdirectory.
-/

namespace GoSplit

/-- What happens when a file cannot be shaded. -/
inductive ShadePolicy where
  /-- Stop at the first failure. -/
  | abort
  /-- Try every file and report all failures. -/
  | collect
  deriving DecidableEq, Repr

/-- How unused imports are found. -/
inductive PrunerChoice where
  /-- By the selectors in the file. -/
  | usage
  /-- By an external program. -/
  | goimports
  deriving DecidableEq, Repr

structure Config where
  /-- Name of the output module, with a placeholder for the package. -/
  outputPattern : Text
  /-- Output root; without it the module name below the working directory. -/
  outputDir : Option Path
  /-- Directory of the module whose dependencies are vendored. -/
  workDir : Path
  /-- The private subtree below the output root. -/
  thirdPartyDir : Text
  verbose : Bool
  progress : Bool
  /-- Shade files side by side, where failures are collected. -/
  parallel : Bool
  shadePolicy : ShadePolicy
  pruner : PrunerChoice
  goBinary : Text
  goimportsBinary : Text
  /-- Tidy the finished module. -/
  tidy : Bool
  /-- Import path roots that are external without a dot. -/
  externalRoots : List Text
  deriving DecidableEq, Repr

/-- Where the output goes and what it is called. -/
structure Layout where
  /-- Name of the output module. -/
  projectName : Text
  root : Path
  /-- The private subtree. -/
  thirdParty : Path
  /-- The namespace of the private subtree. -/
  importPrefix : Text
  deriving DecidableEq, Repr

inductive ConfigError where
  | toml
  | outputPattern (pattern : Text)
  | thirdPartyDir (dir : Text)
  deriving DecidableEq, Repr

def ConfigError.message : ConfigError → String
  | .toml => "TOML parse error"
  | .outputPattern pattern =>
    s!"output_pattern '{pattern.str}' must contain \x7bpackage\x7d"
  | .thirdPartyDir dir => s!"invalid third_party_dir '{dir.str}'"

namespace Config

def packageMark : Text := "\x7bpackage\x7d".toList

def default : Config where
  outputPattern := packageMark ++ "_split".toList
  outputDir := none
  workDir := Path.ofString "."
  thirdPartyDir := "third_party".toList
  verbose := false
  progress := true
  parallel := true
  shadePolicy := .collect
  pruner := .usage
  goBinary := "go".toList
  goimportsBinary := "goimports".toList
  tidy := true
  externalRoots := []

def classifier (config : Config) : Classifier := Classifier.ofRoots config.externalRoots

/-- The private subtree without slashes at its ends. -/
def thirdPartyName (config : Config) : Text :=
  (Text.dropEndWhile (· == '/') config.thirdPartyDir).dropWhile (· == '/')

def isValidSubtree (dir : Text) : Bool :=
  !dir.isEmpty &&
    (Text.pieces '/' dir).all fun s => !s.isEmpty && s != ['.'] && s != ['.', '.']

def validate (config : Config) : Except ConfigError Config :=
  if !Text.mentions packageMark config.outputPattern then
    .error (.outputPattern config.outputPattern)
  else if !isValidSubtree config.thirdPartyName then .error (.thirdPartyDir config.thirdPartyDir)
  else .ok config

def projectName (config : Config) (package : Text) : Text :=
  Text.replaceAll packageMark package config.outputPattern

/-- The layout for a package. -/
def layout (config : Config) (package : Text) : Layout :=
  let name := config.projectName package
  let root := config.outputDir.getD (config.workDir.join name)
  ⟨name, root, root.join config.thirdPartyName, name ++ '/' :: config.thirdPartyName⟩

/-! ### Settings files -/

open Toml (Value)

def textOf : Value → Option Text
  | .string t => some t
  | _ => none

def boolOf : Value → Option Bool
  | .boolean b => some b
  | _ => none

def textsOf : Value → Option (List Text)
  | .array items => items.mapM textOf
  | _ => none

/-- A choice is written as its name, or as a table with that name as its only key and
nothing under it. -/
def choiceOf {α : Type} (choices : List (String × α)) (v : Value) : Option α :=
  let named (name : Text) : Option α :=
    (choices.find? fun (word, _) => word.toList == name).map (·.2)
  match v with
  | .string t => named t
  | .table [(key, inner)] => if inner.isEmptyContainer then named key else none
  | _ => none

def policyOf : Value → Option ShadePolicy := choiceOf [("abort", .abort), ("collect", .collect)]

def prunerOf : Value → Option PrunerChoice :=
  choiceOf [("usage", .usage), ("goimports", .goimports)]

/-- The setting under a key, or its default when the key is missing. -/
def setting {α : Type} (doc : Value) (key : String) (read : Value → Option α) (preset : α) :
    Option α :=
  match doc.get? key.toList with
  | some v => read v
  | none => some preset

/-- The settings a document gives; none when one has the wrong type. -/
def ofDocument? (doc : Value) : Option Config := do
  let outputPattern ← setting doc "output_pattern" textOf default.outputPattern
  let outputDir ← setting doc "output_dir" (fun v => (textOf v).map fun t => some (Path.mk t)) none
  let workDir ← setting doc "work_dir" (fun v => (textOf v).map Path.mk) default.workDir
  let thirdPartyDir ← setting doc "third_party_dir" textOf default.thirdPartyDir
  let verbose ← setting doc "verbose" boolOf default.verbose
  let progress ← setting doc "progress" boolOf default.progress
  let parallel ← setting doc "parallel" boolOf default.parallel
  let shadePolicy ← setting doc "shade_policy" policyOf default.shadePolicy
  let pruner ← setting doc "pruner" prunerOf default.pruner
  let goBinary ← setting doc "go_binary" textOf default.goBinary
  let goimportsBinary ← setting doc "goimports_binary" textOf default.goimportsBinary
  let tidy ← setting doc "tidy" boolOf default.tidy
  let externalRoots ← setting doc "external_roots" textsOf default.externalRoots
  return { outputPattern, outputDir, workDir, thirdPartyDir, verbose, progress, parallel,
           shadePolicy, pruner, goBinary, goimportsBinary, tidy, externalRoots }

/-- Reads and validates a settings file. -/
def ofToml (text : Text) : Except ConfigError Config :=
  match (Toml.parse? text).bind ofDocument? with
  | some config => config.validate
  | none => .error .toml

end Config

end GoSplit
