import GoSplit.ImportPath

/-!
The manifest of a vendored tree: for every module a header line, annotations, and one
line per package copied from it. Modules are moved in order of their depth, so that a
module always comes before the modules nested in it.
-/

namespace GoSplit

namespace Manifest

structure Replacement where
  path : Text
  version : Option Text
  deriving DecidableEq, Repr

structure Module where
  path : Text
  version : Option Text
  replacement : Option Replacement
  /-- Required by the main module itself. -/
  explicit : Bool
  goVersion : Option Text
  packages : List Text
  deriving DecidableEq, Repr

/-- Whether anything of the module was copied. -/
def Module.isMaterialized (m : Module) : Bool := !m.packages.isEmpty

inductive Defect where
  | earlyNote
  | malformedHeader (line : Text)
  | earlyPackage (line : Text)
  deriving DecidableEq, Repr

structure Error where
  /-- Number of the line, from one. -/
  line : Nat
  defect : Defect
  deriving DecidableEq, Repr

def Error.message (e : Error) : String :=
  match e.defect with
  | .earlyNote => s!"line {e.line}: annotation before any module"
  | .malformedHeader line => s!"line {e.line}: malformed module header '{line.str}'"
  | .earlyPackage line => s!"line {e.line}: package '{line.str}' before any module"

/-- A word without white space at the head of the text, and what follows it. -/
def word (t : Text) : Option (Text × Text) :=
  let w := t.takeWhile fun c => !Text.isBlank c
  if w.isEmpty then none else some (w, t.dropWhile fun c => !Text.isBlank c)

/-- A version: a word that does not start with an equals sign. -/
def versionWord (t : Text) : Option (Text × Text) :=
  match t with
  | '=' :: _ => none
  | _ => word t

/-- One blank and then a version, or nothing. -/
def optionalVersion (t : Text) : Option Text × Text :=
  match t with
  | ' ' :: rest =>
    match versionWord rest with
    | some (version, after) => (some version, after)
    | none => (none, t)
  | _ => (none, t)

/-- A replacement and the end of the line, or only the end. -/
def replacementTail (t : Text) : Option (Option Replacement) :=
  match t with
  | [] => some none
  | _ =>
    match (" => ".toList).isPrefixOf? t with
    | none => none
    | some rest =>
      match word rest with
      | none => none
      | some (path, []) => some (some ⟨path, none⟩)
      | some (path, ' ' :: after) =>
        match word after with
        | some (version, []) => some (some ⟨path, some version⟩)
        | _ => none
      | some (_, _) => none

/-- Reads a header line that carries no white space at its end: a number sign, the
path, a version and a replacement, each after one blank. -/
def readHeader (line : Text) : Option Module :=
  match line with
  | '#' :: ' ' :: rest =>
    match word rest with
    | none => none
    | some (path, after) =>
      let (version, tail) := optionalVersion after
      (replacementTail tail).map fun replacement => ⟨path, version, replacement, false, none, []⟩
  | _ => none

/-- The version in an annotation `go VERSION`. -/
def goVersionOf (note : Text) : Option Text :=
  match note with
  | 'g' :: 'o' :: ' ' :: rest =>
    match word rest with
    | some (version, []) => some version
    | _ => none
  | _ => none

def annotate (m : Module) (note : Text) : Module :=
  if note = "explicit".toList then { m with explicit := true }
  else match goVersionOf note with
    | some version => { m with goVersion := some version }
    | none => m

/-- One line at its number. The module read last comes first. -/
def readLine (modules : List Module) (number : Nat) (raw : Text) : Except Error (List Module) :=
  let line := Text.trimEnd raw
  match line with
  | [] => .ok modules
  | '#' :: '#' :: ' ' :: annotations =>
    match modules with
    | [] => .error ⟨number, .earlyNote⟩
    | m :: earlier =>
      .ok (((Text.pieces ';' annotations).map Text.trim).foldl annotate m :: earlier)
  | '#' :: _ =>
    match readHeader line with
    | some m => .ok (m :: modules)
    | none => .error ⟨number, .malformedHeader line⟩
  | _ =>
    match modules with
    | [] => .error ⟨number, .earlyPackage line⟩
    | m :: earlier => .ok ({ m with packages := m.packages ++ [Text.trim line] } :: earlier)

def readLines (modules : List Module) (number : Nat) : List Text → Except Error (List Module)
  | [] => .ok modules.reverse
  | line :: rest =>
    match readLine modules number line with
    | .error e => .error e
    | .ok modules => readLines modules (number + 1) rest

end Manifest

structure Manifest where
  modules : List Manifest.Module
  deriving DecidableEq, Repr

namespace Manifest

def parse (text : Text) : Except Error Manifest :=
  (readLines [] 1 (Text.lines text)).map Manifest.mk

/-- Whether `child` lies below `parent`. -/
def nestedIn (child parent : Module) : Bool :=
  parent.path != child.path && ImportPath.isUnder child.path parent.path

def violationsIn : List Module → List (Text × Text)
  | [] => []
  | child :: later =>
    ((later.filter (nestedIn child)).map fun parent => (child.path, parent.path))
      ++ violationsIn later

/-- The pairs of a module and one it is nested in that the manifest lists later. -/
def orderingViolations (manifest : Manifest) : List (Text × Text) :=
  violationsIn manifest.modules

def depth (m : Module) : Nat := (ImportPath.segments m.path).length

/-- The modules by depth; manifest order is kept among equals. -/
def relocationOrder (manifest : Manifest) : List Module :=
  manifest.modules.mergeSort fun a b => depth a ≤ depth b

def packages (manifest : Manifest) : List Text := manifest.modules.flatMap (·.packages)

end Manifest

end GoSplit
