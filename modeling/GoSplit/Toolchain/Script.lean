import GoSplit.Toolchain

/-!
A toolchain that follows a script instead of starting programs. It enters every request
in the journal before it answers it.
-/

namespace GoSplit

structure Script where
  /-- The manifest written beside the dependencies, if any. -/
  manifest : Option Text
  /-- The dependencies, by place in the vendored tree. -/
  files : List (Text × Node)
  /-- The requests that fail. -/
  failing : List Text

namespace Script

def request (script : Script) (verb : String) (rest : Text) (answer : RunM Unit) : RunM Unit := do
  SiteM.record (.requested (verb.toList ++ ' ' :: rest))
  if script.failing.contains verb.toList then
    throw (.toolchain s!"go mod {verb}".toList s!"{verb} failed")
  else answer

def write (path : Path) (node : Node) : RunM Unit :=
  match node with
  | .directory => Site.makeDirs path
  | .file content => do
    match path.parent with
    | some parent => Site.makeDirs parent
    | none => pure ()
    Site.change path fun tree => tree.writeBytes path content

def writeAll (dir : Path) : List (Text × Node) → RunM Unit
  | [] => pure ()
  | (rel, node) :: rest => do
    write (dir.join rel) node
    writeAll dir rest

def toolchain (script : Script) : Toolchain where
  init dir name :=
    script.request "init" (dir.text ++ ' ' :: name)
      (write (dir.join Toolchain.goMod)
        (.file (Content.ofText ("module ".toList ++ name ++ ['\n']))))
  vendor workDir outDir :=
    script.request "vendor" workDir.text do
      Site.makeDirs outDir
      writeAll outDir script.files
      match script.manifest with
      | some text => write (outDir.join "modules.txt".toList) (.file (Content.ofText text))
      | none => pure ()
  tidy dir := script.request "tidy" dir.text (pure ())

end Script

end GoSplit
