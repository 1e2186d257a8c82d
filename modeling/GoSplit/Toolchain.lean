import GoSplit.Program

/-!
The three things a run asks of the Go toolchain: name a new module, copy the
dependencies of a module into a directory, and tidy a module.
-/

namespace GoSplit

structure Toolchain where
  /-- Names the module in a directory. -/
  init : Path → Text → RunM Unit
  /-- Copies the dependencies of the module in the first directory into the second. -/
  vendor : Path → Path → RunM Unit
  /-- Tidies the module in a directory. -/
  tidy : Path → RunM Unit

namespace Toolchain

def goMod : Text := "go.mod".toList

/-- Runs a program of the toolchain. What it wrote as errors, or else its status, says
why it failed. -/
def command (programs : Programs) (program : Text) (verbose : Bool) (dir : Path)
    (args : List Text) : RunM Unit := do
  let line := Text.joinWith [' '] (program :: args)
  if verbose then SiteM.say s!"   $ {line.str} (in {dir.str})"
  SiteM.note s!"running `{line.str}` in {dir.str}"
  let completion ←
    SiteM.mapError (fun e => .toolchain line s!"failed to start: {e.message}")
      (programs.launch program dir args ByteArray.empty)
  if completion.status ≠ 0 then
    let errors := completion.errors.trim
    throw (.toolchain line
      (if errors.isEmpty then s!"exited with exit status: {completion.status}" else errors.str))

/-- The toolchain behind a program. A directory that has a module keeps it. -/
def ofProgram (programs : Programs) (program : Text) (verbose : Bool) : Toolchain :=
  let run (dir : Path) (args : List Text) : RunM Unit :=
    command programs program verbose dir ("mod".toList :: args)
  { init := fun dir name => do
      if ← SiteM.look fun tree => tree.isFile (dir.join goMod) then
        SiteM.note s!"{dir.str} already has {goMod.str}, skipping init"
      else run dir ["init".toList, name]
    vendor := fun workDir outDir => run workDir ["vendor".toList, "-o".toList, outDir.text]
    tidy := fun dir => run dir ["tidy".toList] }

end Toolchain

end GoSplit
