import ShadowTaint.CommandLine.Run
/-!
# The program

Runs the command line on the files of the system.
-/

namespace ShadowTaint

/-- Why an operation on a file of the system failed. -/
def FileFault.ofError : IO.Error → FileFault
  | .noFileOrDirectory .. => .notFound
  | .inappropriateType _ code _ => if code = 20 then .notDirectory else .isDirectory
  | .unsupportedOperation code _ => if code = 20 then .notDirectory else .isDirectory
  | e => .other (toString e)

/-- Runs an operation on a file of the system. -/
def FileFault.catching {α : Type} (action : IO α) : IO (Except FileFault α) := do
  try return .ok (← action)
  catch e => return .error (.ofError e)

instance : FileAccess IO where
  readText path := do
    match ← FileFault.catching (IO.FS.readBinFile path) with
    | .error e => return .error e
    | .ok bytes => match String.fromUTF8? bytes with
      | some text => return .ok text
      | none => return .error .notText
  writeText path contents := FileFault.catching (IO.FS.writeFile path contents)
  createFile path := FileFault.catching do
    match Path.parent? path with
    | some dir => if !dir.isEmpty then IO.FS.createDirAll dir
    | none => pure ()
    let _ ← IO.FS.Handle.mk path .append
  pathExists path := do
    match ← FileFault.catching (IO.FS.Handle.mk path .read) with
    | .error .notFound | .error .notDirectory => return false
    | _ => return true
  currentDirectory := do return (← IO.currentDir).toString

/-- Whether output is coloured. Both variables can decide that, otherwise a terminal is coloured. -/
def Screen.ofSurroundings : IO Screen := do
  let force ← IO.getEnv "CLICOLOR_FORCE"
  let plain := (← IO.getEnv "NO_COLOR").isSome
  let allowed := (← IO.getEnv "CLICOLOR") != some "0"
  let isTerminal ← (← IO.getStdout).isTty
  let colors := if force.any (· != "0") then true else if plain then false else allowed && isTerminal
  return { colors, plain }

end ShadowTaint

open ShadowTaint in
/-- Runs the program. -/
def main (args : List String) : IO UInt32 := do
  let outcome ← CommandLine.run (← Screen.ofSurroundings) args
  IO.eprint outcome.stderr
  IO.print outcome.stdout
  return outcome.code.toUInt32
