import PowerAsm.Command.Run

/-! The command line program. -/
namespace PowerAsm

/-- The system's number for a path that goes through a file. -/
def notDirectoryCode : UInt32 := 20

/-- The text of a system error on a path. -/
def systemMessage (action path : String) : IO.Error → String
  | .noFileOrDirectory .. => "open " ++ path ++ ": no such file or directory"
  | .permissionDenied .. => "open " ++ path ++ ": permission denied"
  | .inappropriateType _ code _ =>
    if code = notDirectoryCode then "open " ++ path ++ ": not a directory"
    else action ++ " " ++ path ++ ": is a directory"
  | error => action ++ " " ++ path ++ ": " ++ toString error

/-- Runs an action on a file, turning its failure into a text. -/
def attempt {α : Type} (action path : String) (work : IO α) : IO (Except Text α) := do
  match ← work.toBaseIO with
  | .ok value => return .ok value
  | .error error => return .error (systemMessage action path error)

/-- Carries a command out. -/
def carryOut : Command.Step → IO UInt8
  | .finished r => do
    let out ← IO.getStdout
    out.write ⟨r.output.toArray⟩
    out.flush
    let err ← IO.getStderr
    err.write ⟨r.diagnostics.utf8.toArray⟩
    err.flush
    return r.exitCode
  | .readFile path next => do
    let name := path.toString
    let content ← attempt "read" name (IO.FS.readBinFile name)
    carryOut (next (content.map (·.toList)))
  | .writeFile path content next => do
    let name := path.toString
    carryOut (next (← attempt "open" name (IO.FS.writeBinFile name ⟨content.toArray⟩)))

end PowerAsm

def main (args : List String) : IO UInt32 := do
  let target ← IO.getEnv "PPCASM_TARGET"
  let littleEndian ← IO.getEnv "PPCASM_LITTLE_ENDIAN"
  let terminal ← (← IO.getStdout).isTty
  let environment : PowerAsm.Command.Environment :=
    ⟨target.map PowerAsm.Text.ofString, littleEndian.map PowerAsm.Text.ofString, terminal⟩
  let code ← PowerAsm.carryOut
    (PowerAsm.Command.run environment (args.map PowerAsm.Text.ofString))
  return code.toUInt32
