import PowerAsm.Command.Path
import PowerAsm.Command.Run

/-! Running a command in a working directory that is held in memory. -/
namespace PowerAsm.Command

/-- A working directory without subdirectories. -/
structure Folder where
  files : List (Text × List UInt8)

namespace Folder

/-- The text of a system error. -/
def failure (action : String) (path : Text) (e : PathError) : Text :=
  action ++ " " ++ path ++ ": " ++ e.reason

/-- What there is to read at a path. Only a directory may be named with a slash at the
end. -/
def entry (f : Folder) (p : Path) : Except PathError PathEntry := do
  let holder ← p.holder f.files
  match p.last with
  | .stay => return .directory holder
  | .up => return .directory holder.parent
  | .name t =>
    match ← holder.lookup f.files t with
    | .directory d => return .directory d
    | .missing => throw .notFound
    | found => if p.closed then throw .notDirectory else return found

/-- Reads a file. A directory can be opened and fails only when it is read. -/
def read (f : Folder) (path : Text) : Except Text (List UInt8) :=
  match Path.ofText path >>= f.entry with
  | .error e => .error (failure "open" path e)
  | .ok (.directory _) => .error (failure "read" path .isDirectory)
  | .ok (.file _ content) => .ok content
  | .ok (.device _) | .ok .missing => .ok []

/-- The folder after content was written to a path. A file that did not exist is
created, which no path with a slash at the end can ask for; one outside the folder
leaves it as it is. -/
def written (f : Folder) (content : List UInt8) (p : Path) : Except PathError Folder := do
  let holder ← p.holder f.files
  match p.last with
  | .stay | .up => throw .isDirectory
  | .name t =>
    if p.closed then throw .isDirectory
    match ← holder.lookup f.files t with
    | .directory _ => throw .isDirectory
    | .device .null => return f
    | .device .full => throw .full
    | .file .. | .missing =>
      if holder = .home then return ⟨(t, content) :: f.files.filter (·.1 != t)⟩
      else if holder.takesFiles then return f
      else throw .denied

/-- Writes a file. A full device can be opened and fails only when it is written to. -/
def write (f : Folder) (path : Text) (content : List UInt8) : Except Text Folder :=
  (Path.ofText path >>= f.written content).mapError fun e =>
    failure (if e = .full then "write" else "open") path e

/-- Runs a command. -/
def run (f : Folder) : Step → Report × Folder
  | .finished r => (r, f)
  | .readFile path next => run f (next (f.read path))
  | .writeFile path content next =>
    match f.write path content with
    | .ok changed => run changed (next (.ok ()))
    | .error message => run f (next (.error message))

/-- The files that are new or different from those of an earlier folder. -/
def changedSince (before after : Folder) : List (Text × List UInt8) :=
  after.files.filter fun (name, content) => before.files.lookup name != some content

end Folder
end PowerAsm.Command
