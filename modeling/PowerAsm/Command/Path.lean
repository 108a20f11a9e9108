import PowerAsm.Text.Blank

/-! Paths. A path is followed one step at a time, and every step but the last has to
lead to a directory. What the last step may lead to depends on whether the file is read
or written. -/
namespace PowerAsm.Command

/-- Why a path cannot be followed. -/
inductive PathError where
  /-- The path holds a null character. -/
  | invalid
  | tooLong
  | notFound
  | notDirectory
  | isDirectory
  /-- The directory takes no files. -/
  | denied
  /-- The device takes no bytes. -/
  | full
deriving DecidableEq, Repr

def PathError.reason : PathError → String
  | .invalid => "invalid argument"
  | .tooLong => "file name too long"
  | .notFound => "no such file or directory"
  | .notDirectory => "not a directory"
  | .isDirectory => "is a directory"
  | .denied => "permission denied"
  | .full => "no space left on device"

inductive PathStep where
  /-- To the same directory. -/
  | stay
  /-- To the directory that holds it. -/
  | up
  | name (t : Text)
deriving DecidableEq, Repr

def PathStep.ofText (t : Text) : PathStep :=
  if t = ("." : Text) then .stay else if t = (".." : Text) then .up else .name t

structure Path where
  /-- Whether it starts at the root. -/
  rooted : Bool
  /-- The steps before the last. -/
  approach : List PathStep
  /-- The last step. A path of slashes alone stays where it starts. -/
  last : PathStep
  /-- Whether a slash follows the last step. -/
  closed : Bool
deriving DecidableEq, Repr

namespace Path

/-- The longest path in bytes. -/
def maxLength : Nat := 4095

/-- The longest name in bytes. -/
def maxName : Nat := 255

/-- Reads a path. Slashes in a row count as one. -/
def ofText (t : Text) : Except PathError Path :=
  if t.contains (.char '\x00') then .error .invalid
  else if maxLength < t.utf8.length then .error .tooLong
  else if t.isEmpty then .error .notFound
  else
    let slash : Glyph := .char '/'
    let steps := ((t.splitAt (· == slash)).filter (!·.isEmpty)).map PathStep.ofText
    .ok ⟨t.head? == some slash, steps.dropLast, steps.getLastD .stay, t.getLast? == some slash⟩

end Path

/-- A directory. -/
inductive Directory where
  /-- The working directory, which is one of the directory of temporary files. -/
  | home
  /-- Any other directory, by the names that lead to it from the root. -/
  | system (names : List Text)
deriving DecidableEq, Repr

/-- A device that can be written to. Both are empty. -/
inductive Device where
  /-- Takes everything and keeps nothing. -/
  | null
  /-- Takes nothing. -/
  | full
deriving DecidableEq, Repr

/-- What a name stands for in a directory. -/
inductive PathEntry where
  | directory (d : Directory)
  /-- A file of the working directory. -/
  | file (name : Text) (content : List UInt8)
  | device (d : Device)
  | missing
deriving DecidableEq, Repr

namespace Directory

/-- The standard directories of a system. -/
def standard : List (List Text) :=
  ["bin", "boot", "dev", "dev/pts", "dev/shm", "etc", "home", "lib", "media", "mnt", "opt",
    "proc", "proc/self", "proc/sys", "root", "run", "sbin", "srv", "sys", "tmp", "usr",
    "usr/bin", "usr/include", "usr/lib", "usr/local", "usr/local/bin", "usr/local/etc",
    "usr/local/include", "usr/local/lib", "usr/local/sbin", "usr/local/share",
    "usr/local/src", "usr/sbin", "usr/share", "usr/src", "var", "var/cache", "var/lib",
    "var/local", "var/log", "var/mail", "var/opt", "var/run", "var/spool", "var/tmp"].map
    fun path => (Text.ofString path).splitAt (· == .char '/')

def root : Directory := .system []

/-- The directory of temporary files. -/
def temporary : Directory := .system ["tmp"]

/-- The directory that holds a directory. The root holds itself. -/
def parent : Directory → Directory
  | .home => temporary
  | .system names => .system names.dropLast

/-- Whether files can be created in a directory. What the system tells of itself is not
kept in files. -/
def takesFiles : Directory → Bool
  | .home => true
  | .system [] => true
  | .system (first :: _) => first != ("proc" : Text) && first != ("sys" : Text)

/-- What a name stands for in a directory outside the working directory, of which only
the standard directories and the devices are known. -/
def systemEntry (names : List Text) (name : Text) : PathEntry :=
  let inner := names ++ [name]
  if standard.contains inner then .directory (.system inner)
  else if inner = [("dev" : Text), ("null" : Text)] then .device .null
  else if inner = [("dev" : Text), ("full" : Text)] then .device .full
  else .missing

/-- Looks a name up, `files` being those of the working directory. -/
def lookup (files : List (Text × List UInt8)) (d : Directory) (name : Text) :
    Except PathError PathEntry :=
  if Path.maxName < name.utf8.length then .error .tooLong
  else .ok (match d with
    | .home =>
      match files.lookup name with
      | some content => .file name content
      | none => .missing
    | .system names => systemEntry names name)

/-- Follows steps that all lead to directories. -/
def follow (files : List (Text × List UInt8)) : Directory → List PathStep →
    Except PathError Directory
  | d, [] => .ok d
  | d, .stay :: rest => follow files d rest
  | d, .up :: rest => follow files d.parent rest
  | d, .name t :: rest => do
    match ← d.lookup files t with
    | .directory inner => follow files inner rest
    | .file .. | .device _ => throw .notDirectory
    | .missing => throw .notFound

end Directory

namespace Path

/-- The directory in which the last step is taken. -/
def holder (p : Path) (files : List (Text × List UInt8)) : Except PathError Directory :=
  Directory.follow files (if p.rooted then Directory.root else .home) p.approach

end Path
end PowerAsm.Command
