/-! The version that a build carries. -/
namespace PowerAsm

/-- A module of a build. -/
structure BuildModule where
  path : String
  version : String
  /-- The version of the module that stands in for this one, if there is one. -/
  replacement : Option String
deriving DecidableEq, Repr

/-- The modules a program was built from. -/
structure BuildInfo where
  /-- The module of the program itself. -/
  program : BuildModule
  deps : List BuildModule
deriving DecidableEq, Repr

namespace Release

/-- The path of the module that holds this program. -/
def modulePath : String := "github.com/tetratelabs/ppcasm"

/-- The version of a build that carries none. -/
def unversioned : String := "dev"

/-- The version of a module that was required, or of the one that stands in for it. -/
def ofDependency (m : BuildModule) : String :=
  match m.replacement with
  | some version => if version = "" then m.version else version
  | none => m.version

/-- The version of this program in a build: that of the built program when it is this
one, and that of the first dependency that is otherwise. -/
def version (build : BuildInfo) : String :=
  if build.program.path = modulePath then
    if build.program.version = "" ∨ build.program.version = "(devel)" then unversioned
    else build.program.version
  else
    match build.deps.find? (·.path == modulePath) with
    | some m => ofDependency m
    | none => unversioned

end Release
end PowerAsm
