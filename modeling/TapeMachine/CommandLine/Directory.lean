import TapeMachine.Device.IoError

/-!
# TapeMachine.CommandLine.Directory — a directory of files

The directory is flat.  A path is followed name by name: the empty name and `.` stay where they are
and need a directory, `..` goes up, and nothing lies below a file.  Outside the directory only the
parts are known that every system has: the root, the standard directories in it, and the null
device, which is an empty file.
-/

namespace TapeMachine

/-- A directory that holds files only; of two files of one name the later one counts. -/
structure Directory where
  files : List (String × List UInt8)
  deriving DecidableEq, Repr, Inhabited

namespace Directory

/-- A place that a path leads to. -/
inductive Place where
  /-- The directory itself. -/
  | here
  /-- A directory above it. -/
  | above
  /-- The root of the file system. -/
  | root
  /-- The directory of the devices. -/
  | devices
  /-- Another directory in the root. -/
  | standard
  | file (contents : List UInt8)
  deriving DecidableEq, Repr, Inhabited

/-- Bytes of the longest name of a file. -/
def nameLimit : Nat := 255

/-- Bytes of the longest path. -/
def pathLimit : Nat := 4095

/-- The directories that stand in the root, apart from that of the devices. -/
def standardNames : List String :=
  ["bin", "boot", "etc", "home", "lib", "media", "mnt", "opt", "proc", "run", "sbin", "srv", "sys",
    "tmp", "usr", "var"]

/-- The directory that a directory is in; the root is in itself. -/
def Place.parent : Place → Place
  | here | above => above
  | root | devices | standard => root
  | file contents => file contents

/-- What a directory holds under a name. -/
def entry? (directory : Directory) (place : Place) (name : String) : Option Place :=
  match place with
  | .here => (directory.files.reverse.lookup name).map .file
  | .root =>
    if name = "dev" then some .devices
    else if name ∈ standardNames then some .standard
    else none
  | .devices => if name = "null" then some (.file []) else none
  | .above | .standard | .file _ => none

/-- The place to which one more name leads. -/
def step (directory : Directory) (place : Place) (name : String) : Except IoError Place :=
  match place with
  | .file _ => .error .notDirectory
  | _ =>
    if name = "" ∨ name = "." then .ok place
    else if name = ".." then .ok place.parent
    else if nameLimit < name.utf8ByteSize then .error .nameTooLong
    else match directory.entry? place name with
      | some place => .ok place
      | none => .error .noSuchFile

/-- The contents of the file that a path leads to. -/
def read (directory : Directory) (path : String) : Except IoError (List UInt8) := do
  if pathLimit < path.utf8ByteSize then throw .nameTooLong
  let start := if path.startsWith "/" then .root else .here
  match ← (path.splitOn "/").foldlM directory.step start with
  | .file contents => return contents
  | _ => throw .isDirectory

end Directory

end TapeMachine
