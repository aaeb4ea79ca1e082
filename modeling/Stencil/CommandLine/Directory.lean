import Stencil.Text.Blank

/-!
# Directories

A run reads its files by their paths. `Directory.resolve` follows a path name by name, from
a directory whose files are given as text or from the root, and either ends at a file or
says why not. Of what lies outside the directory only `systemPlaces` is known; all else is
taken not to be there.
-/

namespace Stencil

namespace CommandLine

inductive FileError where
  | notFound
  /-- A file stands where the path goes on. -/
  | notDirectory
  | isDirectory
  /-- The path, or a name in it, is longer than paths may be. -/
  | nameTooLong
  | denied
  /-- The file does not hold UTF-8 text. -/
  | notText
  /-- Something else, in the words of the system. -/
  | other (reason : String)
  deriving DecidableEq, Repr, Inhabited

/-- The wording of the error. The system's own errors have a number. -/
def FileError.message : FileError → String
  | notFound => "No such file or directory (os error 2)"
  | notDirectory => "Not a directory (os error 20)"
  | isDirectory => "Is a directory (os error 21)"
  | nameTooLong => "File name too long (os error 36)"
  | denied => "Permission denied (os error 13)"
  | notText => "stream did not contain valid UTF-8"
  | other reason => reason

inductive Content where
  | text (text : String)
  /-- What is left of standard input. -/
  | input
  deriving DecidableEq, Repr, Inhabited

/-- Where a path leads: to a directory, by the names that lead there from the root, or to
a file. -/
inductive Place where
  | directory (names : List String)
  | file (content : Content)
  deriving DecidableEq, Repr, Inhabited

/-- The directories that stand below the root of every system of this kind. -/
def systemDirectories : List String :=
  ["bin", "boot", "dev", "etc", "home", "lib", "media", "mnt", "opt", "proc", "root", "run",
    "sbin", "srv", "sys", "tmp", "usr", "var"]

/-- The places of the system that do not depend on the directory of a run: the directories
below the root, and the devices for no text and for standard input. -/
def systemPlaces : List (List String × Place) :=
  [([], .directory []), (["dev", "fd"], .directory ["dev", "fd"]),
    (["dev", "null"], .file (.text "")), (["dev", "stdin"], .file .input),
    (["dev", "fd", "0"], .file .input)] ++
    systemDirectories.map fun name => ([name], .directory [name])

structure Directory where
  /-- The names that lead to it from the root. -/
  path : List String
  /-- The files in it and below it, each by the names that lead there from it, and with
  its text. -/
  files : List (List String × String)
  deriving DecidableEq, Repr, Inhabited

namespace Directory

/-- The place at that position. A file makes directories of all that its names lead
through. -/
def find (d : Directory) (names : List String) : Except FileError Place :=
  let files := d.files.map fun (below, text) => (d.path ++ below, text)
  match files.find? (·.1 = names), systemPlaces.find? (·.1 = names) with
  | some (_, text), _ => .ok (.file (.text text))
  | none, some (_, place) => .ok place
  | none, none =>
      if names.isPrefixOf d.path || files.any (names.isPrefixOf ·.1) then .ok (.directory names)
      else .error .notFound

def maxNameSize : Nat := 255

/-- The number of bytes that a path stays below. -/
def maxPathSize : Nat := 4096

/-- Follows one name from a place. The empty name, which stands between two slashes and
behind a slash at the end, and the name `.` lead nowhere else; the name `..` leads to the
directory above, and from the root nowhere else. -/
def enter (d : Directory) (place : Place) (name : String) : Except FileError Place :=
  match place with
  | .file _ => .error .notDirectory
  | .directory names =>
      if name = "" || name = "." then .ok place
      else if name = ".." then .ok (.directory names.dropLast)
      else if maxNameSize < name.utf8ByteSize then .error .nameTooLong
      else d.find (names ++ [name])

def namesOf (path : String) : List String :=
  (Text.pieces (· == '/') path.toList).map String.ofList

/-- The file that a path leads to. A path that begins with a slash is followed from the
root. -/
def resolve (d : Directory) (path : String) : Except FileError Content := do
  if path.isEmpty then throw .notFound
  if maxPathSize ≤ path.utf8ByteSize then throw .nameTooLong
  let start := if path.toList.head? = some '/' then [] else d.path
  match ← (namesOf path).foldlM d.enter (.directory start) with
  | .file content => return content
  | .directory _ => throw .isDirectory

end Directory

end CommandLine

end Stencil
