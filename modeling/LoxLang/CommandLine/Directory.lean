/-!
# Files

The files that a command line can name, with their contents, and how a path is followed to one of
them. A path starts in a working directory, or at the root if it starts with a slash. What is known
of the places outside the working directory is what every system has there.
-/

namespace LoxLang.CommandLine

/-- Why a file cannot be read. -/
inductive FileError where
  | notFound
  | isDirectory
  | notDirectory
  | nameTooLong
  | permissionDenied
deriving DecidableEq, Repr

/-- The wording of a file error. -/
def FileError.message : FileError → String
  | notFound => "No such file or directory"
  | isDirectory => "Is a directory"
  | notDirectory => "Not a directory"
  | nameTooLong => "File name too long"
  | permissionDenied => "Permission denied"

/-- The files below the working directory, each by the names on the path to it. Of several files
with one path the last counts. -/
structure Directory where
  files : List (List String × ByteArray)

/-- Where following a path has led. -/
inductive Spot where
  /-- To the working directory or a directory below it. -/
  | directory (path : List String)
  /-- To a directory above the working directory, of whose files nothing is known. -/
  | above
  | root
  /-- To a directory that every system has at its root. -/
  | system (name : String)
  | file (content : ByteArray)

/-- The directories that every system has at its root. -/
def systemDirectories : List String :=
  ["bin", "dev", "etc", "home", "lib", "opt", "proc", "sbin", "tmp", "usr", "var"]

/-- The most bytes that a name of a path can have. -/
def maxNameSize : Nat := 255

/-- The most bytes that a path can have. -/
def maxPathSize : Nat := 4095

namespace Directory

/-- Follows one name of a path from the working directory or a directory below it. -/
def enter (d : Directory) (path : List String) (name : String) : Except FileError Spot :=
  let path := path ++ [name]
  match d.files.findRev? (·.1 = path) with
  | some (_, content) => .ok (.file content)
  | none =>
    if d.files.any fun file => path.isPrefixOf file.1 then .ok (.directory path)
    else .error .notFound

/-- Goes from a directory to the one around it. The root is around itself. -/
def leave : Spot → Spot
  | .directory [] => .above
  | .directory path => .directory path.dropLast
  | .above => .above
  | .root | .system _ => .root
  | .file content => .file content

/-- Follows one name of a path from a directory. The null device is a file without content. -/
def follow (d : Directory) (place : Spot) (name : String) : Except FileError Spot :=
  if maxNameSize < name.utf8ByteSize then .error .nameTooLong
  else
    match place with
    | .directory path => d.enter path name
    | .root => if systemDirectories.contains name then .ok (.system name) else .error .notFound
    | .system "dev" => if name = "null" then .ok (.file .empty) else .error .notFound
    | .system _ | .above => .error .notFound
    | .file _ => .error .notDirectory

/-- Follows one part of a path. -/
def step (d : Directory) (place : Spot) (part : String) : Except FileError Spot :=
  match place, part with
  | .file _, _ => .error .notDirectory
  | place, "" => .ok place
  | place, "." => .ok place
  | place, ".." => .ok (leave place)
  | place, name => d.follow place name

/-- The parts of a path between slashes. -/
def parts : List Char → List (List Char)
  | [] => [[]]
  | c :: cs =>
    if c = '/' then [] :: parts cs
    else
      match parts cs with
      | [] => [[c]]
      | part :: more => (c :: part) :: more

/-- The content of the file that a path leads to. -/
def read (d : Directory) (path : String) : Except FileError ByteArray := do
  if path.isEmpty then throw .notFound
  if maxPathSize < path.utf8ByteSize then throw .nameTooLong
  let start := if path.toList.head? = some '/' then .root else .directory []
  match ← ((parts path.toList).map String.ofList).foldlM d.step start with
  | .file content => return content
  | _ => throw .isDirectory

end Directory

end LoxLang.CommandLine
