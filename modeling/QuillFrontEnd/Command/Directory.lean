/-!
# Files to read

Reading a file gives its bytes, or the reason why it cannot be read. A directory holds files and further directories; it is the
place that relative paths start from. A path is followed name by name, and the first name that leads nowhere decides the reason.
-/

namespace QuillFrontEnd

/-- Why a file cannot be read. -/
inductive ReadError where
  | notFound
  | permissionDenied
  | invalidText
  | isDirectory
  | notDirectory
  | nameTooLong
  /-- Any other reason, in words. -/
  | other (reason : String)
deriving DecidableEq

/-- The sentence that reports a file that cannot be read. -/
def ReadError.message (path : String) : ReadError → String
  | .notFound => "cannot find file '" ++ path ++ "'"
  | .permissionDenied => "permission denied reading '" ++ path ++ "'"
  | .invalidText => "'" ++ path ++ "' contains invalid UTF-8 data"
  | .isDirectory => "error reading '" ++ path ++ "': Is a directory (os error 21)"
  | .notDirectory => "error reading '" ++ path ++ "': Not a directory (os error 20)"
  | .nameTooLong => "error reading '" ++ path ++ "': File name too long (os error 36)"
  | .other reason => "error reading '" ++ path ++ "': " ++ reason

/-- Where a path has led, seen from the directory that relative paths start from. -/
inductive Place where
  /-- To this directory or below it, by the names on the way down. -/
  | inside (names : List String)
  /-- To a directory that is not below this one. -/
  | outside
deriving DecidableEq

/-- The place one directory up. From the directory itself that is outside, and outside there is no way back. -/
def Place.parent : Place → Place
  | .inside [] => .outside
  | .inside names => .inside names.dropLast
  | .outside => .outside

/-- A directory: the files in it and in the directories below it, and those directories, each by the names on the way down. -/
structure Directory where
  files : List (List String × ByteArray)
  folders : List (List String)

namespace Directory

/-- The longest name of a file or directory, in bytes. -/
def maxName : Nat := 255

/-- The longest path, in bytes. -/
def maxPath : Nat := 4095

/-- The steps of a path, which slashes part. Two slashes in a row have an empty step between them, and so have a slash at an
end of the path and that end. -/
def steps (path : String) : List String := path.splitOn "/"

/-- The names on the way down a path, without the steps that stay where they are. -/
def names (path : String) : List String := (steps path).filter fun name => name != "" && name != "."

/-- The directory with the listed files and folders, each of them by its path from the directory. -/
def ofListing (files : List (String × ByteArray)) (folders : List String) : Directory where
  files := files.map fun (path, bytes) => (names path, bytes)
  folders := folders.map names

/-- The bytes of the file at a place. -/
def file? (d : Directory) : Place → Option ByteArray
  | .inside names => (d.files.find? fun f => f.1 == names).map (·.2)
  | .outside => none

/-- Whether a place is a directory: this one, a listed one, one on the way to a file or to a listed one, or any outside. -/
def isFolder (d : Directory) : Place → Bool
  | .inside names =>
    names.isEmpty || d.folders.any names.isPrefixOf || d.files.any fun f => names.isPrefixOf f.1 && names != f.1
  | .outside => true

/-- The place that a name leads to from a directory. Nothing outside of this directory is known by a name. -/
def entry? (d : Directory) (name : String) : Place → Option Place
  | .inside names =>
    let next := Place.inside (names ++ [name])
    if d.isFolder next || (d.file? next).isSome then some next else none
  | .outside => none

/-- Takes one step of a path. Every step, also one that stays where it is or leads back, starts from a directory; an empty step
and a dot stay there, two dots lead one directory up, and a name leads to what it names. -/
def step (d : Directory) (place : Place) (name : String) : Except ReadError Place :=
  if !d.isFolder place then .error .notDirectory
  else if name = "" || name = "." then .ok place
  else if name = ".." then .ok place.parent
  else if maxName < name.utf8ByteSize then .error .nameTooLong
  else
    match d.entry? name place with
    | some next => .ok next
    | none => .error .notFound

/-- Takes the steps of a path in turn: the place they lead to, or why the way ends. -/
def walk (d : Directory) (place : Place) : List String → Except ReadError Place
  | [] => .ok place
  | name :: names =>
    match d.step place name with
    | .ok next => d.walk next names
    | .error e => .error e

/-- The place that a path starts from: outside if it begins with a slash, and this directory otherwise. -/
def start (path : String) : Place := if path.toList.head? = some '/' then .outside else .inside []

/-- Reads a file of a directory. The empty path names no file, and a path that is too long is not followed at all. -/
def read (d : Directory) (path : String) : Except ReadError ByteArray :=
  if path = "" then .error .notFound
  else if maxPath < path.utf8ByteSize then .error .nameTooLong
  else
    match d.walk (start path) (steps path) with
    | .error e => .error e
    | .ok place =>
      match d.file? place with
      | some bytes => .ok bytes
      | none => .error .isDirectory

end Directory

end QuillFrontEnd
