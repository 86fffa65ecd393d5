/-!
# Files

What reading a file can come to, and a directory tree that is given by a table, from which files are
read by path as from a disk.
-/

namespace ThreadedForth.CommandLine

/-- Why a file cannot be read. -/
inductive FileError
  | missing | notDirectory | isDirectory | nameTooLong | denied
  /-- the name holds a character that no name may hold -/
  | badName
  deriving DecidableEq

/-- The number and the text by which the system reports an error; a bad name it never sees. -/
def FileError.report? : FileError → Option (Nat × String)
  | .missing => some (2, "No such file or directory")
  | .denied => some (13, "Permission denied")
  | .notDirectory => some (20, "Not a directory")
  | .isDirectory => some (21, "Is a directory")
  | .nameTooLong => some (36, "File name too long")
  | .badName => none

/-- What a path leads to. -/
inductive Node
  | file (content : ByteArray)
  | directory

/-- A directory tree: what the paths in it lead to, each path given by its parts. -/
abbrev Tree := List (List String × Node)

namespace Tree

/-- The parts of a path, up to its slashes. -/
def parts (path : String) : List String := path.splitOn "/"

/-- What a list of parts leads to; all that contains something is a directory. -/
def node? (t : Tree) (place : List String) : Option Node :=
  match t.lookup place with
  | some n => some n
  | none => if t.any fun entry => place.isPrefixOf entry.1 then some .directory else none

/-- Follows the parts of a path where the tree does not reach: the directories around it hold
nothing else. -/
def followOutside : List String → Except FileError Node
  | [] => .ok .directory
  | part :: rest =>
    if part.utf8ByteSize > 255 then .error .nameTooLong
    else if part = "" || part = "." || part = ".." then followOutside rest
    else .error .missing

/-- Follows the parts of a path from a place in the tree, which is a directory. -/
def follow (t : Tree) (place : List String) : List String → Except FileError Node
  | [] => .ok ((t.node? place).getD .directory)
  | part :: rest =>
    if part.utf8ByteSize > 255 then .error .nameTooLong
    else if part = "" || part = "." then t.follow place rest
    else if part = ".." then
      if place = [] then followOutside rest else t.follow place.dropLast rest
    else
      let next := place ++ [part]
      match t.node? next with
      | none => .error .missing
      | some .directory => t.follow next rest
      | some (.file content) => if rest.isEmpty then .ok (.file content) else .error .notDirectory

/-- The content of the file at a path. -/
def read (t : Tree) (path : String) : Except FileError ByteArray :=
  if path.contains '\x00' then .error .badName
  else if path = "" then .error .missing
  else if path.utf8ByteSize > 4095 then .error .nameTooLong
  else
    let found :=
      if path.startsWith "/" then followOutside (parts path) else t.follow [] (parts path)
    match found with
    | .ok (.file content) => .ok content
    | .ok .directory => .error .isDirectory
    | .error e => .error e

end Tree

end ThreadedForth.CommandLine
