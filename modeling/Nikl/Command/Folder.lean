/-
What lies at a path. Commands ask for nothing else of the files around them, so a folder can as well
be a list of files that are at hand.
-/

set_option autoImplicit false

namespace Nikl

/-- What lies at a path. -/
inductive Found where
  | nothing
  | directory
  | file (bytes : ByteArray)
  /-- The path leads through a file as if it were a directory. -/
  | throughFile
  /-- The path, or a name that is looked for on its way, is longer than any can be. -/
  | nameTooLong

/-- Files by their paths, and directories that need not hold any. Paths are lists of names. -/
structure Folder where
  files : List (List String × ByteArray) := []
  directories : List (List String) := []

namespace Folder

/-- The names between the slashes of a path. -/
def names (path : List Char) : List String := (path.splitOn '/').map String.ofList

/-- The names that tell where a path leads. -/
def place (path : String) : List String := (names path.toList).filter fun n => n ≠ "" && n ≠ "."

/-- A folder of files and directories at paths. -/
def ofPaths (files : List (String × ByteArray)) (directories : List String) : Folder :=
  ⟨files.map fun (p, bytes) => (place p, bytes), directories.map place⟩

/-- How many bytes a name can have. -/
def longestName : Nat := 255

/-- How many bytes a path can have. -/
def longestPath : Nat := 4095

def fileAt? (folder : Folder) (at_ : List String) : Option ByteArray := folder.files.lookup at_

/-- Every place that is given is in a directory, and so are the directories around it. -/
def isDirectory (folder : Folder) (at_ : List String) : Bool :=
  at_.isEmpty || folder.directories.any at_.isPrefixOf ||
    folder.files.any fun (p, _) => at_.isPrefixOf p && at_.length < p.length

/-- Follows names from a place, given with its last name first. A path may leave the folder, where it
finds directories on the way up and nothing else. -/
def follow (folder : Folder) : (above : Nat) → (reversed : List String) → List String → Found
  | above, reversed, [] =>
    if 0 < above then .directory
    else
      match folder.fileAt? reversed.reverse with
      | some bytes => .file bytes
      | none => if folder.isDirectory reversed.reverse then .directory else .nothing
  | above, reversed, name :: rest =>
    if (folder.fileAt? reversed.reverse).isSome && above = 0 then .throughFile
    else if !(folder.isDirectory reversed.reverse) && above = 0 then .nothing
    else if name = "" || name = "." then follow folder above reversed rest
    else if name = ".." then
      match reversed with
      -- upward out of the folder, of which nothing is known but that it is there
      | [] => follow folder (above + 1) [] rest
      | _ :: reversed => follow folder above reversed rest
    -- a name is measured when it is looked for, so a fault earlier on the way is told first
    else if longestName < name.utf8ByteSize then .nameTooLong
    else if 0 < above then .nothing
    else follow folder above (name :: reversed) rest

/-- What lies at a path. The empty path leads nowhere, and a path that begins with a slash leads out
of the folder. -/
def find (folder : Folder) (path : String) : Found :=
  if longestPath < path.utf8ByteSize then .nameTooLong
  else
    match names path.toList with
    | [] | [""] => .nothing
    | "" :: rest => follow folder 1 [] rest
    | name :: rest => follow folder 0 [] (name :: rest)

end Folder
end Nikl
