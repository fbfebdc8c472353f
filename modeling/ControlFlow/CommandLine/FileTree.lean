/-! # A tree of files

Commands run in one folder of a tree of folders, files and devices. A path is walked name by
name, from the root if it begins with a slash and from the working folder otherwise. The first
name that cannot be walked decides what is wrong with the path, save for a path that is too long
as a whole. Lengths count bytes.
-/

namespace ControlFlow.CommandLine

/-- Why a file cannot be read or written. -/
inductive FileFault where
  | missing
  | denied
  | notFolder
  | isFolder
  /-- The device has no room. -/
  | full
  /-- The path, or a name in it, is too long. -/
  | tooLong
  | other (text : String)
deriving DecidableEq

def FileFault.message : FileFault → String
  | .missing => "No such file or directory (os error 2)"
  | .denied => "Permission denied (os error 13)"
  | .notFolder => "Not a directory (os error 20)"
  | .isFolder => "Is a directory (os error 21)"
  | .full => "No space left on device (os error 28)"
  | .tooLong => "File name too long (os error 36)"
  | .other text => text

/-- What stands at a place of the tree. -/
inductive Entry where
  | folder
  | file (text : String)
  /-- A device reads as the empty text; a text written to it is gone, if the device has room. -/
  | device (room : Bool)
deriving DecidableEq

/-- The names that lead from the root to a place, innermost first. -/
abbrev Place := List String

/-- A tree of files with the folder that commands run in. -/
structure FileTree where
  /-- What stands at each place; the root is a folder and needs no entry. -/
  entries : List (Place × Entry)
  here : Place

namespace FileTree

def maxPathBytes : Nat := 4095

def maxNameBytes : Nat := 255

def entry? (tree : FileTree) : Place → Option Entry
  | [] => some .folder
  | place => (tree.entries.find? fun entry => entry.1 = place).map Prod.snd

/-- The names of a path. The empty name leads nowhere else, and stands for the root where a path
begins with it. -/
def names (path : String) : Except FileFault (List String) :=
  if path = "" then .error .missing
  else if maxPathBytes < path.utf8ByteSize then .error .tooLong
  else .ok (path.splitOn "/")

/-- The place at which the walk along some names begins. -/
def start (tree : FileTree) : List String → Place
  | "" :: _ => []
  | _ => tree.here

/-- Walk one name on. Only a folder can be walked through, and only in a folder is a name looked
up. -/
def enter (tree : FileTree) (place : Place) (name : String) : Except FileFault Place :=
  if tree.entry? place ≠ some .folder then .error .notFolder
  else if name = "" ∨ name = "." then .ok place
  else if name = ".." then .ok place.tail
  else if maxNameBytes < name.utf8ByteSize then .error .tooLong
  else if (tree.entry? (name :: place)).isSome then .ok (name :: place)
  else .error .missing

/-- The text at a path. -/
def read (tree : FileTree) (path : String) : Except FileFault String := do
  let names ← names path
  let place ← names.foldlM tree.enter (tree.start names)
  match tree.entry? place with
  | some (.file text) => return text
  | some (.device _) => return ""
  | some .folder => .error .isFolder
  | none => .error .missing

/-- Put a text at a place, where a file is made if there is nothing. -/
def put (tree : FileTree) (place : Place) (text : String) : Except FileFault FileTree :=
  match tree.entry? place with
  | some .folder => .error .isFolder
  | some (.device true) => .ok tree
  | some (.device false) => .error .full
  | _ => .ok { tree with entries := (place, .file text) :: tree.entries }

/-- Put a text at a path. The folder is walked to first. The last name has to be one for a file:
neither dots nor a name with a slash after it. -/
def write (tree : FileTree) (path text : String) : Except FileFault FileTree := do
  let names ← names path
  match names.reverse.dropWhile fun name => name = "" with
  | [] => .error .isFolder
  | last :: before =>
      let folder ← before.reverse.foldlM tree.enter (tree.start names)
      if tree.entry? folder ≠ some .folder then .error .notFolder
      else if last = "." ∨ last = ".." ∨ names.getLast? = some "" then .error .isFolder
      else if maxNameBytes < last.utf8ByteSize then .error .tooLong
      else tree.put (last :: folder) text

end FileTree

end ControlFlow.CommandLine
