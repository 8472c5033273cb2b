import Flatword.Command.Run

/-!
# Folders in memory

A folder without folders inside it, as a list of names and contents. It gives the access to files
that a command needs, with the reasons for failures that a file system gives. Of the folders above
it no file is known; what is written there is not seen again.
-/

namespace Flatword.Command

/-- The files of a folder by name. -/
abbrev Folder := List (String × String)

namespace Folder

def missing : String := "No such file or directory (os error 2)"

def notAFolder : String := "Not a directory (os error 20)"

def isAFolder : String := "Is a directory (os error 21)"

def tooLong : String := "File name too long (os error 36)"

/-- How many bytes a path has at most. -/
def maxPath : Nat := 4095

/-- How many bytes a name has at most. -/
def maxName : Nat := 255

/-- The content of the first file of a name. -/
def find? (folder : Folder) (name : String) : Option String :=
  List.lookup name folder

/-- Replace the content of the first file of a name, or add one at the end. -/
def put (name content : String) : Folder → Folder
  | [] => [(name, content)]
  | file :: rest =>
    if file.1 = name then (name, content) :: rest else file :: put name content rest

/-- What a path leads to. -/
inductive Target where
  /-- The folder itself or one above it. -/
  | folder
  /-- A file of the folder, whether it is there or not. -/
  | here (name : String)
  /-- A file of a folder above. -/
  | away
  deriving DecidableEq, Repr

/-- Follow the parts of a path between its slashes, from the folder itself or, if `up`, from one
above it. A file to be created must not have a slash after its name. -/
def follow (folder : Folder) (create : Bool) : (up : Bool) → List String → Except String Target
  | _, [] => .ok .folder
  | up, part :: rest =>
    if part = "" ∨ part = "." then follow folder create up rest
    else if part = ".." then follow folder create true rest
    else if create ∧ rest ≠ [] ∧ rest.all (· = "") then .error isAFolder
    else if maxName < part.utf8ByteSize then .error tooLong
    else if rest = [] then .ok (if up then .away else .here part)
    else .error (if !up ∧ (folder.find? part).isSome then notAFolder else missing)

/-- What a path leads to, or why it leads nowhere. -/
def locate (folder : Folder) (create : Bool) (path : String) : Except String Target :=
  if maxPath < path.utf8ByteSize then .error tooLong
  else folder.follow create (path.toList.head? = some '/') (path.splitOn "/")

/-- The content of the file that a path leads to. -/
def read (folder : Folder) (path : String) : Except String String := do
  match ← folder.locate false path with
  | .folder => .error isAFolder
  | .here name =>
    match folder.find? name with
    | some content => return content
    | none => .error missing
  | .away => .error missing

/-- The folder with a content at a path. -/
def write (folder : Folder) (path content : String) : Except String Folder := do
  match ← folder.locate true path with
  | .folder => .error isAFolder
  | .here name => return put name content folder
  | .away => return folder

/-- Access to the files of a folder. -/
def files : Files (StateM Folder) where
  read path := return (← get).read path
  write path content := do
    match (← get).write path content with
    | .ok folder =>
      set folder
      return .ok ()
    | .error reason => return .error reason

end Folder

end Flatword.Command
