/-!
# Folders

A folder of files held in memory, so that a run can be followed without a disk. A name is read as a disk reads it:
part by part between the slashes, from the folder itself or, after a leading slash, from the top. What lies outside
the folder counts as bare folders.
-/

namespace LetFn

/-- Why there is no text to a file name. -/
inductive Unreadable where
  | missing
  | directory
  | notDirectory
  | nameTooLong
  | notText
  | other (reason : String)
deriving DecidableEq, Repr

def Unreadable.message : Unreadable → String
  | missing => "No such file or directory (os error 2)"
  | directory => "Is a directory (os error 21)"
  | notDirectory => "Not a directory (os error 20)"
  | nameTooLong => "File name too long (os error 36)"
  | notText => "stream did not contain valid UTF-8"
  | other reason => reason

/-- Files by the parts of their names, as they stand from the folder. -/
structure Folder where
  files : List (List String × String)
deriving DecidableEq, Repr

namespace Folder

/-- Where the first parts of a name lead. -/
inductive Place where
  | inside (parts : List String)
  | outside
  | file (text : String)
deriving DecidableEq, Repr

/-- The longest part of a name, in bytes. -/
def partLimit : Nat := 255

/-- The longest name, in bytes. -/
def nameLimit : Nat := 4095

def ofList (files : List (String × String)) : Folder := ⟨files.map fun (name, text) => (name.splitOn "/", text)⟩

/-- What stands at these parts: a file, or a folder if the names of some files go on from there. -/
def placeAt (f : Folder) (parts : List String) : Except Unreadable Place :=
  match f.files.lookup parts with
  | some text => .ok (.file text)
  | none => if f.files.any fun (name, _) => parts.isPrefixOf name then .ok (.inside parts) else .error .missing

/-- One part further. Nothing stands below a file, not even the file itself. -/
def enter (f : Folder) : Place → String → Except Unreadable Place
  | .file _, _ => .error .notDirectory
  | place, "" => .ok place
  | place, "." => .ok place
  | .outside, ".." => .ok .outside
  | .inside [], ".." => .ok .outside
  | .inside parts, ".." => .ok (.inside parts.dropLast)
  | place, part =>
    if partLimit < part.utf8ByteSize then .error .nameTooLong
    else match place with
      | .inside parts => f.placeAt (parts ++ [part])
      | _ => .error .missing

/-- The text of a file by its name. -/
def read (f : Folder) (name : String) : Except Unreadable String := do
  if name.isEmpty then throw .missing
  if nameLimit < name.utf8ByteSize then throw .nameTooLong
  let parts := name.splitOn "/"
  match ← parts.foldlM f.enter (if parts.head? = some "" then .outside else .inside []) with
  | .file text => return text
  | _ => throw .directory

end Folder

end LetFn
