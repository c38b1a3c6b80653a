/-
Files by their paths.

A command reads the files that its operands name. A path is followed name by name, from the working
folder or, with a slash before it, from the root; a dot stays where it is and two dots go up. The working
folder is given by the files in it and in its folders. Of all that lies around it only the null device is
known, which is an empty file.
-/
import LiveMarkup.Text.Words

set_option autoImplicit false

namespace LiveMarkup.Command

/-- Why a file cannot be read. -/
inductive ReadError where
  | notFound
  /-- Something in the path that has to be a folder is a file. -/
  | notFolder
  /-- The path leads to a folder. -/
  | isFolder
  /-- The path or a name in it is too long. -/
  | nameTooLong
  | denied
  /-- The bytes of the file are no text. -/
  | notText
  /-- Any other reason, in the words of the system. -/
  | other (reason : String)
deriving DecidableEq, Repr

/-- The text of the error. -/
def ReadError.message : ReadError → String
  | notFound => "No such file or directory (os error 2)"
  | notFolder => "Not a directory (os error 20)"
  | isFolder => "Is a directory (os error 21)"
  | nameTooLong => "File name too long (os error 36)"
  | denied => "Permission denied (os error 13)"
  | notText => "stream did not contain valid UTF-8"
  | other reason => reason

/-- Reads files by their paths. -/
abbrev Files := String → Except ReadError String

/-- Where a path leads. -/
inductive Place where
  /-- A folder in the working folder, by the names that lead to it, the last one first; the working folder
  itself has none. -/
  | inside (names : List String)
  /-- A folder around the working folder. -/
  | above
  | root
  /-- The folder of the devices. -/
  | devices
  /-- A file with its text. -/
  | file (text : String)
deriving DecidableEq, Repr

/-- The names in a path. -/
def namesOf (path : String) : List String := (Text.wordsWhere (· == '/') path.toList).map String.ofList

/-- How many bytes a name can have. -/
def maxNameSize : Nat := 255

/-- How many bytes a path can have. -/
def maxPathSize : Nat := 4095

/-- The place in the working folder that some names lead to, the last one first. -/
def Place.find (files : List (String × String)) (names : List String) : Except ReadError Place :=
  match files.find? fun (path, _) => (namesOf path).reverse == names with
  | some (_, text) => .ok (file text)
  | none =>
    if files.any fun (path, _) => names.isSuffixOf (namesOf path).reverse then .ok (inside names)
    else .error .notFound

/-- The place that a name leads to from another place. -/
def Place.follow (files : List (String × String)) (name : String) : Place → Except ReadError Place
  | file _ => .error .notFolder
  | place =>
    if name = "." then .ok place
    else if name = ".." then
      match place with
      | inside (_ :: names) => .ok (inside names)
      | inside [] | above => .ok above
      | _ => .ok root
    else if maxNameSize < name.utf8ByteSize then .error .nameTooLong
    else
      match place, name with
      | inside names, name => find files (name :: names)
      | root, "dev" => .ok devices
      | devices, "null" => .ok (file "")
      | _, _ => .error .notFound

/-- The files of the working folder, given by the paths that lead to them from there. -/
def Files.ofList (files : List (String × String)) : Files := fun path => do
  let cs := path.toList
  if cs.isEmpty then throw .notFound
  if maxPathSize < path.utf8ByteSize then throw .nameTooLong
  let start := if cs.head? = some '/' then Place.root else .inside []
  match ← (namesOf path).foldlM (fun place name => place.follow files name) start with
  | .file text => if cs.getLast? = some '/' then throw .notFolder else return text
  | _ => throw .isFolder

end LiveMarkup.Command
