import ActionBlock.Text.Quoted

/-!
# Folders

A folder holds files by their paths. A path is resolved one name after the other: each name but
the last has to be that of a folder, a single point stays where it is, and two points go back to
the folder around.
-/

namespace ActionBlock

/-- Why a file cannot be read. -/
inductive FileError where
  | notFound (path : Text)
  | notPermitted (path : Text)
  | notAFolder (path : Text)
  | isAFolder (path : Text)
  /-- An offset before the start of the file. -/
  | badOffset
  deriving DecidableEq, Repr

/-- The wording of an error. -/
def FileError.message : FileError → Text
  | notFound path => "[Errno 2] No such file or directory: " ++ Quoted.text path
  | notPermitted path => "[Errno 13] Permission denied: " ++ Quoted.text path
  | notAFolder path => "[Errno 20] Not a directory: " ++ Quoted.text path
  | isAFolder path => "[Errno 21] Is a directory: " ++ Quoted.text path
  | badOffset => "[Errno 22] Invalid argument"

/-- Files by the names on the way to them. -/
structure Folder where
  files : List (List Text × Bytes)
  deriving DecidableEq, Repr

namespace Folder

/-- The parts of a text between slashes. -/
def names (path : Text) : List Text := path.splitOn (CodePoint.ofChar '/')

/-- The part of a path after the last slash. -/
def baseName (path : Text) : Text := (names path).getLastD []

/-- Whether a name stands for the folder that it is in. -/
def staysPut (name : Text) : Bool := name = [] || name = ("." : Text)

/-- The folder of files by their paths. -/
def ofFiles (files : List (Text × Bytes)) : Folder :=
  ⟨files.map fun (path, data) => ((names path).filter (!staysPut ·), data)⟩

/-- What is found at a place. -/
inductive Found where
  | file (data : Bytes)
  | folder
  deriving DecidableEq, Repr

/-- What is found under names that lead from the outermost folder. -/
def find? (f : Folder) (place : List Text) : Option Found :=
  match f.files.lookup place with
  | some data => some (.file data)
  | none =>
    if place = [] || f.files.any fun (names, _) => place.isPrefixOf names then some .folder
    else none

/-- Follows names from a place; the path is for the error. -/
def follow (f : Folder) (path : Text) (place : List Text) : List Text → Except FileError Bytes
  | [] =>
    match f.find? place with
    | some (.file data) => .ok data
    | some .folder => .error (.isAFolder path)
    | none => .error (.notFound path)
  | name :: names =>
    match f.find? place with
    | none => .error (.notFound path)
    | some (.file _) => .error (.notAFolder path)
    | some .folder =>
      if staysPut name then f.follow path place names
      else if name = (".." : Text) then f.follow path place.dropLast names
      else f.follow path (place ++ [name]) names

/-- The file at a path. -/
def read (f : Folder) (path : Text) : Except FileError Bytes :=
  if path = [] then .error (.notFound path) else f.follow path [] (names path)

end Folder

end ActionBlock
