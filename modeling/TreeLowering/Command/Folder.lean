namespace TreeLowering

inductive ReadError where
  | notFound
  | isDirectory
  | notADirectory
  | nameTooLong
  | notText
  | other (text : String)
  deriving DecidableEq, Repr

def ReadError.message : ReadError → String
  | .notFound => "No such file or directory (os error 2)"
  | .isDirectory => "Is a directory (os error 21)"
  | .notADirectory => "Not a directory (os error 20)"
  | .nameTooLong => "File name too long (os error 36)"
  | .notText => "stream did not contain valid UTF-8"
  | .other text => text

-- A folder and the standard input of a run. `place` is the path of the folder as it is shown, with its
-- slash.
structure Folder where
  place : String
  stdin : Except ReadError String
  read : String → Except ReadError String
  isFile : String → Bool

namespace Folder

-- What stands under a name: a file, or a folder, which is listed or implied by what it holds.
inductive Entry where
  | file (text : String)
  | folder
  | absent
  deriving DecidableEq, Repr

abbrev Entries := List (List String × Option String)

def entryAt (entries : Entries) (names : List String) : Entry :=
  match entries.find? fun e => e.1 == names with
  | some (_, some text) => .file text
  | some (_, none) => .folder
  | none => if entries.any fun e => names.isPrefixOf e.1 then .folder else .absent

def nameLimit : Nat := 255

def pathLimit : Nat := 4095

-- Follows names from the folder `here`, which is given by its own names from the root on. No folder is
-- above the root.
def follow (entries : Entries) (here : List String) : List String → Except ReadError String
  | [] => .error .isDirectory
  | name :: rest =>
    if name = "" ∨ name = "." then follow entries here rest
    else if name = ".." then follow entries here.dropLast rest
    else if nameLimit < name.utf8ByteSize then .error .nameTooLong
    else match entryAt entries (here ++ [name]) with
      | .file text => if rest.isEmpty then .ok text else .error .notADirectory
      | .folder => follow entries (here ++ [name]) rest
      | .absent => .error .notFound

-- What stands under a path, which begins at the root if a slash is in front, else in the folder `home`.
def lookUp (entries : Entries) (home : List String) (path : String) : Except ReadError String :=
  if path.isEmpty then .error .notFound
  else if pathLimit < path.utf8ByteSize then .error .nameTooLong
  else follow entries (if path.startsWith "/" then [] else home) (path.splitOn "/")

-- The names of an entry; empty ones and dots say nothing.
def namesOf (path : String) : List String :=
  (path.splitOn "/").filter fun name => name != "" && name != "."

-- The folder `home` of a system that holds exactly the given entries, by their paths from the root on.
def ofEntries (place stdin : String) (home : List String) (entries : List (String × Option String)) : Folder :=
  let read := lookUp (entries.map fun e => (namesOf e.1, e.2)) home
  ⟨place, .ok stdin, read, fun path => (read path).isOk⟩

end Folder

end TreeLowering
